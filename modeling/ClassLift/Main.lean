import ClassLift.Command.Run

/-!
The command on the files of the system.
-/

namespace ClassLift

def FileError.ofSystem : IO.Error → FileError
  | .noFileOrDirectory .. => .notFound
  | e => .other (toString e)

def systemDisk : Disk IO where
  read path := do
    try
      return .ok (← IO.FS.readFile path)
    catch e =>
      return .error (.ofSystem e)
  write path content := do
    try
      IO.FS.writeFile path content
      return .ok ()
    catch e =>
      return .error (.ofSystem e)

end ClassLift

def main (arguments : List String) : IO UInt32 := do
  let printed ← ClassLift.Command.execute ClassLift.systemDisk arguments
  (← IO.getStdout).putStr printed.out
  (← IO.getStderr).putStr printed.err
  return printed.status.toUInt32

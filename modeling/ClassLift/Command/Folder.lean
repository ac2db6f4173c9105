/-!
The working folder of a command, and what paths mean in it. It holds files only. Of the folders
around it nothing is known but that they are there, and none of their entries is found.
-/

namespace ClassLift

inductive FileError
  | notFound
  | notAFolder
  | isAFolder
  | nameTooLong
  | zeroInName
  -- Any other cause, in the words of the system.
  | other (text : String)
  deriving DecidableEq, Repr

def FileError.message : FileError → String
  | notFound => "No such file or directory (os error 2)"
  | notAFolder => "Not a directory (os error 20)"
  | isAFolder => "Is a directory (os error 21)"
  | nameTooLong => "File name too long (os error 36)"
  | zeroInName => "file name contained an unexpected NUL byte"
  | other text => text

-- What a command reads and writes, by path.
structure Disk (m : Type → Type) where
  read : String → m (Except FileError String)
  write : String → String → m (Except FileError Unit)

-- A disk whose state is a value. A write that fails leaves it as it was.
def Disk.ofState {σ : Type} (read : σ → String → Except FileError String)
    (write : σ → String → String → Except FileError σ) : Disk (StateM σ) where
  read path := do return read (← get) path
  write path content := do
    match write (← get) path content with
    | .error e => return .error e
    | .ok d =>
      set d
      return .ok ()

structure Folder where
  files : List (String × String) := []
  deriving DecidableEq, Repr

namespace Folder

def file? (d : Folder) (name : String) : Option String :=
  d.files.lookup name

-- A new file comes last.
def put (d : Folder) (name content : String) : Folder where
  files :=
    if (d.file? name).isSome then
      d.files.map fun (n, c) => if n = name then (n, content) else (n, c)
    else
      d.files ++ [(name, content)]

/- Paths -/

inductive Place
  | here
  | elsewhere
  | file (name : String)
  deriving DecidableEq, Repr

-- The longest name and the longest path, in bytes.
def maxName : Nat := 255

def maxPath : Nat := 4095

def step (d : Folder) (place : Place) (name : String) : Except FileError Place :=
  match place with
  | .file _ => .error .notAFolder
  | _ =>
    if name = "." then .ok place
    else if name = ".." then .ok .elsewhere
    else if maxName < name.utf8ByteSize then .error .nameTooLong
    else if place = .here ∧ (d.file? name).isSome then .ok (.file name)
    else .error .notFound

structure Route where
  start : Place
  names : List String
  -- The path ends with a slash, so that it can only name a folder.
  toFolder : Bool

def route (path : String) : Except FileError Route :=
  let s := path.toList
  if '\x00' ∈ s then
    .error .zeroInName
  else if maxPath < path.utf8ByteSize then
    .error .nameTooLong
  else
    .ok {
      start := if s.head? = some '/' then .elsewhere else .here
      names := ((s.splitOn '/').filter (!·.isEmpty)).map String.ofList
      toFolder := s.getLast? = some '/' }

def read (d : Folder) (path : String) : Except FileError String := do
  let route ← route path
  match ← route.names.foldlM d.step route.start with
  | .here | .elsewhere => throw .isAFolder
  | .file name =>
    if route.toFolder then
      throw .notAFolder
    return (d.file? name).getD ""

-- What is written elsewhere is not seen again.
def write (d : Folder) (path content : String) : Except FileError Folder := do
  let route ← route path
  let place ← route.names.dropLast.foldlM d.step route.start
  match route.names.getLast?, place with
  | none, _ => throw .isAFolder
  | some _, .file _ => throw .notAFolder
  | some name, place =>
    if name = "." ∨ name = ".." ∨ route.toFolder then
      throw .isAFolder
    if maxName < name.utf8ByteSize then
      throw .nameTooLong
    return if place = .here then d.put name content else d

def disk : Disk (StateM Folder) :=
  .ofState read write

end Folder

end ClassLift

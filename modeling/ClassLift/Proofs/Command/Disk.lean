import ClassLift.Command.Folder
import Mathlib.Logic.Function.Basic

/-!
Disks that keep files. Nothing is said of their folders, or of what they refuse: any read and any write
may fail.
-/

namespace ClassLift

namespace Disk

variable {σ φ : Type}

-- What a read gives.
def found (disk : Disk (StateM σ)) (d : σ) (path : String) : Except FileError String :=
  ((disk.read path).run d).1

-- What a write gives, and the disk after it.
def written (disk : Disk (StateM σ)) (d : σ) (path text : String) : Except FileError Unit × σ :=
  (disk.write path text).run d

-- A path leads to one file, or to none, and several may lead to the same. A read changes nothing. A write
-- that ends well leaves the text in the file, and no write changes any other.
structure HasFiles (disk : Disk (StateM σ)) (file? : σ → φ → Option String)
    (leads : σ → String → φ → Prop) : Prop where
  read_keeps  : ∀ d path, ((disk.read path).run d).2 = d
  write_ok    : ∀ d path text file, (disk.written d path text).1 = .ok () → leads d path file →
    file? (disk.written d path text).2 file = some text
  write_other : ∀ d path text file, ¬leads d path file →
    file? (disk.written d path text).2 file = file? d file

variable {file? : σ → φ → Option String} {leads : σ → String → φ → Prop}
variable {read : σ → String → Except FileError String} {write : σ → String → String → Except FileError σ}

theorem written_ofState (d : σ) (path text : String) : (ofState read write).written d path text =
    match write d path text with
    | .error e => (.error e, d)
    | .ok d'   => (.ok (), d') := by
  simp only [written, ofState, StateT.run_bind, StateT.run_get, pure_bind]
  cases write d path text <;> rfl

theorem HasFiles.ofState
    (ok : ∀ {d d' path text file}, write d path text = .ok d' → leads d path file →
      file? d' file = some text)
    (other : ∀ {d d' path text file}, write d path text = .ok d' → ¬leads d path file →
      file? d' file = file? d file) : (ofState read write).HasFiles file? leads where
  read_keeps _ _ := rfl
  write_ok d path text _ done named := by
    rw [written_ofState] at done ⊢
    cases h : write d path text
    case error e => rw [h] at done; cases done
    case ok d'   => exact ok h named
  write_other d path text _ named := by
    rw [written_ofState]
    cases h : write d path text
    case error e => rfl
    case ok d'   => exact other h named

end Disk

-- Files in any folders, by the names on the way to them. Some of them may be refused.
structure FileMap where
  working  : List String
  file?    : List String → Option String
  refusal? : List String → Option FileError

namespace FileMap

def step (place : List String) (name : String) : List String :=
  if name = "" ∨ name = "." then place
  else if name = ".." then place.dropLast
  else place ++ [name]

-- A path starts at the working folder, or else at the root.
def place (m : FileMap) (path : String) : List String :=
  ((path.toList.splitOn '/').map String.ofList).foldl step
    (if path.toList.head? = some '/' then [] else m.working)

def read (m : FileMap) (path : String) : Except FileError String :=
  match m.refusal? (m.place path), m.file? (m.place path) with
  | some e, _       => .error e
  | none, none      => .error .notFound
  | none, some text => .ok text

def write (m : FileMap) (path text : String) : Except FileError FileMap :=
  match m.refusal? (m.place path) with
  | some e => .error e
  | none   => .ok { m with file? := Function.update m.file? (m.place path) (some text) }

def disk : Disk (StateM FileMap) :=
  .ofState read write

theorem file?_of_write {m m' : FileMap} {path text : String} (h : m.write path text = .ok m') :
    m'.file? = Function.update m.file? (m.place path) (some text) := by
  unfold write at h
  split at h <;> cases h
  rfl

theorem hasFiles : disk.HasFiles file? fun m path file => m.place path = file :=
  .ofState (fun h named => file?_of_write h ▸ named ▸ Function.update_self ..)
    (fun h named => file?_of_write h ▸ Function.update_of_ne (Ne.symm named) ..)

end FileMap

end ClassLift

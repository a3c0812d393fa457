import Staaash.Library.Runs
import Staaash.Pair.LocalScan

/-!
# Edits after the scan

The local folder as the disk has it, with the contents of its files, what people and programs do to it
between the scan and the handler of a trash action, and what that handler moves to the trash.
-/

namespace Staaash.Pair

open Staaash.Library
open Staaash.Planner

/-! ## The disk -/

/-- The checksum of its bytes stands for the content of a file. -/
inductive DiskNode
  | file (size : Nat) (mtimeMs : Int) (ino content : String)
  | folder (mtimeMs : Int) (ino : String)
  | link (ino : String)
  | special (size : Nat) (mtimeMs : Int) (ino : String)
deriving DecidableEq, Repr

/-- Entries by the spelling they were made with. -/
abbrev Disk := List (Rel × DiskNode)

section Names

variable (P : Platform)

/-- What the disk goes by: a platform that ignores case finds an entry under any spelling of its path. -/
def onDisk (rel : Rel) : Rel := if P.caseInsensitive then P.pathKey rel else rel

def Disk.at (disk : Disk) (rel : Rel) : Option DiskNode :=
  (disk.find? fun e => onDisk P e.1 = onDisk P rel).map Prod.snd

/-- `statLocal` -/
def Disk.stat (disk : Disk) (rel : Rel) : Option LocalFile :=
  match disk.at P rel with
  | none => none
  | some (.link _) => none
  | some (.folder mtimeMs ino) => some { rel, type := .folder, size := 0, mtimeMs, ino, checksum := none }
  | some (.file size mtimeMs ino _) => some { rel, type := .file, size, mtimeMs, ino, checksum := none }
  | some (.special size mtimeMs ino) => some { rel, type := .file, size, mtimeMs, ino, checksum := none }

end Names

section Listing

variable (content : Rel → String) (other : Rel → DiskNode)

mutual

/-- What a directory entry shows, with the contents; `other` is what is there where the entry does not
say. -/
def diskOfDirent (rel : Rel) : Dirent → Disk
  | .unreadable name => [(joinRel rel name.text, other (joinRel rel name.text))]
  | .link name ino => [(joinRel rel name.text, .link ino)]
  | .special name _ => [(joinRel rel name.text, other (joinRel rel name.text))]
  | .file name size mtimeMs ino =>
    [(joinRel rel name.text, .file size mtimeMs ino (content (joinRel rel name.text)))]
  | .folder name mtimeMs ino _ inside =>
    (joinRel rel name.text, .folder mtimeMs ino) :: diskOfDirents (joinRel rel name.text) inside

def diskOfDirents (rel : Rel) : List Dirent → Disk
  | [] => []
  | dirent :: rest => diskOfDirent rel dirent ++ diskOfDirents rel rest

end

def diskOf (root : List Dirent) : Disk := diskOfDirents content other [] root

end Listing

/-! ## Edits -/

/-- To rename is to remove the one path and to write the other. -/
inductive LocalEdit
  | write (rel : Rel) (size : Nat) (mtimeMs : Int) (ino content : String)
  | makeFolder (rel : Rel) (mtimeMs : Int) (ino : String)
  | remove (rel : Rel)
deriving DecidableEq, Repr

/-- No file is written over a folder, and no folder is made where something is. -/
def Disk.edit (P : Platform) (disk : Disk) : LocalEdit → Disk
  | .write rel size mtimeMs ino content =>
    match disk.at P rel with
    | some (.folder _ _) => disk
    | _ => (rel, .file size mtimeMs ino content) :: disk.filter fun e => onDisk P e.1 ≠ onDisk P rel
  | .makeFolder rel mtimeMs ino => if (disk.at P rel).isSome then disk else (rel, .folder mtimeMs ino) :: disk
  | .remove rel => disk.filter fun e => !atOrBelow (onDisk P rel) (onDisk P e.1)

/-! ## What is trashed -/

variable (P : Platform)

/-- The trash takes what is at the path, and of a folder all that is below. -/
def Disk.goesWith (disk : Disk) (rel p : Rel) : Prop :=
  onDisk P p = onDisk P rel ∨
    (∃ mtimeMs ino, disk.at P rel = some (.folder mtimeMs ino)) ∧ Below (onDisk P rel) (onDisk P p)

/-- The handler's look at the disk finds what is there. -/
def Sees (disk : Disk) (rel : Rel) (answers : List Answer) : Prop :=
  ∀ a ∈ answers.head?, a.stat = disk.stat P rel

/-- The handler, with any answers to its other calls, moves the file at `p` to the trash. -/
def MovesToTrash (disk : Disk) (base : List BaseEntry) (rel : Rel) (here : LocalFile) (p : Rel) : Prop :=
  ∃ pairId answers target, Sees P disk rel answers ∧
    .onLocal (.trash target) ∈ ((Desk.fresh pairId base).execute (.trashLocal rel here) answers).changes ∧
    disk.goesWith P target p

variable (input : PlanInput)

/-- The content of the file that was synced at the key. -/
def BaseContent (synced : BaseEntry → String) (k : Rel) (content : String) : Prop :=
  ∃ previous, BaseAt P input k previous ∧ previous.type = .file ∧ synced previous = content

/-- No file with another content than the base's at its path goes to the trash. -/
def KeepsEdits (synced : BaseEntry → String) (disk : Disk) (rel : Rel) (here : LocalFile) : Prop :=
  ∀ p size mtimeMs ino content, disk.at P p = some (.file size mtimeMs ino content) →
    MovesToTrash P disk input.base rel here p → BaseContent P input synced (P.pathKey p) content

/-! ## What can be told -/

/-- At the scan the stat of a file tells that it is the synced one, and the checksums are those of the
contents. -/
structure ToldApart (synced : BaseEntry → String) (disk : Disk) : Prop where
  byStat : ∀ rel size mtimeMs ino content, (rel, .file size mtimeMs ino content) ∈ disk →
    ∀ previous, BaseAt P input (P.pathKey rel) previous → size = previous.size →
      mtimeMs = previous.mtimeMs → ino = previous.ino → previous.type = .file ∧ synced previous = content
  byChecksum : ∀ rel size mtimeMs ino content, (rel, .file size mtimeMs ino content) ∈ disk →
    ∀ here ∈ input.locals, here.rel = rel → ∀ checksum, here.checksum = some checksum → checksum = content
  saved : ∀ previous ∈ input.base, ∀ checksum, previous.checksum = some checksum →
    previous.type = .file ∧ synced previous = checksum

/-- An edit that gives no file below the path, in whatever spelling the disk takes for it, another content than
the base's, and that shows in the stat where it gives one to the path itself. -/
def Harmless (synced : BaseEntry → String) (rel : Rel) (here : LocalFile) : LocalEdit → Prop
  | .write p size mtimeMs ino content =>
    BaseContent P input synced (P.pathKey p) content ∨
      ¬Below (onDisk P rel) (onDisk P p) ∧
        (onDisk P p = onDisk P rel → ¬(size = here.size ∧ mtimeMs = here.mtimeMs ∧ ino = here.ino))
  | .makeFolder _ _ _ => True
  | .remove _ => True

end Staaash.Pair

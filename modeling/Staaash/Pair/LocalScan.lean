import Staaash.Pair.Modes

/-!
# The scan of the local folder

What a directory holds is read before anything in it is told apart by its key, so a scan may list two
entries whose names are one name to the app. The planner looks entries up by their keys.
-/

namespace Staaash.Pair

open Staaash.Planner

/-- What a directory may call an entry. -/
structure DiskName where
  text : Rel
  nonempty : text ≠ []
  noSlash : '/' ∉ text
deriving DecidableEq

/-- An entry of a directory as `readdir` and `lstat` show it. -/
inductive Dirent
  /-- `lstat` failed. -/
  | unreadable (name : DiskName)
  | link (name : DiskName) (ino : String)
  /-- Neither a file nor a folder. -/
  | special (name : DiskName) (ino : String)
  | file (name : DiskName) (size : Nat) (mtimeMs : Int) (ino : String)
  | folder (name : DiskName) (mtimeMs : Int) (ino : String) (readable : Bool) (inside : List Dirent)

structure LocalScan where
  entries : List LocalFile
  excluded : List Excluded

def LocalScan.append (a b : LocalScan) : LocalScan :=
  { entries := a.entries ++ b.entries, excluded := a.excluded ++ b.excluded }

/-- A path that the scan leaves alone. -/
def leftAlone (rel : Rel) (ino : Option String) : LocalScan :=
  { entries := [], excluded := [{ side := .onLocal, rel, ino, remoteId := none }] }

/-- An entry of the scan, not hashed yet. -/
def scanned (entry : LocalFile) : LocalScan := { entries := [entry], excluded := [] }

section Walk

variable (ignore leftOut : Rel → Bool)

mutual

/-- One entry of the directory `rel`. -/
def scanDirent (rel : Rel) : Dirent → LocalScan
  | .unreadable name => leftAlone (joinRel rel name.text) none
  | .link name ino => leftAlone (joinRel rel name.text) (some ino)
  | .special name ino =>
    if ignore name.text || leftOut (joinRel rel name.text) then
      leftAlone (joinRel rel name.text) (some ino)
    else leftAlone (joinRel rel name.text) none
  | .file name size mtimeMs ino =>
    if ignore name.text || leftOut (joinRel rel name.text) then
      leftAlone (joinRel rel name.text) (some ino)
    else scanned { rel := joinRel rel name.text, type := .file, size, mtimeMs, ino, checksum := none }
  | .folder name mtimeMs ino readable inside =>
    if ignore name.text || leftOut (joinRel rel name.text) then
      leftAlone (joinRel rel name.text) (some ino)
    else if readable then
      (scanned { rel := joinRel rel name.text, type := .folder, size := 0, mtimeMs, ino,
                 checksum := none }).append (scanDirents (joinRel rel name.text) inside)
    -- the folder itself stays out too: its contents are unknown
    else leftAlone (joinRel rel name.text) none

def scanDirents (rel : Rel) : List Dirent → LocalScan
  | [] => { entries := [], excluded := [] }
  | dirent :: rest => (scanDirent rel dirent).append (scanDirents rel rest)

end

/-- `scanLocal` of a root that can be read. -/
def scanLocal (root : List Dirent) : LocalScan := scanDirents ignore leftOut [] root

end Walk

/-- The planner is given the entries of the scan, with the checksums that are known, and the paths
that the scan left alone among those that sync leaves alone. -/
structure Scanned (input : PlanInput) (scan : LocalScan) : Prop where
  locals : ∃ checksums : LocalFile → Option String,
    input.locals = scan.entries.map fun entry => { entry with checksum := checksums entry }
  excluded : ∀ each ∈ scan.excluded, each ∈ input.excluded

variable (P : Platform)

/-- Two entries of the scan have the key. -/
def Collides (scan : LocalScan) (k : Rel) : Prop :=
  1 < (scan.entries.filter fun each => P.pathKey each.rel = k).length

instance (scan : LocalScan) (k : Rel) : Decidable (Collides P scan k) :=
  inferInstanceAs (Decidable (_ < _))

/-- No action names the path or one below it, and none trashes a folder above it. -/
structure LeavesAlone (k : Rel) (actions : List Action) : Prop where
  untouched : ∀ a ∈ actions, ∀ rel ∈ pathsOf a, ¬AtOrBelow k (P.pathKey rel)
  keptHere : ∀ rel here, .trashLocal rel here ∈ actions → ¬Below (P.pathKey rel) k
  keptThere : ∀ rel remote, .trashRemote rel remote ∈ actions → ¬Below (P.pathKey rel) k

/-- Whatever the server and the base hold, no plan touches a path on which entries collide. -/
def CollisionsLeftAlone (mode : SyncMode) (scan : LocalScan) : Prop :=
  ∀ input : PlanInput, input.mode = mode → Scanned input scan → ∀ k, Collides P scan k →
    LeavesAlone P k (plan P input).actions

/-- The scan has left the path alone, or a folder above it. -/
def LocalScan.hides (scan : LocalScan) (k : Rel) : Bool :=
  covered k [scan.excluded.map fun each => P.pathKey each.rel]

/-- A key is made of the names of a path one by one: neither `normalize("NFC")` nor `toLowerCase()`
works across a slash, makes one, or makes a name disappear. -/
structure KeysByName : Prop where
  join : ∀ parent name, P.pathKey (parent ++ '/' :: name) = P.pathKey parent ++ '/' :: P.pathKey name
  noSlash : ∀ name, '/' ∉ name → '/' ∉ P.pathKey name
  nonempty : ∀ name, name ≠ [] → P.pathKey name ≠ []

end Staaash.Pair

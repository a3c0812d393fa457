import Mathlib.Algebra.BigOperators.Group.Finset.Basic
import Mathlib.Data.Finset.Option
import Staaash.Library.OrderedSums
import Staaash.Library.SubtreeSums

/-!
# Folders and files

The columns of the `Folder` and `File` tables that the triggers of the migrations `folder_tree_sizes`
and `scoped_folder_totals` read and write, of all owners together, and the full recount. Ids stand for
rows, the parent of a row that is not there is null. The check that a total is not negative is left
out: a recount never is.
-/

namespace Staaash.Folders

open Staaash.Library

structure Folder where
  parentId : Option String
  deletedAt : Option Nat
  isFilesRoot : Bool
  treeSizeBytes : Int
deriving DecidableEq, Repr

structure File where
  folderId : Option String
  deletedAt : Option Nat
  sizeBytes : Nat
deriving DecidableEq, Repr

/-- What a live file counts in its folder. -/
def File.bytesIn (file : File) (folderId : String) : Nat :=
  if file.deletedAt = none && file.folderId = some folderId then file.sizeBytes else 0

structure Tables where
  folders : OrderedMap String Folder
  files : OrderedMap String File
deriving DecidableEq

namespace Tables

variable (s : Tables)

def empty : Tables := ⟨.empty, .empty⟩

def folderIds : Finset String := s.folders.keys.toFinset

def parentOf (id : String) : Option String := (s.folders.get id).bind (·.parentId)

def liveFolderIds : Finset String :=
  s.folderIds.filter fun id => (s.folders.get id).any (·.deletedAt = none)

def treeSizeOf (id : String) : Int := ((s.folders.get id).map (·.treeSizeBytes)).getD 0

/-- The live files that lie in the folder itself. -/
def directBytes (id : String) : Nat := s.files.sum (·.bytesIn id)

/-- The rows of `tree` with a root: the live folders that are reached through live folders. -/
def tree (id : String) : Finset String := subtree s.liveFolderIds s.parentOf id

/-- `COALESCE(totals.bytes, 0)`, where only live folders are roots. -/
def recount (id : String) : Int :=
  if id ∈ s.liveFolderIds then ∑ folderId ∈ s.tree id, (s.directBytes folderId : Int) else 0

/-- The `UPDATE` that stores new totals. -/
def storeTotals (targets : Finset String) (total : String → Int) : Tables :=
  { s with
    folders := s.folders.mapValues fun id folder =>
      if id ∈ targets then { folder with treeSizeBytes := total id } else folder }

/-- `staaash_rebuild_folder_sizes`. -/
def rebuildFolderSizes (targets : Finset String) : Tables := s.storeTotals targets s.recount

/-- The foreign keys: a parent is there, and the folder of a file. -/
def linked : Bool :=
  s.folders.entries.all (fun e => e.2.parentId.all s.folders.has) &&
    s.files.entries.all fun e => e.2.folderId.all s.folders.has

/-! ## The triggers on `File` -/

/-- The way from a folder up through live parents, where `visited` ends with the folder `id`. -/
def climb : Nat → String → List String → List String
  | 0, _, visited => visited
  | rounds + 1, id, visited =>
    match s.parentOf id with
    | none => visited
    | some parentId =>
      if parentId ∈ s.liveFolderIds && parentId ∉ visited then
        climb rounds parentId (visited ++ [parentId])
      else visited

/-- The rows of `ancestors` that a live folder gives rise to. -/
def ancestors (id : String) : List String :=
  if id ∈ s.liveFolderIds then s.climb s.folders.keys.length id [id] else []

/-- `staaash_apply_folder_size_deltas`. -/
def applyFolderSizeDeltas (changed : Finset String) (bytes : String → Int) : Tables :=
  let delta id := ∑ folderId ∈ changed.filter fun folderId => bytes folderId ≠ 0,
    if id ∈ s.ancestors folderId then bytes folderId else 0
  s.storeTotals s.folderIds fun id => s.treeSizeOf id + delta id

end Tables

/-- The folders that the rows of a transition table lie in. -/
def foldersOf (files : OrderedMap String File) : Finset String :=
  (files.entries.filterMap fun e => e.2.folderId).toFinset

namespace Tables

variable (s : Tables)

/-- `staaash_update_file_folder_sizes`; `staaash_add_file_folder_sizes` and
`staaash_remove_file_folder_sizes` are the same without old, and without new rows. -/
def updateFileFolderSizes (oldFiles newFiles : OrderedMap String File) : Tables :=
  s.applyFolderSizeDeltas (foldersOf newFiles ∪ foldersOf oldFiles) fun folderId =>
    (newFiles.sum (·.bytesIn folderId) : Int) - oldFiles.sum (·.bytesIn folderId)

def addFileFolderSizes (newFiles : OrderedMap String File) : Tables :=
  s.updateFileFolderSizes .empty newFiles

def removeFileFolderSizes (oldFiles : OrderedMap String File) : Tables :=
  s.updateFileFolderSizes oldFiles .empty

end Tables

/-! ## The scoped refresh

`staaash_refresh_changed_folder_sizes` and the triggers on `Folder` that call it. Each common table
expression of the function is a definition of its own.
-/

/-- What the function is called with, and the tables it is called on. -/
structure Refresh where
  current : Tables
  beforeNodes : OrderedMap String Folder
  changedIds : Finset String

namespace Refresh

variable (r : Refresh)

/-- The parent that a folder had before, if a row of before is there, and the parent it has. -/
def parents (id : String) : Finset String :=
  ((r.beforeNodes.get id).bind (·.parentId)).toFinset ∪ (r.current.parentOf id).toFinset

/-- `ancestors`. -/
def targets : Finset String :=
  saturate r.parents (r.beforeNodes.keys.length + r.current.folders.keys.length) r.changedIds

/-- The row of before, or else the current one. -/
def snapshot (id : String) : Option Folder :=
  if id ∈ r.targets then (r.beforeNodes.get id).or (r.current.folders.get id) else none

def snapshotParent (id : String) : Option String := (r.snapshot id).bind (·.parentId)

def snapshotBytes (id : String) : Int := ((r.snapshot id).map (·.treeSizeBytes)).getD 0

def snapshotLive : Finset String :=
  r.targets.filter fun id => (r.snapshot id).any (·.deletedAt = none)

def oldReach (id : String) : Finset String := subtree r.snapshotLive r.snapshotParent id

def oldCycles : Finset String :=
  r.snapshotLive.filter fun id => (r.snapshotParent id).any (· ∈ r.oldReach id)

def oldChildren (id : String) : Int :=
  ∑ child ∈ children r.snapshotLive r.snapshotParent id, r.snapshotBytes child

/-- `detached_root`. -/
def needsScan : Bool :=
  r.current.folders.entries.any (fun e =>
    e.1 ∈ r.targets && e.2.parentId = none && !e.2.isFilesRoot && !r.beforeNodes.has e.1) &&
  r.beforeNodes.keys.any fun id => !r.current.folders.has id

def directNodes : Finset String :=
  (r.current.liveFolderIds ∩ r.targets).filter fun id =>
    (r.snapshot id).any (fun before => before.deletedAt ≠ none) || id ∈ r.oldCycles || r.needsScan

def outsideChildren (id : String) : Int :=
  ∑ child ∈ children (r.current.liveFolderIds \ r.targets) r.current.parentOf id,
    r.current.treeSizeOf child

/-- The bytes of a folder apart from its children among the targets. -/
def base (id : String) : Int :=
  if id ∈ r.directNodes then r.current.directBytes id + r.outsideChildren id
  else r.snapshotBytes id - r.oldChildren id

def tree (id : String) : Finset String :=
  subtree (r.current.liveFolderIds ∩ r.targets) r.current.parentOf id

def total (id : String) : Int :=
  if id ∈ r.current.liveFolderIds ∩ r.targets then ∑ folderId ∈ r.tree id, r.base folderId else 0

def run : Tables :=
  if r.changedIds = ∅ then r.current else r.current.storeTotals r.targets r.total

end Refresh

/-- The rows of the transition tables that differ in their parent or deletion time. -/
def changedIds (oldFolders newFolders : OrderedMap String Folder) : Finset String :=
  oldFolders.keys.toFinset.filter fun id =>
    (oldFolders.get id).any fun before => (newFolders.get id).any fun after =>
      before.parentId ≠ after.parentId || before.deletedAt ≠ after.deletedAt

namespace Tables

variable (s : Tables)

/-- `staaash_reparent_folder_sizes`. -/
def reparentFolderSizes (oldFolders newFolders : OrderedMap String Folder) : Tables :=
  Refresh.run ⟨s, oldFolders, changedIds oldFolders newFolders⟩

/-- `staaash_delete_folder_sizes`. -/
def deleteFolderSizes (oldFolders : OrderedMap String Folder) : Tables :=
  Refresh.run ⟨s, oldFolders, oldFolders.keys.toFinset⟩

end Tables

end Staaash.Folders

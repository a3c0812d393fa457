import Staaash.Folders.Tables
import Staaash.Library.Runs

/-!
# Statements on folders and files

A statement changes any rows of one of the two tables, and then its triggers run. The rows to write
are listed with their new values, whatever expressions and conditions the statement got them from. A
statement that breaks a key is refused.
-/

namespace Staaash.Folders

open Staaash.Library

/-- The columns of a folder that a statement writes. -/
structure FolderColumns where
  parentId : Option String
  deletedAt : Option Nat
  isFilesRoot : Bool
deriving DecidableEq, Repr

def Folder.write (folder : Folder) (columns : FolderColumns) : Folder :=
  { columns with treeSizeBytes := folder.treeSizeBytes }

inductive Statement
  | insertFolders (rows : OrderedMap String FolderColumns)
  | updateFolders (rows : OrderedMap String FolderColumns)
  | deleteFolders (ids : Finset String)
  | insertFiles (rows : OrderedMap String File)
  | updateFiles (rows : OrderedMap String File)
  | deleteFiles (ids : Finset String)

namespace Tables

variable (s : Tables)

def insertFolders (rows : OrderedMap String FolderColumns) : Tables :=
  { s with
    folders := s.folders.writeAll (rows.mapValues fun _ columns =>
      { columns with treeSizeBytes := 0 }) }

def updateFolders (rows : OrderedMap String FolderColumns) : Tables :=
  { s with
    folders := s.folders.mapValues fun id folder => ((rows.get id).map folder.write).getD folder }

/-- The folders go, and the foreign keys set null what refers to them. -/
def removeFolders (ids : Finset String) : Tables where
  folders := (s.folders.filterKeys (· ∉ ids)).mapValues fun _ folder =>
    { folder with parentId := folder.parentId.filter (· ∉ ids) }
  files := s.files.mapValues fun _ file => { file with folderId := file.folderId.filter (· ∉ ids) }

/-- The folders that a delete of others sets the parent of to null. -/
def unlinkedIds (ids : Finset String) : Finset String :=
  (s.folderIds \ ids).filter fun id => (s.parentOf id).any (· ∈ ids)

/-- The files that a delete of folders sets the folder of to null. -/
def unlinkedFileIds (ids : Finset String) : Finset String :=
  s.files.keys.toFinset.filter fun id => (s.files.get id).any fun file => file.folderId.any (· ∈ ids)

/-- A delete of folders. The foreign keys act first; the trigger of the delete follows, and the
triggers of the updates that the foreign keys made, with the rows that these found. -/
def deleteFolders (ids : Finset String) : Tables :=
  let removed := s.removeFolders ids
  let deleted := removed.deleteFolderSizes (s.folders.filterKeys (· ∈ ids))
  let unlinked := deleted.reparentFolderSizes (s.folders.filterKeys (· ∈ s.unlinkedIds ids))
    (removed.folders.filterKeys (· ∈ s.unlinkedIds ids))
  unlinked.updateFileFolderSizes (s.files.filterKeys (· ∈ s.unlinkedFileIds ids))
    (removed.files.filterKeys (· ∈ s.unlinkedFileIds ids))

def updateFiles (rows : OrderedMap String File) : Tables :=
  { s with files := s.files.mapValues fun id file => (rows.get id).getD file }

/-- What a statement does, or nothing where it is refused. -/
def act : Statement → Option Tables
  | .insertFolders rows =>
    let inserted := s.insertFolders rows
    if rows.keys.all (fun id => !s.folders.has id) && inserted.linked then some inserted else none
  | .updateFolders rows =>
    let updated := s.updateFolders rows
    if updated.linked then
      some (updated.reparentFolderSizes (s.folders.filterKeys (rows.has ·))
        (updated.folders.filterKeys (rows.has ·)))
    else none
  | .deleteFolders ids => some (s.deleteFolders ids)
  | .insertFiles rows =>
    let inserted := { s with files := s.files.writeAll rows }
    if rows.keys.all (fun id => !s.files.has id) && inserted.linked then
      some (inserted.addFileFolderSizes rows)
    else none
  | .updateFiles rows =>
    let updated := s.updateFiles rows
    if updated.linked then
      some (updated.updateFileFolderSizes (s.files.filterKeys (rows.has ·))
        (updated.files.filterKeys (rows.has ·)))
    else none
  | .deleteFiles ids =>
    some (({ s with files := s.files.filterKeys (· ∉ ids) } : Tables).removeFileFolderSizes
      (s.files.filterKeys (· ∈ ids)))

def step (statement : Statement) : Tables := (s.act statement).getD s

def run (statements : List Statement) : Tables := statements.foldl step s

end Tables

/-! ## Exact totals -/

/-- The totals are those of a recount: a full rebuild changes nothing. -/
def Tables.Exact (s : Tables) : Prop := s.rebuildFolderSizes s.folderIds = s

/-- A delete of folders does not leave a live folder behind that lies between two of them: with its
parent deleted, and a live one deleted below it. -/
def LeavesNothingBetween (s : Tables) : Statement → Prop
  | .deleteFolders ids =>
    ∀ id ∈ s.liveFolderIds ∩ s.unlinkedIds ids, ∀ below ∈ s.tree id, below ∉ ids
  | _ => True

instance (s : Tables) : Decidable s.Exact := inferInstanceAs (Decidable (_ = _))

instance (s : Tables) (statement : Statement) : Decidable (LeavesNothingBetween s statement) := by
  unfold LeavesNothingBetween
  split <;> infer_instance

end Staaash.Folders

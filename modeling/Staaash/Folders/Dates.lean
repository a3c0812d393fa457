import Staaash.Folders.Statements
import Staaash.Library.RowChanges

/-!
# Dates of folders

The triggers of the migration `folder_modified_dates`, which date a folder when something below it changes,
beside the triggers that keep the sizes. The tables are those of the sizes with the columns that dates depend
on. No statement sets `updatedAt` but an insert, as the journal writes them.
-/

namespace Staaash.Folders

open Staaash.Library

structure DatedFolder extends Folder where
  name : String
  color : Option String
  icon : Option String
  /-- In milliseconds, which is what the column holds. -/
  updatedAt : Nat
deriving DecidableEq

structure DatedFile extends File where
  originalName : String
  contentChecksum : Option String
  clientModifiedAt : Option Nat
  mimeType : String
deriving DecidableEq

structure DatedTables where
  folders : OrderedMap String DatedFolder
  files : OrderedMap String DatedFile
deriving DecidableEq

/-- The columns of a folder that a statement writes. -/
structure DatedColumns extends FolderColumns where
  name : String
  color : Option String
  icon : Option String
deriving DecidableEq

/-- A row that is inserted. -/
structure NewFolder extends DatedColumns where
  updatedAt : Nat
deriving DecidableEq

inductive DatedStatement
  | insertFolders (rows : OrderedMap String NewFolder)
  | updateFolders (rows : OrderedMap String DatedColumns)
  | deleteFolders (ids : Finset String)
  | insertFiles (rows : OrderedMap String DatedFile)
  | updateFiles (rows : OrderedMap String DatedFile)
  | deleteFiles (ids : Finset String)

/-- A time in microseconds as a column of type `TIMESTAMP(3)` holds it. -/
def timestamp3 (micros : Nat) : Nat := (micros + 500) / 1000

/-- `GREATEST("updatedAt", timezone('UTC', now()))`, as it is stored. -/
def greatest (updatedAt now : Nat) : Nat := timestamp3 (max (1000 * updatedAt) now)

/-- `staaash_folder_own_date`. It only runs where the statement writes the parent, the name, the color or the
icon, and without these it changes nothing. -/
def folderOwnDate (now : Nat) (old new : DatedFolder) : DatedFolder :=
  if (new.parentId, new.name) ≠ (old.parentId, old.name) then
    { new with updatedAt := greatest old.updatedAt now }
  else { new with updatedAt := old.updatedAt }

def filePlacement : RowPlacement DatedFile String
    ((Option String × String × Option Nat) × Nat × Option String × Option Nat × String) where
  home file := file.folderId
  live file := file.deletedAt = none
  columns file := ((file.folderId, file.originalName, file.deletedAt), file.sizeBytes, file.contentChecksum,
    file.clientModifiedAt, file.mimeType)

def folderPlacement : RowPlacement DatedFolder String (Option String × String × Option Nat) where
  home folder := folder.parentId
  live folder := folder.deletedAt = none
  columns folder := (folder.parentId, folder.name, folder.deletedAt)

def DatedFolder.write (folder : DatedFolder) (columns : DatedColumns) : DatedFolder :=
  { columns with treeSizeBytes := folder.treeSizeBytes, updatedAt := folder.updatedAt }

def NewFolder.folder (new : NewFolder) : DatedFolder := { new with treeSizeBytes := 0 }

namespace DatedStatement

/-- The statement as the sizes see it. -/
def forSizes : DatedStatement → Statement
  | .insertFolders rows => .insertFolders (rows.mapValues fun _ row => row.toFolderColumns)
  | .updateFolders rows => .updateFolders (rows.mapValues fun _ row => row.toFolderColumns)
  | .deleteFolders ids => .deleteFolders ids
  | .insertFiles rows => .insertFiles (rows.mapValues fun _ row => row.toFile)
  | .updateFiles rows => .updateFiles (rows.mapValues fun _ row => row.toFile)
  | .deleteFiles ids => .deleteFiles ids

end DatedStatement

namespace DatedTables

variable (s : DatedTables)

/-- The tables as the sizes see them. -/
def tables : Tables where
  folders := s.folders.mapValues fun _ folder => folder.toFolder
  files := s.files.mapValues fun _ file => file.toFile

/-- `staaash_touch_folder_ancestors`. Its update changes nothing but dates, so the trigger on it finds nothing
to do. -/
def touchFolderAncestors (folderIds : Finset String) (now : Nat) : DatedTables :=
  { s with
    folders := s.folders.mapValues fun id folder =>
      if ∃ folderId ∈ folderIds, id ∈ s.tables.ancestors folderId then
        { folder with updatedAt := greatest folder.updatedAt now }
      else folder }

/-- `staaash_touch_file_folders`. -/
def touchFileFolders (transition : Transition String DatedFile) (now : Nat) : DatedTables :=
  s.touchFolderAncestors (filePlacement.touched transition) now

/-- `staaash_touch_parent_folders`. -/
def touchParentFolders (transition : Transition String DatedFolder) (now : Nat) : DatedTables :=
  s.touchFolderAncestors (folderPlacement.touched transition) now

/-! ## Statements -/

def insertFolders (rows : OrderedMap String NewFolder) (now : Nat) : DatedTables :=
  let newFolders := rows.mapValues fun _ row => row.folder
  let inserted : DatedTables := { s with folders := s.folders.writeAll newFolders }
  inserted.touchParentFolders (.insert newFolders) now

/-- The rows of an update, each dated by itself. -/
def writeFolders (rows : OrderedMap String DatedColumns) (now : Nat) : DatedTables :=
  { s with
    folders := s.folders.mapValues fun id folder =>
      ((rows.get id).map fun columns => folderOwnDate now folder (folder.write columns)).getD folder }

def updateFolders (rows : OrderedMap String DatedColumns) (now : Nat) : DatedTables :=
  let updated := s.writeFolders rows now
  updated.touchParentFolders
    (.update (s.folders.filterKeys (rows.has ·)) (updated.folders.filterKeys (rows.has ·))) now

/-- The folders go, and the foreign keys set null what refers to them, which is an update of these rows. -/
def removeFolders (ids : Finset String) (now : Nat) : DatedTables where
  folders := (s.folders.filterKeys (· ∉ ids)).mapValues fun _ folder =>
    folderOwnDate now folder { folder with parentId := folder.parentId.filter (· ∉ ids) }
  files := s.files.mapValues fun _ file => { file with folderId := file.folderId.filter (· ∉ ids) }

def deleteFolders (ids : Finset String) (now : Nat) : DatedTables :=
  let removed := s.removeFolders ids now
  let unlinkedIds := s.tables.unlinkedIds ids
  let unlinkedFileIds := s.tables.unlinkedFileIds ids
  let deleted := removed.touchParentFolders (.delete (s.folders.filterKeys (· ∈ ids))) now
  let unlinked := deleted.touchParentFolders
    (.update (s.folders.filterKeys (· ∈ unlinkedIds)) (removed.folders.filterKeys (· ∈ unlinkedIds))) now
  unlinked.touchFileFolders
    (.update (s.files.filterKeys (· ∈ unlinkedFileIds)) (removed.files.filterKeys (· ∈ unlinkedFileIds))) now

def insertFiles (rows : OrderedMap String DatedFile) (now : Nat) : DatedTables :=
  let inserted : DatedTables := { s with files := s.files.writeAll rows }
  inserted.touchFileFolders (.insert rows) now

def updateFiles (rows : OrderedMap String DatedFile) (now : Nat) : DatedTables :=
  let updated : DatedTables := { s with files := s.files.mapValues fun id file => (rows.get id).getD file }
  updated.touchFileFolders
    (.update (s.files.filterKeys (rows.has ·)) (updated.files.filterKeys (rows.has ·))) now

def deleteFiles (ids : Finset String) (now : Nat) : DatedTables :=
  let removed : DatedTables := { s with files := s.files.filterKeys (· ∉ ids) }
  removed.touchFileFolders (.delete (s.files.filterKeys (· ∈ ids))) now

/-- What a statement and the triggers for the dates do. -/
def dated (now : Nat) : DatedStatement → DatedTables
  | .insertFolders rows => s.insertFolders rows now
  | .updateFolders rows => s.updateFolders rows now
  | .deleteFolders ids => s.deleteFolders ids now
  | .insertFiles rows => s.insertFiles rows now
  | .updateFiles rows => s.updateFiles rows now
  | .deleteFiles ids => s.deleteFiles ids now

/-- The updates of the triggers for the sizes, which store other totals and nothing else. -/
def storeSizes (sized : Tables) : DatedTables :=
  { s with folders := s.folders.mapValues fun id folder => { folder with treeSizeBytes := sized.treeSizeOf id } }

/-- What a statement does at its transaction's time, or nothing where it is refused. -/
def act (now : Nat) (statement : DatedStatement) : Option DatedTables :=
  (s.tables.act statement.forSizes).map (s.dated now statement).storeSizes

end DatedTables

/-- A statement and its transaction's time, in microseconds. -/
structure Execution where
  statement : DatedStatement
  now : Nat

namespace DatedTables

def step (s : DatedTables) (execution : Execution) : DatedTables :=
  (s.act execution.now execution.statement).getD s

/-! ## Dates that follow the contents -/

/-- A live item of the folder is gone, or not the same. -/
def Altered (s s' : DatedTables) (folderId : String) : Prop :=
  folderPlacement.Altered s.folders s'.folders folderId ∨ filePlacement.Altered s.files s'.files folderId

/-- Below the folder, through live folders before or after, a live item has come, gone or changed. -/
def ContentsChanged (s s' : DatedTables) (id : String) : Prop :=
  (∃ folderId ∈ s.tables.tree id, s.Altered s' folderId) ∨ ∃ folderId ∈ s'.tables.tree id, s'.Altered s folderId

/-- The dates after a statement, where `reaches` says which dates are as late as its time. -/
structure FollowsContents (reaches : Nat → Nat → Prop) (s s' : DatedTables) (now : Nat) : Prop where
  grows : ∀ id folder folder', s.folders.get id = some folder → s'.folders.get id = some folder' →
    folder.updatedAt ≤ folder'.updatedAt
  dates : ∀ id folder', s'.folders.get id = some folder' → folder'.deletedAt = none →
    s.ContentsChanged s' id → reaches folder'.updatedAt now
  keeps : ∀ id folder folder', s.folders.get id = some folder → s'.folders.get id = some folder' →
    (folder'.parentId, folder'.name) = (folder.parentId, folder.name) →
    ¬ (folder'.deletedAt = none ∧ s.ContentsChanged s' id) → folder'.updatedAt = folder.updatedAt

/-- The date is as late as the time, to the nearest millisecond. -/
def Reaches (date now : Nat) : Prop := timestamp3 now ≤ date

end DatedTables

end Staaash.Folders

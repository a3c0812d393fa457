import Staaash.Journal.Executor
import Staaash.Layout.Keys
import Staaash.Library.Saturation
import Staaash.Library.Visits

/-!
# What goes into an archive

`archive-selection.ts` and `buildArchiveFolderSegments`: the folders and files that a list of ids names, the
path of each in the archive, and the key of the contents. Sets are lists in the order of insertion.
-/

namespace Staaash.Archives

open Staaash.Layout (posixJoin)
open Staaash.Library

/-! ## Rows -/

/-- An id is never empty, so a row has a parent where `parentId` is not null. -/
structure FolderRecord where
  id : String
  ownerUserId : String
  parentId : Option String
  name : String
  deletedAt : Option Nat
deriving DecidableEq, Repr

inductive FileStorageStatus
  | available
  | missing
deriving DecidableEq, Repr

structure StoredFileRecord where
  id : String
  ownerUserId : String
  folderId : Option String
  originalName : String
  sizeBytes : Nat
  contentChecksum : Option String
  storageStatus : FileStorageStatus
  storageKey : String
  deletedAt : Option Nat
  storageRevision : Nat
deriving DecidableEq, Repr

/-- The tables. -/
structure Rows where
  folders : List FolderRecord
  files : List StoredFileRecord
deriving DecidableEq, Repr

/-! ## The folder index -/

abbrev FolderMap := OrderedMap String FolderRecord

/-- `id` and its parents up to the root, which is left out, in at most so many rounds. -/
def segmentsFrom (folderMap : FolderMap) (rootFolderId : String) : Nat → FolderRecord → List String
  | 0, _ => []
  | rounds + 1, current =>
    if current.id = rootFolderId then []
    else ((current.parentId.bind folderMap.get).map (segmentsFrom folderMap rootFolderId rounds)).getD [] ++
      [current.name]

/-- The loop goes on while there is a parent; it meets no folder twice on the way to a root above. -/
def buildArchiveFolderSegments (folder : FolderRecord) (folderMap : FolderMap) (rootFolderId : String) :
    List String :=
  segmentsFrom folderMap rootFolderId folderMap.keys.length folder

def addChild (childrenByParentId : OrderedMap String (List FolderRecord)) (folder : FolderRecord) :
    OrderedMap String (List FolderRecord) :=
  match folder.parentId with
  | none => childrenByParentId
  | some parentId =>
    childrenByParentId.set parentId ((childrenByParentId.get parentId).getD [] ++ [folder])

def childIds (childrenByParentId : OrderedMap String (List FolderRecord)) (id : String) : List String :=
  ((childrenByParentId.get id).getD []).map (·.id)

def collectDescendantFolderIds (rounds : Nat) (rootId : String)
    (childrenByParentId : OrderedMap String (List FolderRecord)) : List String :=
  visits (childIds childrenByParentId) rounds [rootId] []

structure ArchiveFolderIndex where
  folderMap : FolderMap
  descendantsByRootId : OrderedMap String (List String)
  allDescendantFolderIds : List String

/-- A folder and the one that is asked for make more rounds than folders. -/
def buildArchiveFolderIndex (allFolders : List FolderRecord) (folderIds : List String) : ArchiveFolderIndex :=
  let childrenByParentId := allFolders.foldl addChild .empty
  let descendants (folderId : String) :=
    collectDescendantFolderIds (allFolders.length + 1) folderId childrenByParentId
  { folderMap := .ofList (allFolders.map fun f => (f.id, f))
    descendantsByRootId := .ofList (folderIds.map fun folderId => (folderId, descendants folderId))
    allDescendantFolderIds := (folderIds.flatMap descendants).foldl insertLast [] }

/-! ## Paths -/

/-- The path of a folder below the root that it is placed under. -/
def folderPath (folderMap : FolderMap) (root folder : FolderRecord) : List String :=
  root.name :: buildArchiveFolderSegments folder folderMap root.id

/-- Overlapping selections keep the first requested root as the file's path. -/
def buildFileArchivePath (file : StoredFileRecord) (folderMap : FolderMap)
    (descendantsByRootId : OrderedMap String (List String)) : String :=
  match file.folderId.bind folderMap.get with
  | none => file.originalName
  | some parentFolder =>
    match descendantsByRootId.entries.find? fun (_, descendants) => descendants.contains parentFolder.id with
    | none => file.originalName
    | some (rootFolderId, _) =>
      match folderMap.get rootFolderId with
      | none => file.originalName
      | some rootFolder => posixJoin (folderPath folderMap rootFolder parentFolder ++ [file.originalName])

structure ArchiveEntry where
  file : StoredFileRecord
  archivePath : String
deriving DecidableEq, Repr

/-- The path ends with a slash. -/
def directoryPath (folderMap : FolderMap) (root folder : FolderRecord) : String :=
  posixJoin (folderPath folderMap root folder) ++ "/"

structure Placing where
  placed : List String
  directories : List String

def Placing.place (folderMap : FolderMap) (placing : Placing) (rootId id : String) : Placing :=
  if id ∈ placing.placed then placing
  else
    { placed := placing.placed ++ [id]
      directories := placing.directories ++
        ((folderMap.get rootId).bind fun root =>
          (folderMap.get id).map (directoryPath folderMap root)).toList }

def listDirectories (index : ArchiveFolderIndex) (folderIds : List String) : List String :=
  let placeRoot (placing : Placing) (rootId : String) : Placing :=
    ((index.descendantsByRootId.get rootId).getD []).foldl
      (fun placing id => placing.place index.folderMap rootId id) placing
  (folderIds.foldl placeRoot ⟨[], []⟩).directories

/-! ## Selections -/

structure ArchiveSelectionUnavailableError where
  code : String := "FILE_NOT_FOUND"
  status : Nat := 404
  message : String := "An archive source is missing or unavailable."
deriving DecidableEq, Repr

/-- What the key is the digest of. -/
structure ArchiveContents where
  userId : String
  fileName : String
  fileIds : List String
  folderIds : List String
  directories : List String
  /-- The path, the id, the size, and the checksum or else the revision. -/
  entries : List (String × String × String × String)
deriving DecidableEq, Repr

/-- `localeCompare` of the host, and `sha256` of the JSON text as hexadecimal digits. -/
structure Runtime where
  localeCompare : String → String → Ordering
  sha256 : ArchiveContents → String

structure ArchiveSelection where
  contentKey : String
  fileName : String
  entries : List ArchiveEntry
  directories : List String
  filesToZip : List StoredFileRecord
  allFolders : List FolderRecord
deriving DecidableEq, Repr

/-- `sort` without a comparison. -/
def sortStrings (strings : List String) : List String :=
  strings.mergeSort fun a b => Journal.textLe a.toList b.toList

def getFileName (fileIds folderIds : List String) (folderMap : FolderMap)
    (filesById : OrderedMap String StoredFileRecord) : String :=
  match folderIds, fileIds with
  | [folderId], [] => ((folderMap.get folderId).map (·.name)).getD "" ++ ".zip"
  | [], [fileId] => ((filesById.get fileId).map (·.originalName)).getD "" ++ ".zip"
  | _, _ => "staaash-files.zip"

def ArchiveEntry.describe (entry : ArchiveEntry) : String × String × String × String :=
  (entry.archivePath, entry.file.id, toString entry.file.sizeBytes,
    entry.file.contentChecksum.getD s!"revision:{entry.file.storageRevision}")

variable (rt : Runtime)

/-- `a` may stand before `b` in the list of entries. -/
def entryLe (a b : ArchiveEntry) : Bool :=
  ((rt.localeCompare a.archivePath b.archivePath).then (rt.localeCompare a.file.id b.file.id)) ≠ .gt

def describeArchiveSelection (userId : String) (fileIds folderIds : List String)
    (allFolders : List FolderRecord) (filesToZip : List StoredFileRecord) :
    Except ArchiveSelectionUnavailableError ArchiveSelection :=
  let index := buildArchiveFolderIndex allFolders folderIds
  let filesById : OrderedMap String StoredFileRecord := .ofList (filesToZip.map fun file => (file.id, file))
  if fileIds.any (fun id => !filesById.has id) || folderIds.any (fun id => !index.folderMap.has id) ||
      filesToZip.any fun file =>
        file.deletedAt.isSome || file.storageStatus ≠ .available || file.ownerUserId ≠ userId then
    .error {}
  else
    let fileName := getFileName fileIds folderIds index.folderMap filesById
    let toEntry (file : StoredFileRecord) : ArchiveEntry :=
      { file
        archivePath :=
          if file.folderId.any index.allDescendantFolderIds.contains then
            buildFileArchivePath file index.folderMap index.descendantsByRootId
          else file.originalName }
    let entries := (filesToZip.map toEntry).mergeSort (entryLe rt)
    let directories := sortStrings (listDirectories index folderIds)
    .ok
      { contentKey := "v2:" ++ rt.sha256
          { userId, fileName, directories
            fileIds := sortStrings fileIds
            folderIds := sortStrings folderIds
            entries := entries.map ArchiveEntry.describe }
        fileName, entries, directories, filesToZip
        allFolders := allFolders.filter fun folder => index.allDescendantFolderIds.contains folder.id }

/-! ## Reading a selection -/

def Rows.readChildIds (rows : Rows) (ownerUserId id : String) : Finset String :=
  ((rows.folders.filter fun child =>
    child.ownerUserId = ownerUserId && child.deletedAt.isNone && child.parentId = some id).map (·.id)).toFinset

/-- Without deleted folders. -/
def Rows.readFolderSubtreeIds (rows : Rows) (ownerUserId : String) (folderIds : List String) : Finset String :=
  saturate (rows.readChildIds ownerUserId) rows.folders.length
    ((rows.folders.filter fun folder =>
      folder.id ∈ folderIds && folder.ownerUserId = ownerUserId && folder.deletedAt.isNone).map (·.id)).toFinset

/-- One transaction, which reads one state of the tables. -/
def readArchiveSelection (rows : Rows) (userId : String) (fileIds folderIds : List String) :
    Except ArchiveSelectionUnavailableError ArchiveSelection :=
  let subtree := if folderIds = [] then ∅ else rows.readFolderSubtreeIds userId folderIds
  let allFolders := rows.folders.filter fun folder => folder.id ∈ subtree
  let files := rows.files.filter fun file =>
    file.ownerUserId = userId && file.deletedAt.isNone &&
      (file.id ∈ fileIds || file.folderId.any (· ∈ subtree))
  describeArchiveSelection rt userId fileIds folderIds allFolders files

end Staaash.Archives

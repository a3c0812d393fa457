import Staaash.Library.Ascent
import Staaash.Service.Admission

/-!
# The files behind a link

What a visitor's request reads of everyone's files: the rows of each owner, the columns that the owner's
tree has no use for, the derivatives, and the mutations that keep an item from being read. Lists come in
the order of the tables.
-/

namespace Staaash.Sharing

open Staaash.Library
open Staaash.Planner (ItemType)
open Staaash.Service (Item)

/-! ## Rows -/

structure FileColumns where
  mimeType : String
  sizeBytes : Nat
  /-- `storageStatus` is `available`. -/
  available : Bool
  updatedAt : Nat
deriving DecidableEq, Repr

/-- `StoredFile`. -/
structure File where
  id : String
  ownerUserId : String
  item : Item
  columns : FileColumns
deriving DecidableEq, Repr

/-- `FolderSummary`. -/
structure Folder where
  id : String
  ownerUserId : String
  item : Item
  updatedAt : Nat
deriving DecidableEq, Repr

inductive DerivativeKind
  | preview
  | poster
  | thumbnail
deriving DecidableEq, Repr

/-- A derivative that is ready. -/
structure Derivative where
  id : String
  mimeType : Option String
  storageKey : Option String
  sizeBytes : Option Nat
  width : Option Nat
  height : Option Nat
deriving DecidableEq, Repr

/-- The mutation that keeps something from being read. -/
structure StorageMutationState where
  id : String
  status : Journal.Status
deriving DecidableEq, Repr

/-- What is recorded beside the trees. -/
structure Records where
  columns : String → FileColumns
  folderUpdatedAt : String → Nat
  findReadyDerivative : String → DerivativeKind → Option Derivative
  /-- The mutation that blocks a derivative. -/
  derivativeState : String → Option StorageMutationState
  /-- The `legacy_recovery` mutations that need recovery, of one owner or of all. -/
  legacyRecovery : List (Option String × String)
  /-- The storage key of a derivative names a file. -/
  isReadableDerivativeFile : String → Bool
  getFolderSizeBytes : String → Nat

structure Files where
  owners : OrderedMap String Service.World
  records : Records

namespace Files

variable (fs : Files)

/-! ## Queries -/

def database (ownerUserId : String) : Option Service.Database :=
  (fs.owners.get ownerUserId).map (·.db)

def toFile (ownerUserId id : String) (item : Item) : File := ⟨id, ownerUserId, item, fs.records.columns id⟩

def toFolder (ownerUserId id : String) (item : Item) : Folder :=
  ⟨id, ownerUserId, item, fs.records.folderUpdatedAt id⟩

def folderOf (ownerUserId id : String) : Option Folder :=
  (fs.database ownerUserId).bind fun db => (db.folder id).map (fs.toFolder ownerUserId id)

def fileOf (ownerUserId id : String) : Option File :=
  (fs.database ownerUserId).bind fun db => (db.file id).map (fs.toFile ownerUserId id)

/-- The rows of one type and one owner. -/
def itemsOf (ownerUserId : String) (type : ItemType) : List (String × Item) :=
  ((fs.database ownerUserId).map fun db => db.items.entries.filter (·.2.type = type)).getD []

def foldersOf (ownerUserId : String) : List Folder :=
  (fs.itemsOf ownerUserId .folder).map fun (id, item) => fs.toFolder ownerUserId id item

def filesOf (ownerUserId : String) : List File :=
  (fs.itemsOf ownerUserId .file).map fun (id, item) => fs.toFile ownerUserId id item

def findFolderById (id : String) : Option Folder := fs.owners.keys.findSome? fun owner => fs.folderOf owner id

/-- Without `includeMissing`. -/
def findFileById (id : String) : Option File :=
  fs.owners.keys.findSome? fun owner => (fs.fileOf owner id).filter (·.columns.available)

/-- The id of the owner's files root. -/
def findFilesRoot (ownerUserId : String) : Option String := (fs.database ownerUserId).map (·.filesRoot)

/-- The folder above, of the same owner. -/
def parent (folder : Folder) : Option Folder := folder.item.parentId.bind (fs.folderOf folder.ownerUserId)

/-- A folder with all above it: more rounds than there are folders. -/
def above (folder : Folder) : List Folder :=
  ascent Folder.id fs.parent (fs.foldersOf folder.ownerUserId).length [] folder

/-- `readFolderAncestorIds`, and then `findFoldersByIds`. -/
def listFolderAncestors (ownerUserId : String) (folderIds : List String) : List Folder :=
  let ids := (folderIds.filterMap (fs.folderOf ownerUserId)).flatMap fun folder => (fs.above folder).map Folder.id
  (fs.foldersOf ownerUserId).filter fun folder => ids.contains folder.id

/-- `readFolderSubtreeIds` over live folders, and then `findFoldersByIds`. -/
def listFolderSubtree (ownerUserId : String) (folderId : String) : List Folder :=
  (fs.foldersOf ownerUserId).filter fun folder => folder.item.live &&
    (folder.id = folderId || (fs.folderOf ownerUserId folderId).any (·.item.live) &&
      (fs.database ownerUserId).any fun db => db.isBelow false folderId db.depth folder.id)

def listFilesInFolders (ownerUserId : String) (folderIds : List String) : List File :=
  (fs.filesOf ownerUserId).filter fun file => file.item.live && file.item.parentId.any folderIds.contains

def listChildFolders (ownerUserId parentId : String) : List Folder :=
  (fs.foldersOf ownerUserId).filter fun folder => folder.item.live && folder.item.parentId = some parentId

/-- With `includeMissing`. -/
def listChildFiles (ownerUserId folderId : String) : List File :=
  (fs.filesOf ownerUserId).filter fun file => file.item.live && file.item.parentId = some folderId

/-! ## What may be read -/

/-- A mutation with the entity, whose status blocks. -/
def blockedBy (id : String) (mutations : OrderedMap String Service.Mutation) : Option StorageMutationState :=
  (mutations.entries.find? fun (_, m) =>
    m.status ∈ [.prepared, .running, .retrying, .metadataCommitted, .finalizing, .recoveryRequired] &&
      (m.plan.entities.map Prod.fst).contains id).map fun (mutationId, m) => ⟨mutationId, m.status⟩

def directState (id : String) : Option StorageMutationState :=
  fs.owners.entries.findSome? fun (_, s) => blockedBy id s.mutations

/-- Of the file's or the folder's owner, or of all owners. -/
def legacyState (id : String) : Option StorageMutationState :=
  (fs.owners.entries.find? fun (_, s) => s.db.items.has id).bind fun (owner, _) =>
    (fs.records.legacyRecovery.find? fun (owner', _) => owner'.all (· = owner)).map fun (_, mutationId) =>
      ⟨mutationId, .recoveryRequired⟩

/-- `findBlockingStorageMutationForEntity` of a file or a folder. -/
def state (id : String) : Option StorageMutationState := (fs.directState id).or (fs.legacyState id)

/-- The first value of `getStorageMutationStateMap`. -/
def firstState (ids : List String) : Option StorageMutationState :=
  (ids.findSome? fs.directState).or (ids.findSome? fs.legacyState)

end Files

/-! ## Walks over the folders that a request has read -/

abbrev FolderMap := OrderedMap String Folder

def buildFolderMap (folders : List Folder) : FolderMap :=
  .ofList (folders.map fun folder => (folder.id, folder))

/-- What a loop over `parentId` visits. The folder that it starts from may not be in the map. -/
def FolderMap.above (folderMap : FolderMap) (folder : Folder) : List Folder :=
  ascent Folder.id (fun folder => folder.item.parentId.bind folderMap.get) (folderMap.entries.length + 1) []
    folder

def isFolderDeletedInTree (folder : Folder) (folderMap : FolderMap) : Bool :=
  (folderMap.above folder).any fun folder => !folder.item.live

def isFileDeletedInTree (file : File) (folderMap : FolderMap) : Bool :=
  !file.item.live ||
    (file.item.parentId.bind folderMap.get).any fun folder => isFolderDeletedInTree folder folderMap

def isFolderWithinRoot (folderId rootFolderId : String) (folderMap : FolderMap) : Bool :=
  (folderMap.get folderId).any fun folder => (folderMap.above folder).any (·.id = rootFolderId)

end Staaash.Sharing

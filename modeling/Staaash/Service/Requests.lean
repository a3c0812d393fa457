import Staaash.Service.Intents

/-!
# Requests

What the methods of `service.ts` plan from the rows they read. The ids that they make up come with the
request, and so does the time.
-/

namespace Staaash.Service

open Staaash.Library (OrderedMap)
open Staaash.Planner (ItemType)

/-- The codes of a `FilesError`, a `RevisionConflictError` or what a broken trash entry throws. -/
inductive ServiceError
  | fileAlreadyActive
  | fileDeleteRequiresTrash
  | fileMoveNoop
  | fileNameConflict
  | fileNotFound
  | folderAlreadyActive
  | folderMoveCycle
  | folderMoveNoop
  | folderNameConflict
  | folderNotFound
  | folderRootImmutable
  | revisionMismatch
  | trashIdentityRequiresRecovery
deriving DecidableEq, Repr

abbrev Planned := Except ServiceError Plan

/-- What `conflictStrategy` asks for. A safe rename is an upload with a name that is free. -/
inductive ConflictStrategy
  | fail
  | replace (ifRevision : Option Nat) (ifFileId : Option String)
deriving DecidableEq, Repr

namespace Database

variable (db : Database)

/-! ## Guards -/

def getOwnedFolder (folderId : String) : Except ServiceError Item :=
  match db.folder folderId with
  | none => .error .folderNotFound
  | some folder => .ok folder

def getActiveOwnedFolder (folderId : String) : Except ServiceError Item := do
  let folder ← db.getOwnedFolder folderId
  if folder.live then .ok folder else .error .folderNotFound

def getOwnedFile (fileId : String) : Except ServiceError Item :=
  match db.file fileId with
  | none => .error .fileNotFound
  | some file => .ok file

def getActiveOwnedFile (fileId : String) : Except ServiceError Item := do
  let file ← db.getOwnedFile fileId
  if file.live then .ok file else .error .fileNotFound

/-- A destination, the files root where none is given. -/
def getDestination (folderId : Option String) : Except ServiceError (String × Item) := do
  let id := folderId.getD db.filesRoot
  let folder ← db.getActiveOwnedFolder id
  .ok (id, folder)

def assertRevision (item : Item) (ifRevision : Option Nat) : Except ServiceError Unit :=
  if ifRevision.all (item.storageRevision = ·) then .ok () else .error .revisionMismatch

def assertMutableFolder (folderId : String) : Except ServiceError Unit :=
  if folderId = db.filesRoot then .error .folderRootImmutable else .ok ()

def assertNoNameConflict (error : ServiceError) (parentId : Option String) (name : String)
    (exclude : Option String) : Except ServiceError Unit :=
  if (db.findActiveNameConflict parentId name exclude).isSome then .error error else .ok ()

def assertNoFolderNameConflict := db.assertNoNameConflict .folderNameConflict

def assertNoFileNameConflict := db.assertNoNameConflict .fileNameConflict

/-! ## Creating -/

def createFolder (id : String) (parentId : Option String) (name : String) : Planned := do
  let (parentId, _) ← db.getDestination parentId
  db.assertNoFolderNameConflict (some parentId) name none
  .ok {
    changes := [.create id
      { type := .folder
        parentId := some parentId
        name
        deletedAt := none
        trashEntryId := none
        storageKey := none
        contentChecksum := none
        storageRevision := 0 }]
    guardEntities := []
    createdTrashEntry := none
    deletedTrashEntry := none
    steps := [⟨none, some (db.buildFolderStorageKey (some parentId) name)⟩] }

def uploadCreate (id : String) (folderId : String) (name : String) (checksum : String) : Plan :=
  let storageKey := db.buildFileStorageKey (some folderId) name
  { changes := [.create id
      { type := .file
        parentId := some folderId
        name
        deletedAt := none
        trashEntryId := none
        storageKey := some storageKey
        contentChecksum := some checksum
        storageRevision := 0 }]
    guardEntities := []
    createdTrashEntry := none
    deletedTrashEntry := none
    steps := [renameStep ⟨.tmp id, [name]⟩ storageKey] }

/-- The steps that bring new bytes to a key and the old ones out of the way. -/
def uploadReplaceSteps (operationId : String) (name : String) (storageKey : StorageKey) : List Step :=
  let staged : StorageKey := ⟨.tmp operationId, ["staged", name]⟩
  let incoming : StorageKey := ⟨.tmp operationId, ["incoming", name]⟩
  let backup : StorageKey := ⟨.tmp operationId, ["backup", name]⟩
  [renameStep staged incoming, renameStep storageKey backup, renameStep incoming storageKey,
    ⟨none, some backup⟩]

def uploadReplace (operationId : String) (folderId : String) (existingId : String) (existing : Item)
    (checksum : String) : Plan where
  changes := [.update existingId existing.storageRevision
    { ItemData.unchanged with
      parentId := some (some folderId)
      deletedAt := some none
      contentChecksum := some checksum }]
  guardEntities := []
  createdTrashEntry := none
  deletedTrashEntry := none
  steps := (existing.storageKey.map (uploadReplaceSteps operationId existing.name)).getD []

/-- An upload of one file. A conflict that is not resolved is only reported. -/
def uploadFile (id : String) (folderId : String) (name : String) (checksum : String)
    (strategy : ConflictStrategy) : Planned := do
  let _ ← db.getActiveOwnedFolder folderId
  match db.findActiveNameConflict (some folderId) name none, strategy with
  | none, _ => .ok (db.uploadCreate id folderId name checksum)
  | some (existingId, existing), .replace ifRevision ifFileId =>
    if existing.type = .file then
      assertRevision existing ifRevision
      if ifFileId.all (existingId = ·) then
        .ok (uploadReplace id folderId existingId existing checksum)
      else .error .revisionMismatch
    else .error .fileNameConflict
  | some _, .fail => .error .fileNameConflict

/-! ## One file -/

/-- `durablyUpdateFile`. -/
def durablyUpdateFile (fileId : String) (file : Item) (toStorageKey : StorageKey) (data : ItemData)
    (guardEntities : List (String × Nat)) (trashEntry : Option (String × TrashEntry))
    (deleteTrashEntryId : Option String) : Plan where
  changes := [.update fileId file.storageRevision { data with storageKey := some toStorageKey }]
  guardEntities
  createdTrashEntry := trashEntry
  deletedTrashEntry := deleteTrashEntryId
  steps :=
    match file.storageKey with
    | none => []
    | some storageKey => if storageKey = toStorageKey then [] else [renameStep storageKey toStorageKey]

def renameFile (fileId : String) (name : String) (ifRevision : Option Nat) : Planned := do
  let file ← db.getActiveOwnedFile fileId
  assertRevision file ifRevision
  let parentId := file.parentId.getD db.filesRoot
  db.assertNoFileNameConflict (some parentId) name (some fileId)
  .ok (durablyUpdateFile fileId file (db.buildFileStorageKey file.parentId name)
    { ItemData.unchanged with name := some name } [] none none)

def moveFile (fileId : String) (destinationFolderId : Option String) (ifRevision : Option Nat) :
    Planned := do
  let file ← db.getActiveOwnedFile fileId
  assertRevision file ifRevision
  let (destinationId, destination) ← db.getDestination destinationFolderId
  if some destinationId = file.parentId then .error .fileMoveNoop
  db.assertNoFileNameConflict (some destinationId) file.name (some fileId)
  .ok (durablyUpdateFile fileId file (db.buildFileStorageKey (some destinationId) file.name)
    { ItemData.unchanged with parentId := some (some destinationId) }
    [(destinationId, destination.storageRevision)] none none)

def trashFile (fileId : String) (ifRevision : Option Nat) (trashEntryId : String) (now : Nat) :
    Planned := do
  let file ← db.getActiveOwnedFile fileId
  assertRevision file ifRevision
  let storageKey : StorageKey := ⟨.trash .file file.name now trashEntryId, []⟩
  .ok (durablyUpdateFile fileId file storageKey
    { ItemData.unchanged with deletedAt := some (some now), trashEntryId := some (some trashEntryId) } []
    (some (trashEntryId, ⟨.file, fileId, now, storageKey⟩)) none)

def restoreFile (fileId : String) : Planned := do
  let file ← db.getOwnedFile fileId
  if file.live then .error .fileAlreadyActive
  let folderId := db.getRestoreLocation file.parentId
  db.assertNoFileNameConflict (some folderId) file.name (some fileId)
  .ok (durablyUpdateFile fileId file (db.buildFileStorageKey (some folderId) file.name)
    { ItemData.unchanged with
      parentId := some (some folderId), deletedAt := some none, trashEntryId := some none }
    [] none file.trashEntryId)

def deleteFile (fileId : String) (operationId : String) : Planned := do
  let file ← db.getOwnedFile fileId
  if file.live then .error .fileDeleteRequiresTrash
  let quarantineKey : StorageKey := ⟨.tmp operationId, [file.name]⟩
  .ok {
    changes := [.delete fileId file.storageRevision]
    guardEntities := []
    createdTrashEntry := none
    deletedTrashEntry := file.trashEntryId
    steps := file.storageKey.toList.map (renameStep · quarantineKey) ++ [⟨none, some quarantineKey⟩] }

/-- `keepMine`: the original takes the copy's bytes and its own old bytes go to the trash as the
copy. -/
def keepMine (fileId conflictCopyId : String) (ifRevision : Nat) (trashEntryId : String) (now : Nat) :
    Planned := do
  let original ← db.getActiveOwnedFile fileId
  let copy ← db.getActiveOwnedFile conflictCopyId
  assertRevision original (some ifRevision)
  if conflictCopyId = fileId then .error .fileNotFound
  let trashKey : StorageKey := ⟨.trash .file original.name now trashEntryId, []⟩
  .ok {
    changes :=
      [.update conflictCopyId copy.storageRevision
        { parentId := some original.parentId
          name := some original.name
          deletedAt := some (some now)
          trashEntryId := some (some trashEntryId)
          storageKey := some trashKey
          contentChecksum := original.contentChecksum },
        .update fileId original.storageRevision
          { ItemData.unchanged with contentChecksum := copy.contentChecksum }]
    guardEntities := []
    createdTrashEntry := some (trashEntryId, ⟨.file, conflictCopyId, now, trashKey⟩)
    deletedTrashEntry := none
    steps := (original.storageKey.map fun originalKey =>
      renameStep originalKey trashKey :: copy.storageKey.toList.map (renameStep · originalKey)).getD [] }

/-! ## A folder with what is below it -/

/-- `durablyUpdateFolderTree`: one update for each folder and each file. -/
def durablyUpdateFolderTree (source target : StorageKey) (folderUpdates : List (String × Item × ItemData))
    (fileUpdates : List (String × Item × ItemData)) (guardEntities : List (String × Nat))
    (trashEntry : Option (String × TrashEntry)) (deleteTrashEntryId : Option String) : Plan where
  changes := (folderUpdates ++ fileUpdates).map fun (id, item, data) =>
    .update id item.storageRevision data
  guardEntities
  createdTrashEntry := trashEntry
  deletedTrashEntry := deleteTrashEntryId
  steps := if source = target then [] else [renameStep source target]

/-- The folders and the files that go with a folder. -/
structure Members where
  folders : List (String × Item)
  files : List (String × Item)

/-- The live ones below it. Deleted folders are walked through, where they are asked for. -/
def activeMembers (folderId : String) (includeDeleted : Bool) : Members :=
  let descendants := db.collectDescendants folderId includeDeleted
  { folders := descendants.filter (·.2.live)
    files := (db.collectFilesInFolders (folderId :: descendants.map Prod.fst)).filter (·.2.live) }

/-- A rename or a move: the folder gets its data, the members keep their rows but for the keys. -/
def relocateFolder (folderId : String) (folder : Item) (data : ItemData) (members : Members)
    (guardEntities : List (String × Nat)) : Plan :=
  let next := data.write folder
  let moved := db.withFolder folderId next
  durablyUpdateFolderTree (db.buildFolderStorageKey folder.parentId folder.name)
    (moved.buildFolderStorageKey next.parentId next.name)
    ((folderId, folder, data) :: members.folders.map fun (id, item) => (id, item, ItemData.unchanged))
    (members.files.map fun (id, item) => (id, item, { ItemData.unchanged with
      storageKey := some (moved.buildFileStorageKey item.parentId item.name) }))
    guardEntities none none

def renameFolder (folderId : String) (name : String) (ifRevision : Option Nat) : Planned := do
  let folder ← db.getActiveOwnedFolder folderId
  assertRevision folder ifRevision
  db.assertMutableFolder folderId
  db.assertNoFolderNameConflict (some (folder.parentId.getD db.filesRoot)) name (some folderId)
  .ok (db.relocateFolder folderId folder { ItemData.unchanged with name := some name }
    (db.activeMembers folderId true) [])

def moveFolder (folderId : String) (destinationFolderId : Option String) (ifRevision : Option Nat) :
    Planned := do
  let folder ← db.getActiveOwnedFolder folderId
  assertRevision folder ifRevision
  db.assertMutableFolder folderId
  let (destinationId, destination) ← db.getDestination destinationFolderId
  if destinationId = folderId then .error .folderMoveCycle
  if some destinationId = folder.parentId then .error .folderMoveNoop
  if (db.collectDescendants folderId false).any (·.1 = destinationId) then .error .folderMoveCycle
  db.assertNoFolderNameConflict (some destinationId) folder.name (some folderId)
  .ok (db.relocateFolder folderId folder { ItemData.unchanged with parentId := some (some destinationId) }
    (db.activeMembers folderId false) [(destinationId, destination.storageRevision)])

def trashFolder (folderId : String) (ifRevision : Option Nat) (trashEntryId : String) (now : Nat) :
    Planned := do
  let folder ← db.getActiveOwnedFolder folderId
  assertRevision folder ifRevision
  db.assertMutableFolder folderId
  let members := db.activeMembers folderId false
  let source := db.buildFolderStorageKey folder.parentId folder.name
  let target : StorageKey := ⟨.trash .folder folder.name now trashEntryId, []⟩
  let data := { ItemData.unchanged with
    deletedAt := some (some now), trashEntryId := some (some trashEntryId) }
  .ok (durablyUpdateFolderTree source target
    (((folderId, folder) :: members.folders).map fun (id, item) => (id, item, data))
    (members.files.map fun (id, item) => (id, item, { data with
      storageKey := item.storageKey.map (·.rebase source target) }))
    [] (some (trashEntryId, ⟨.folder, folderId, now, target⟩)) none)

/-- What is below a folder with the same trash entry. -/
def trashedMembers (folderId : String) (folder : Item) : Members :=
  let descendants := (db.collectDescendants folderId true).filter
    (·.2.trashEntryId = folder.trashEntryId)
  { folders := descendants
    files := (db.collectFilesInFolders (folderId :: descendants.map Prod.fst)).filter
      (·.2.trashEntryId = folder.trashEntryId) }

/-- The trash entry of a folder. -/
def trashEntryOf (folder : Item) : Except ServiceError (String × TrashEntry) :=
  match folder.trashEntryId.bind fun id => (db.trashEntries.get id).map (id, ·) with
  | none => .error .trashIdentityRequiresRecovery
  | some entry => .ok entry

def restoreFolder (folderId : String) : Planned := do
  let folder ← db.getOwnedFolder folderId
  db.assertMutableFolder folderId
  if folder.live then .error .folderAlreadyActive
  let restoreLocation := db.getRestoreLocation folder.parentId
  let members := db.trashedMembers folderId folder
  let (trashEntryId, entry) ← db.trashEntryOf folder
  let data := { ItemData.unchanged with deletedAt := some none, trashEntryId := some none }
  let restored := db.withFolder folderId { folder with parentId := some restoreLocation }
  .ok (durablyUpdateFolderTree entry.storageRootKey
    (restored.buildFolderStorageKey (some restoreLocation) folder.name)
    ((folderId, folder, { data with parentId := some (some restoreLocation) }) ::
      members.folders.map fun (id, item) => (id, item, data))
    (members.files.map fun (id, item) => (id, item, { data with
      storageKey := some (restored.buildFileStorageKey item.parentId item.name) }))
    [] none (some trashEntryId))

/-- `purgeDurableFolderTree`. -/
def purgeFolder (folderId : String) (operationId : String) : Planned := do
  let folder ← db.getOwnedFolder folderId
  -- it answers with empty counts, and without a mutation
  if folder.live then .error .folderNotFound
  let members := db.trashedMembers folderId folder
  let (trashEntryId, entry) ← db.trashEntryOf folder
  let quarantineKey : StorageKey := ⟨.tmp operationId, [folder.name]⟩
  .ok {
    changes := (members.files ++ members.folders.reverse ++ [(folderId, folder)]).map fun (id, item) =>
      .delete id item.storageRevision
    guardEntities := []
    createdTrashEntry := none
    deletedTrashEntry := some trashEntryId
    steps := [renameStep entry.storageRootKey quarantineKey, ⟨none, some quarantineKey⟩] }

end Database

/-! ## All of them -/

inductive Request
  | createFolder (id : String) (parentId : Option String) (name : String)
  | uploadFile (id : String) (folderId : String) (name : String) (checksum : String)
      (strategy : ConflictStrategy)
  | renameFile (fileId : String) (name : String) (ifRevision : Option Nat)
  | moveFile (fileId : String) (destinationFolderId : Option String) (ifRevision : Option Nat)
  | trashFile (fileId : String) (ifRevision : Option Nat) (trashEntryId : String) (now : Nat)
  | restoreFile (fileId : String)
  | deleteFile (fileId : String) (operationId : String)
  | keepMine (fileId conflictCopyId : String) (ifRevision : Nat) (trashEntryId : String) (now : Nat)
  | renameFolder (folderId : String) (name : String) (ifRevision : Option Nat)
  | moveFolder (folderId : String) (destinationFolderId : Option String) (ifRevision : Option Nat)
  | trashFolder (folderId : String) (ifRevision : Option Nat) (trashEntryId : String) (now : Nat)
  | restoreFolder (folderId : String)
  | purgeFolder (folderId : String) (operationId : String)
deriving DecidableEq, Repr

def Database.plan (db : Database) : Request → Planned
  | .createFolder id parentId name => db.createFolder id parentId name
  | .uploadFile id folderId name checksum strategy => db.uploadFile id folderId name checksum strategy
  | .renameFile fileId name ifRevision => db.renameFile fileId name ifRevision
  | .moveFile fileId destinationFolderId ifRevision =>
    db.moveFile fileId destinationFolderId ifRevision
  | .trashFile fileId ifRevision trashEntryId now => db.trashFile fileId ifRevision trashEntryId now
  | .restoreFile fileId => db.restoreFile fileId
  | .deleteFile fileId operationId => db.deleteFile fileId operationId
  | .keepMine fileId conflictCopyId ifRevision trashEntryId now =>
    db.keepMine fileId conflictCopyId ifRevision trashEntryId now
  | .renameFolder folderId name ifRevision => db.renameFolder folderId name ifRevision
  | .moveFolder folderId destinationFolderId ifRevision =>
    db.moveFolder folderId destinationFolderId ifRevision
  | .trashFolder folderId ifRevision trashEntryId now =>
    db.trashFolder folderId ifRevision trashEntryId now
  | .restoreFolder folderId => db.restoreFolder folderId
  | .purgeFolder folderId operationId => db.purgeFolder folderId operationId

end Staaash.Service

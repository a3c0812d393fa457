import Staaash.Service.Items

/-!
# Intents

What a mutation is prepared with: the changes of rows, each with the revision it was planned from, the
trash entries, the guards and the steps on disk. The metadata operations and the entities of a mutation
are built from the same rows, so that they are one list here. Derivatives, quotas, upload sessions and the
digests are left out.
-/

namespace Staaash.Service

open Staaash.Library (OrderedMap)
open Staaash.Planner (ItemType)

/-- The columns of an update; the others keep their values. -/
structure ItemData where
  parentId : Option (Option String)
  name : Option String
  deletedAt : Option (Option Nat)
  trashEntryId : Option (Option String)
  storageKey : Option StorageKey
  contentChecksum : Option String
deriving DecidableEq, Repr

/-- An update of nothing but the revision. -/
def ItemData.unchanged : ItemData := ⟨none, none, none, none, none, none⟩

def ItemData.write (data : ItemData) (item : Item) : Item where
  type := item.type
  parentId := data.parentId.getD item.parentId
  name := data.name.getD item.name
  deletedAt := data.deletedAt.getD item.deletedAt
  trashEntryId := data.trashEntryId.getD item.trashEntryId
  storageKey := data.storageKey.or item.storageKey
  contentChecksum := data.contentChecksum.or item.contentChecksum
  storageRevision := item.storageRevision + 1

inductive Change
  | create (id : String) (item : Item)
  | update (id : String) (preRevision : Nat) (data : ItemData)
  | delete (id : String) (preRevision : Nat)
deriving DecidableEq, Repr

def Change.id : Change → String
  | .create id _ => id
  | .update id _ _ => id
  | .delete id _ => id

/-- The entity of the change. A new row has none before it. -/
def Change.entity : Change → String × Option Nat
  | .create id _ => (id, none)
  | .update id preRevision _ => (id, some preRevision)
  | .delete id preRevision => (id, some preRevision)

/-- A step that renames or places something has both keys, the others a target. -/
structure Step where
  sourceKey : Option StorageKey
  targetKey : Option StorageKey
deriving DecidableEq, Repr

def renameStep (source target : StorageKey) : Step := ⟨some source, some target⟩

structure Plan where
  changes : List Change
  /-- Entities without a change. -/
  guardEntities : List (String × Nat)
  createdTrashEntry : Option (String × TrashEntry)
  deletedTrashEntry : Option String
  steps : List Step
deriving DecidableEq

def Plan.entities (plan : Plan) : List (String × Option Nat) :=
  plan.changes.map Change.entity ++ plan.guardEntities.map fun (id, preRevision) => (id, some preRevision)

/-- The keys of the steps, below `owner:<id>/`. -/
def Plan.stepKeys (plan : Plan) : List StorageKey :=
  plan.steps.flatMap fun step => step.sourceKey.toList ++ step.targetKey.toList

/-- Whether it is a purge. Nothing else deletes rows. -/
def Plan.purges (plan : Plan) : Bool :=
  plan.changes.any fun
    | .delete _ _ => true
    | _ => false

/-- `deriveStorageMutationResourceKeys`. A purge is none of `USER_STORAGE_MUTATION_KINDS`. Without any
key, it is the whole account. -/
def Plan.resourceKeys (plan : Plan) : List StorageKey := if plan.purges then [] else plan.stepKeys

/-- Whether the plan writes the row. -/
def Plan.writes (plan : Plan) (id : String) : Bool := plan.changes.any fun change => change.id = id

def Plan.deletes (plan : Plan) (id : String) : Bool :=
  plan.changes.any fun
    | .delete id' _ => id' = id
    | _ => false

/-- The ids that were made up for new rows. -/
def Plan.newIds (plan : Plan) : List String :=
  plan.changes.filterMap fun
    | .create id _ => some id
    | _ => none

/-- What a change makes of a row. -/
def Change.row (change : Change) (item : Option Item) : Option Item :=
  match change with
  | .create _ item => some item
  | .update _ _ data => item.map data.write
  | .delete _ _ => none

/-- The row after the plan. -/
def Plan.rowAfter (plan : Plan) (db : Database) (id : String) : Option Item :=
  match plan.changes.find? fun change => change.id = id with
  | none => db.items.get id
  | some change => change.row (db.items.get id)

/-! ## The metadata of a commit -/

namespace Database

variable (db : Database)

/-- `Folder_ownerUserId_parentId_name_active_key` admits the folder. A null is never equal. -/
def folderNameFree (id : String) (item : Item) : Bool :=
  !(item.type = .folder && item.live && item.parentId.isSome) ||
    db.items.entries.all fun (id', other) =>
      id' = id || !(other.type = .folder && other.live && other.parentId = item.parentId &&
        other.name = item.name)

/-- `Folder_parentId_fkey` and `File_folderId_fkey`. -/
def parentKnown (parentId : Option String) : Bool := parentId.all fun id => (db.folder id).isSome

def put (id : String) (item : Item) : Option Database :=
  if db.folderNameFree id item then some { db with items := db.items.set id item } else none

/-- `ON DELETE SET NULL` of the rows that refer to a folder. -/
def deleteItem (id : String) : Database :=
  { db with items := (db.items.filterKeys (· ≠ id)).mapValues fun _ item =>
    if item.parentId = some id then { item with parentId := none } else item }

/-- One of `applyStorageMutationIntentMetadata`'s operations on a row. -/
def applyChange : Change → Option Database
  | .create id item =>
    if !db.items.has id && db.parentKnown item.parentId then db.put id item else none
  | .update id preRevision data =>
    (db.items.get id).bind fun item =>
      if item.storageRevision = preRevision && data.parentId.all db.parentKnown then
        db.put id (data.write item)
      else none
  | .delete id preRevision =>
    (db.items.get id).bind fun item =>
      if item.storageRevision = preRevision then some (db.deleteItem id) else none

def createTrashEntry (created : Option (String × TrashEntry)) : Option Database :=
  match created with
  | none => some db
  | some (id, entry) =>
    if db.trashEntries.has id || db.trashEntries.entries.any fun (_, other) =>
        other.rootKind = entry.rootKind && other.rootEntityId = entry.rootEntityId then none
    else some { db with trashEntries := db.trashEntries.set id entry }

/-- Again with `ON DELETE SET NULL`. -/
def deleteTrashEntry (deleted : Option String) : Option Database :=
  match deleted with
  | none => some db
  | some id =>
    if db.trashEntries.has id then
      some { db with
        trashEntries := db.trashEntries.filterKeys (· ≠ id)
        items := db.items.mapValues fun _ item =>
          if item.trashEntryId = some id then { item with trashEntryId := none } else item }
    else none

/-- `applyStorageMutationIntentMetadata`: all of it or nothing. -/
def commit (plan : Plan) : Option Database :=
  ((db.createTrashEntry plan.createdTrashEntry).bind fun db =>
    plan.changes.foldlM applyChange db).bind fun db => db.deleteTrashEntry plan.deletedTrashEntry

end Database

end Staaash.Service

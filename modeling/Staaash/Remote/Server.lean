import Mathlib.Data.List.Sort
import Staaash.Remote.Tree

/-!
# What the server tells its clients

The rows of an owner's files and folders, the entries a commit appends to the change log
(`storage-changes.ts`), and the pages of a snapshot. Files and folders share one space of ids, which
are made up at random.
-/

namespace Staaash.Remote

open Staaash.Library (OrderedMap)
open Staaash.Planner

/-- A row of the `File` or the `Folder` table. -/
structure Row where
  type : ItemType
  /-- `parentId` of a folder, `folderId` of a file. -/
  parentId : Option String
  name : Rel
  isFilesRoot : Bool
  deletedAt : Option Int
  sizeBytes : Option Nat
  contentChecksum : Option String
  storageRevision : Nat
  clientModifiedAt : Option Int
deriving DecidableEq, Repr

/-- The rows of one owner, by id. -/
abbrev Table := OrderedMap String Row

/-- Not in the trash. -/
def Row.live (row : Row) : Bool := row.deletedAt.isNone

/-! ## Paths -/

/-- The folder's row. -/
def Table.folder (table : Table) (id : String) : Option Row :=
  (table.get id).bind fun row => if row.type = .folder then some row else none

/-- The names from the files root down to a folder, the files root's own left out, reading at most
`n` folders above it. -/
def folderNames (table : Table) (n : Nat) (id : String) : List Rel :=
  match table.folder id with
  | none => []
  | some row =>
    (match n, row.parentId with
      | n + 1, some parentId => folderNames table n parentId
      | _, _ => []) ++ if row.isFilesRoot then [] else [row.name]

/-- Folder paths below the files root. -/
def readFolderPath (table : Table) (id : String) : Rel :=
  ['/'].intercalate (folderNames table 1000 id)

def join (parent : Option Rel) (name : Rel) : Rel :=
  match parent with
  | none => name
  | some parent => joinRel parent name

/-- A file or a folder that a mutation touches, with its logical path. -/
structure ItemState where
  type : ItemType
  id : String
  parentId : Option String
  name : Rel
  path : Rel
  deletedAt : Option Int
  sizeBytes : Option Nat
  contentChecksum : Option String
  storageRevision : Nat
  clientModifiedAt : Option Int
deriving DecidableEq, Repr

def itemState (table : Table) (id : String) (row : Row) : ItemState where
  type := row.type
  id
  parentId := row.parentId
  name := row.name
  path :=
    match row.type with
    | .folder => readFolderPath table id
    | .file => join (row.parentId.map (readFolderPath table)) row.name
  deletedAt := row.deletedAt
  sizeBytes := row.sizeBytes
  contentChecksum := row.contentChecksum
  storageRevision := row.storageRevision
  clientModifiedAt := row.clientModifiedAt

/-- `keyOf(type, id)`. -/
abbrev ItemKey := ItemType × String

abbrev StorageItemSnapshot := OrderedMap ItemKey ItemState

/-- The rows of one of the two tables that a mutation touches. The files root is nobody's item. -/
def touchedRows (table : Table) (entities : List ItemKey) (type : ItemType) : List ItemState :=
  entities.filterMap fun (entityType, id) =>
    if entityType = type then
      (table.get id).bind fun row =>
        if row.type = type ∧ row.isFilesRoot = false then some (itemState table id row) else none
    else none

/-- Reads the files and folders a mutation touches. -/
def readStorageItemSnapshot (table : Table) (entities : List ItemKey) : StorageItemSnapshot :=
  .ofList ((touchedRows table entities .folder ++ touchedRows table entities .file).map
    fun item => ((item.type, item.id), item))

/-! ## The entries of a commit -/

def kindOf (before after : Option ItemState) : Option StorageChangeKind :=
  match before, after with
  | none, none => none
  | none, some after => if after.deletedAt.isNone then some .created else none
  | some _, none => some .deleted
  | some before, some after =>
    if before.deletedAt.isNone && after.deletedAt.isSome then some .trashed
    else if before.deletedAt.isSome && after.deletedAt.isNone then some .restored
    else if after.deletedAt.isSome then none
    else if before.parentId ≠ after.parentId ∨ before.name ≠ after.name then some .moved
    -- a folder rename bumps its files' revisions and paths; that is the folder's move
    else if before.contentChecksum ≠ after.contentChecksum ∨ before.sizeBytes ≠ after.sizeBytes ∨
        before.clientModifiedAt ≠ after.clientModifiedAt ∨
        (after.type = .file ∧ before.storageRevision ≠ after.storageRevision ∧
          before.path = after.path) then some .updated
    else none

/-- What kind of change each item went through. -/
def kindsOf (before after : StorageItemSnapshot) : OrderedMap ItemKey StorageChangeKind :=
  .ofList ((before.keys ++ after.keys).eraseDups.filterMap fun key =>
    (kindOf (before.get key) (after.get key)).map (key, ·))

/-- A child that moved, trashed, restored, or vanished with its folder is covered by the folder's
entry. -/
def coveredByParent (kinds : OrderedMap ItemKey StorageChangeKind) (kind : StorageChangeKind)
    (previous : Option ItemState) (current : ItemState) : Bool :=
  kind ≠ .created && kind ≠ .updated && previous.map (·.parentId) = some current.parentId &&
    kinds.get (.folder, current.parentId.getD "") = some kind

/-- The item as it is now, or as it was last. -/
def currentOf (before after : StorageItemSnapshot) (key : ItemKey) : Option ItemState :=
  (after.get key).or (before.get key)

/-- The changes that are written, before they are put in order. -/
def uncovered (before after : StorageItemSnapshot) : List (StorageChangeKind × ItemState) :=
  (kindsOf before after).entries.filterMap fun (key, kind) =>
    (currentOf before after key).bind fun current =>
      if coveredByParent (kindsOf before after) kind (before.get key) current then none
      else some (kind, current)

def toChange (kind : StorageChangeKind) (current : ItemState) : StorageChange where
  kind
  itemType := current.type
  itemId := current.id
  parentId := current.parentId
  name := current.name
  sizeBytes := current.sizeBytes
  contentChecksum := current.contentChecksum
  storageRevision := current.storageRevision
  clientModifiedAt := current.clientModifiedAt

/-- One change per top-level item the mutation touched. Parents come before their children, so a
client can apply entries in order. -/
def appendStorageChanges (before after : StorageItemSnapshot) : List StorageChange :=
  ((uncovered before after).insertionSort fun a b => depth a.2.path ≤ depth b.2.path).map
    fun (kind, current) => toChange kind current

/-- The entries for the rows that a mutation touches, read before and after its commit. -/
def commitEntries (before after : Table) (entities : List ItemKey) : List StorageChange :=
  appendStorageChanges (readStorageItemSnapshot before entities)
    (readStorageItemSnapshot after entities)

/-! ## Snapshots -/

/-- The folder is `rootId` or a live folder below it, reading at most `n` levels up. -/
def inTree (table : Table) (rootId : String) (n : Nat) (id : String) : Bool :=
  id = rootId ||
    match n, table.folder id with
    | n + 1, some row =>
      row.live && match row.parentId with
        | some parentId => inTree table rootId n parentId
        | none => false
    | _, _ => false

/-- Whether a row is part of the live tree under `rootId`. -/
def listed (table : Table) (rootId id : String) (row : Row) : Bool :=
  match row.type with
  | .folder => id ≠ rootId && inTree table rootId 1000 id
  | .file => row.live && (row.parentId.map (inTree table rootId 1000)).getD false

def snapshotItem (id : String) (row : Row) : SnapshotItem where
  type := row.type
  id
  parentId := row.parentId
  name := row.name
  sizeBytes := row.sizeBytes
  contentChecksum := row.contentChecksum
  storageRevision := row.storageRevision
  clientModifiedAt := row.clientModifiedAt

/-- The live items under `rootId`. -/
def listing (table : Table) (rootId : String) : List SnapshotItem :=
  (table.entries.filter fun (id, row) => listed table rootId id row).map
    fun (id, row) => snapshotItem id row

/-- One page of a snapshot. -/
structure SnapshotPage where
  items : List SnapshotItem
  hasMore : Bool
deriving DecidableEq, Repr

/-- `ORDER BY type DESC, id`: folders first, then by id as the database compares ids. -/
def listedBefore (idLe : String → String → Bool) (a b : SnapshotItem) : Bool :=
  if a.type = b.type then idLe a.id b.id else a.type = .folder

/-- One page of the live tree under `folderId`, folders first. `after` is the last item of the
previous page. -/
def readStorageSnapshotPage (idLe : String → String → Bool) (table : Table) (folderId : String)
    (after : Option SnapshotItem) (limit : Nat) : Option SnapshotPage :=
  (table.folder folderId).bind fun root =>
    if root.live then
      let rows := ((listing table folderId).insertionSort (listedBefore idLe · ·)).filter fun item =>
        match after with
        | none => true
        | some after => !listedBefore idLe item after
      some { items := rows.take limit, hasMore := rows.length > limit }
    else none

end Staaash.Remote

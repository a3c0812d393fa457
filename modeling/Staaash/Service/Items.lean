import Staaash.Library.OrderedMap
import Staaash.Planner.Types

/-!
# The items of an owner

The rows of the `File`, `Folder` and `TrashEntry` tables of one owner, and what `service.ts` reads from
them: storage keys, subtrees, the item that has a name. Files and folders share one space of ids. Names
are normalized, and every row has a revision.
-/

namespace Staaash.Service

open Staaash.Library (OrderedMap)
open Staaash.Planner (ItemType)

/-! ## Storage keys -/

/-- A directory of the storage, below the owner's. -/
inductive Area
  | files
  /-- `buildIsolatedTrashStorageKey`. -/
  | trash (kind : ItemType) (name : String) (deletedAt : Nat) (trashEntryId : String)
  /-- Staging, incoming, backup or quarantine. -/
  | tmp (operationId : String)
deriving DecidableEq, Repr

structure StorageKey where
  area : Area
  path : List String
deriving DecidableEq, Repr

/-- One path and everything below it. -/
def StorageKey.contains (key key' : StorageKey) : Bool :=
  key.area = key'.area && key.path.isPrefixOf key'.path

/-- `path.posix.join(to, relativeStorageKeyWithin(from, key))`. -/
def StorageKey.rebase (key source target : StorageKey) : StorageKey :=
  { target with path := target.path ++ key.path.drop source.path.length }

/-! ## Rows -/

structure Item where
  type : ItemType
  /-- `parentId` of a folder, `folderId` of a file. -/
  parentId : Option String
  /-- `name` of a folder, `originalName` of a file. -/
  name : String
  deletedAt : Option Nat
  trashEntryId : Option String
  /-- A folder has none. -/
  storageKey : Option StorageKey
  contentChecksum : Option String
  storageRevision : Nat
deriving DecidableEq, Repr

def Item.live (item : Item) : Bool := item.deletedAt.isNone

structure TrashEntry where
  rootKind : ItemType
  rootEntityId : String
  deletedAt : Nat
  storageRootKey : StorageKey
deriving DecidableEq, Repr

structure Database where
  items : OrderedMap String Item
  trashEntries : OrderedMap String TrashEntry
  /-- The id of the folder with `isFilesRoot`. -/
  filesRoot : String
deriving DecidableEq

namespace Database

variable (db : Database)

def folder (id : String) : Option Item := (db.items.get id).filter (·.type = .folder)

def file (id : String) : Option Item := (db.items.get id).filter (·.type = .file)

/-- More than there are folders on any way up. -/
def depth : Nat := db.items.entries.length + 1

end Database

/-! ## Paths -/

/-- The rounds that are left of the loop in `buildFolderPathSegments`, and the folders it has seen. -/
def pathSegmentsFrom (folders : String → Option Item) (filesRoot : String) :
    Nat → List String → Option String → List String
  | 0, _, _ => []
  | _, _, none => []
  | n + 1, visited, some id =>
    if id = filesRoot || visited.contains id then []
    else
      match folders id with
      | none => []
      | some folder =>
        pathSegmentsFrom folders filesRoot n (id :: visited) folder.parentId ++ [folder.name]

namespace Database

variable (db : Database)

def buildFolderPathSegments (folderId : Option String) : List String :=
  pathSegmentsFrom db.folder db.filesRoot db.depth [] folderId

/-- `buildFolderStorageKey` of a live folder with that parent and name. -/
def buildFolderStorageKey (parentId : Option String) (name : String) : StorageKey :=
  ⟨.files, db.buildFolderPathSegments parentId ++ [name]⟩

/-- `buildFileStorageKey` of a live file. -/
def buildFileStorageKey (folderId : Option String) (name : String) : StorageKey :=
  ⟨.files, db.buildFolderPathSegments folderId ++ [name]⟩

/-- `buildUpdatedFolderMap` with one folder. -/
def withFolder (id : String) (folder : Item) : Database := { db with items := db.items.set id folder }

/-! ## Subtrees -/

/-- Whether the way up from a folder leads to `folderId`, over live folders unless deleted ones are
asked for too. -/
def isBelow (includeDeleted : Bool) (folderId : String) : Nat → String → Bool
  | 0, _ => false
  | n + 1, id =>
    (db.folder id).any fun folder =>
      (includeDeleted || folder.live) &&
        folder.parentId.any fun parentId =>
          parentId = folderId || isBelow includeDeleted folderId n parentId

/-- `collectDescendants`: the folders below. -/
def collectDescendants (folderId : String) (includeDeleted : Bool) : List (String × Item) :=
  db.items.entries.filter fun (id, item) =>
    item.type = .folder && id ≠ folderId && db.isBelow includeDeleted folderId db.depth id

def collectFilesInFolders (folderIds : List String) : List (String × Item) :=
  db.items.entries.filter fun (_, item) =>
    item.type = .file && item.parentId.any folderIds.contains

/-- `findActiveNameConflict`. -/
def findActiveNameConflict (parentId : Option String) (name : String) (exclude : Option String) :
    Option (String × Item) :=
  let inTheWay (type : ItemType) := db.items.entries.find? fun (id, item) =>
    item.type = type && item.live && item.parentId = parentId && item.name = name &&
      exclude ≠ some id
  (inTheWay .folder).or (inTheWay .file)

/-- The folder that `getRestoreLocation` finds: the old one, or else the files root. -/
def getRestoreLocation (parentId : Option String) : String :=
  match parentId with
  | none => db.filesRoot
  | some id => if (db.folder id).any (·.live) then id else db.filesRoot

end Database

end Staaash.Service

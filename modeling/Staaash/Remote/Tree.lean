import Staaash.Library.OrderedMap
import Staaash.Library.ParentPointers
import Staaash.Planner.Types

/-!
# The server tree in memory

`RemoteTree` of `remote.ts`: the server's items under every pair folder, kept current from the change
feed, from snapshots and from the answers the engine gets directly. The store's copy of the items is
written together with them and is left out. A walk through the tree takes fuel; `none` says that it
has not ended yet.
-/

namespace Staaash.Remote

open Staaash.Library (OrderedMap walk)
open Staaash.Planner

inductive StorageChangeKind
  | created
  | updated
  | moved
  | trashed
  | restored
  | deleted
deriving DecidableEq, Repr

/-- One entry of `GET /api/sync/changes`. -/
structure StorageChange where
  kind : StorageChangeKind
  itemType : ItemType
  itemId : String
  parentId : Option String
  name : Rel
  sizeBytes : Option Nat
  contentChecksum : Option String
  storageRevision : Nat
  /-- In milliseconds, as `toMs` reads it. -/
  clientModifiedAt : Option Int
deriving DecidableEq, Repr

/-- One entry of `GET /api/sync/snapshot`. -/
structure SnapshotItem where
  type : ItemType
  id : String
  parentId : Option String
  name : Rel
  sizeBytes : Option Nat
  contentChecksum : Option String
  storageRevision : Nat
  clientModifiedAt : Option Int
deriving DecidableEq, Repr

def fromSnapshot (item : SnapshotItem) : RemoteItem where
  id := item.id
  type := item.type
  parentId := item.parentId
  name := item.name
  size := item.sizeBytes
  checksum := item.contentChecksum
  rev := item.storageRevision
  modifiedAt := item.clientModifiedAt

/-- The item that an entry describes. -/
def fromChange (change : StorageChange) : RemoteItem where
  id := change.itemId
  type := change.itemType
  parentId := change.parentId
  name := change.name
  size := change.sizeBytes
  checksum := change.contentChecksum
  rev := change.storageRevision
  modifiedAt := change.clientModifiedAt

structure RemoteTree where
  items : OrderedMap String RemoteItem
  children : OrderedMap (Option String) (List String)
  /-- The pair folders. -/
  roots : List String
deriving DecidableEq

namespace RemoteTree

def empty (roots : List String) : RemoteTree := ⟨.empty, .empty, roots⟩

/-- Forgets every server item, for a fresh start from snapshots. -/
def clear (t : RemoteTree) : RemoteTree := { t with items := .empty, children := .empty }

def setRoots (t : RemoteTree) (roots : List String) : RemoteTree := { t with roots }

/-- `this.children.get(parentId) ?? []`. -/
def childrenOf (t : RemoteTree) (parentId : Option String) : List String :=
  (t.children.get parentId).getD []

/-- `this.children.get(parentId)?.delete(id)`. -/
def detach (t : RemoteTree) (parentId : Option String) (id : String) : RemoteTree :=
  match t.children.get parentId with
  | none => t
  | some siblings => { t with children := t.children.set parentId (siblings.filter (· ≠ id)) }

/-- `siblings.add(id)`, with the set made when there is none. -/
def attach (t : RemoteTree) (parentId : Option String) (id : String) : RemoteTree :=
  let siblings := t.childrenOf parentId
  { t with
    children := t.children.set parentId (if id ∈ siblings then siblings else siblings ++ [id]) }

def index (t : RemoteTree) (item : RemoteItem) : RemoteTree :=
  let detached :=
    match t.items.get item.id with
    | some previous => t.detach previous.parentId item.id
    | none => t
  { detached with items := detached.items.set item.id item }.attach item.parentId item.id

/-- The tree as the engine builds it when it starts, from the items its store holds. -/
def ofStore (remoteItems : List RemoteItem) (roots : List String) : RemoteTree :=
  remoteItems.foldl index (empty roots)

def put (t : RemoteTree) (item : RemoteItem) : RemoteTree := t.index item

/-- Every id in a subtree, the folder itself first. -/
def subtree (t : RemoteTree) (fuel : Nat) (id : String) : Option (List String) :=
  walk (fun each => t.childrenOf (some each)) fuel [id]

/-- One round of `removeSubtree`'s loop. -/
def drop (t : RemoteTree) (id : String) : RemoteTree :=
  let detached :=
    match t.items.get id with
    | some item => t.detach item.parentId id
    | none => t
  { detached with
    items := detached.items.filterKeys (· ≠ id)
    children := detached.children.filterKeys (· ≠ some id) }

def removeSubtree (t : RemoteTree) (fuel : Nat) (id : String) : Option RemoteTree :=
  (t.subtree fuel id).map fun ids => (ids.filter t.items.has).foldl drop t

/-- The rounds of `inScope`'s loop that are left. -/
def inScopeFrom (t : RemoteTree) : Nat → Option String → Bool
  | 0, _ => false
  | _ + 1, none => false
  | n + 1, some current =>
    if current ∈ t.roots then true
    else t.inScopeFrom n ((t.items.get current).bind (·.parentId))

/-- Whether an item sits under one of the pair folders. -/
def inScope (t : RemoteTree) (parentId : Option String) : Bool := t.inScopeFrom 4096 parentId

/-- Removes what is known under a pair folder. Removing a subtree never touches its siblings, so the
set can be walked while it shrinks. -/
def removeUnder (t : RemoteTree) (fuel : Nat) (rootId : String) : Option RemoteTree :=
  (t.childrenOf (some rootId)).foldlM
    (fun t child => if child ∈ t.childrenOf (some rootId) then t.removeSubtree fuel child else some t) t

/-- Replaces what is known under a pair folder with a fresh snapshot. -/
def replaceUnder (t : RemoteTree) (fuel : Nat) (rootId : String) (items : List RemoteItem) :
    Option RemoteTree :=
  (t.removeUnder fuel rootId).map (items.foldl put)

/-- Whether the tree holds nothing newer than the item. -/
def takes (t : RemoteTree) (item : RemoteItem) : Bool :=
  match t.items.get item.id with
  | none => true
  | some current => current.rev ≤ item.rev

/-- Adds a folder's contents that came into view with it. -/
def addUnder (t : RemoteTree) (items : List RemoteItem) : RemoteTree :=
  items.foldl (fun t item => if t.takes item then t.put item else t) t

/-- Removes an item that the tree holds, with everything below. -/
def removeKnown (t : RemoteTree) (fuel : Nat) (id : String) : Option RemoteTree :=
  if t.items.has id then t.removeSubtree fuel id else some t

/-- Applies one change. Returns a folder id when a folder came into view whose contents the client
has not seen, so the caller fetches its snapshot. -/
def apply (t : RemoteTree) (fuel : Nat) (change : StorageChange) :
    Option (RemoteTree × Option String) :=
  if change.itemId ∈ t.roots then some (t, none)
  else if !t.takes (fromChange change) then some (t, none)
  else if change.kind = .trashed ∨ change.kind = .deleted then
    (t.removeKnown fuel change.itemId).map (·, none)
  else if !t.inScope change.parentId then
    -- moved out of every pair, or never in one
    (t.removeKnown fuel change.itemId).map (·, none)
  else
    some (t.put (fromChange change),
      if change.itemType = .folder ∧ !t.items.has change.itemId ∧ change.kind ≠ .created then
        some change.itemId
      else none)

/-- Records a server answer the engine got directly, before the feed echoes it. -/
def set (t : RemoteTree) (fuel : Nat) (item : RemoteItem) : Option RemoteTree :=
  if !t.inScope item.parentId then t.removeKnown fuel item.id else some (t.put item)

/-- Items are kept under their own ids, and the children of a folder are the items that name it. -/
structure WellFormed (t : RemoteTree) : Prop where
  keyed : ∀ id item, t.items.get id = some item → item.id = id
  indexed : ∀ parentId id, id ∈ t.childrenOf parentId ↔
    ∃ item, t.items.get id = some item ∧ item.parentId = parentId

/-- The folder that an item names as its parent. -/
def up (t : RemoteTree) (id : String) : Option String := (t.items.get id).bind (·.parentId)

/-! ## The items under a pair folder -/

/-- What `scope` returns. -/
structure Scoped where
  items : List ScopedItem
  skipped : List SkippedItem
  ignored : List ScopedItem
deriving DecidableEq, Repr

/-- How a computer and a pair read a name. -/
structure Reading where
  platform : Platform
  windows : Bool
  ignore : Rel → Bool
  leftOut : String → Rel → Bool

/-- The items directly under a folder, by the key their names collide on. -/
def byKey (t : RemoteTree) (P : Platform) (parentId : String) : OrderedMap Rel (List RemoteItem) :=
  ((t.childrenOf (some parentId)).filterMap t.items.get).foldl
    (fun m item => m.set (P.pathKey item.name) ((m.get (P.pathKey item.name)).getD [] ++ [item]))
    .empty

/-- Each of them with the number of items in its group. -/
def entriesOf (t : RemoteTree) (P : Platform) (parentId : String) : List (RemoteItem × Nat) :=
  (t.byKey P parentId).entries.flatMap fun (_, group) => group.map (·, group.length)

/-- What is done with one of them, given what is done with a folder. -/
def visit (R : Reading) (walk : String → Rel → Scoped → Option Scoped) (parentRel : Rel)
    (acc : Scoped) : RemoteItem × Nat → Option Scoped
  | (item, group) =>
    let rel := joinRel parentRel item.name
    if R.ignore item.name || R.leftOut item.id rel then
      some { acc with ignored := acc.ignored ++ [⟨rel, item⟩] }
    else
      match (invalidNameReason R.windows item.name).or
          (if group > 1 then some ("Another item here has the same name in different letter case, " ++
            "which this computer treats as the same name.") else none) with
      | some reason => some { acc with skipped := acc.skipped ++ [⟨rel, item, reason⟩] }
      | none =>
        let acc := { acc with items := acc.items ++ [⟨rel, item⟩] }
        if item.type = .folder then walk item.id rel acc else some acc

/-- `walk`, at most `fuel` folders deep. -/
def scopeFrom (t : RemoteTree) (R : Reading) : Nat → String → Rel → Scoped → Option Scoped
  | 0, _, _, _ => none
  | fuel + 1, parentId, parentRel, acc =>
    (t.entriesOf R.platform parentId).foldlM (visit R (t.scopeFrom R fuel) parentRel) acc

/-- The items under a pair folder with their paths. Items this computer cannot hold are skipped with
a reason, ignored names and left out folders are left out quietly, and so is everything inside
either. -/
def scope (t : RemoteTree) (fuel : Nat) (R : Reading) (rootId : String) : Option Scoped :=
  t.scopeFrom R fuel rootId [] ⟨[], [], []⟩

end RemoteTree

end Staaash.Remote

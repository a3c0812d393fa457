import Staaash.Remote.Pull

/-!
# What a commit tells a client

A commit changes rows and writes entries about them. A client that shows the rows below its pair
folders as they were before applies the entries in order, and fetches the contents of the folders that
come into view, sooner or later. It should end up showing the rows as they are after.
-/

namespace Staaash.Remote

open Staaash.Library
open Staaash.Planner

/-! ## The live items of an owner -/

/-- The row, unless it is in the trash. -/
def Table.live (table : Table) (id : String) : Option Row :=
  (table.get id).bind fun row => if row.live then some row else none

/-- The folder that a live row names as its parent. -/
def Table.liveUp (table : Table) (id : String) : Option String := (table.live id).bind (·.parentId)

/-- The live items form a forest of named files and folders. -/
structure LiveForest (table : Table) : Prop where
  acyclic : Acyclic table.liveUp
  /-- What is live lies in a live folder. -/
  inFolder : ∀ id parentId, table.liveUp id = some parentId →
    ∃ parent, table.live parentId = some parent ∧ parent.type = .folder
  named : ∀ id row, table.live id = some row → row.isFilesRoot = false →
    row.name ≠ [] ∧ '/' ∉ row.name

/-- The live item lies below one of the pair folders. -/
def Under (table : Table) (roots : List String) (id : String) : Prop :=
  ∃ rootId ∈ roots, Above table.liveUp id rootId

/-- Going up from an item comes to an end after at most `n` folders. -/
def endsWithin (table : Table) (n : Nat) (id : String) : Bool :=
  match n, table.liveUp id with
  | _, none => true
  | 0, some _ => false
  | n + 1, some parentId => endsWithin table n parentId

/-- No live item lies more than 1000 folders deep, which is as far as the readers go. -/
def Shallow (table : Table) : Prop := ∀ id ∈ table.keys, endsWithin table 1000 id = true

instance (table : Table) : Decidable (Shallow table) :=
  inferInstanceAs (Decidable (∀ id ∈ table.keys, endsWithin table 1000 id = true))

/-! ## Commits -/

structure Commit where
  before : Table
  after : Table
  /-- The files and folders that the mutation is recorded to touch. -/
  entities : List ItemKey

namespace Commit

variable (c : Commit)

/-- The entries that are written. -/
def entries : List StorageChange := commitEntries c.before c.after c.entities

/-- The kind of change an item went through, if it is one that is told. -/
def kind (key : ItemKey) : Option StorageChangeKind :=
  (kindsOf (readStorageItemSnapshot c.before c.entities)
    (readStorageItemSnapshot c.after c.entities)).get key

/-- What the server keeps to in every commit. -/
structure Proper : Prop where
  before : LiveForest c.before
  after : LiveForest c.after
  /-- A row stays a file or a folder, and its revision does not go down. -/
  kept : ∀ id old new, c.before.get id = some old → c.after.get id = some new →
    old.type = new.type ∧ old.isFilesRoot = new.isFilesRoot ∧
      old.storageRevision ≤ new.storageRevision
  /-- Only the rows that are recorded are touched, and never the files root. -/
  untouched : ∀ id row, c.before.get id = some row ∨ c.after.get id = some row →
    (row.type, id) ∉ c.entities ∨ row.isFilesRoot = true → c.after.get id = c.before.get id

/-- Nothing happens to the folders from a pair folder up to another one, nor to a pair folder that comes to
lie in another one, and no pair folder is trashed, restored or deleted. -/
structure KeepsRoots (roots : List String) : Prop where
  between : ∀ rootId ∈ roots, ∀ id, AtOrAbove c.before.liveUp rootId id → Under c.before roots id →
    ∀ type, c.kind (type, id) = none
  within : ∀ rootId ∈ roots, Under c.after roots rootId → ∀ type, c.kind (type, rootId) = none
  stays : ∀ rootId ∈ roots, ∀ kind, c.kind (.folder, rootId) = some kind →
    kind ≠ .trashed ∧ kind ≠ .restored ∧ kind ≠ .deleted

/-- No item is renamed in a folder that is moved or renamed itself. -/
def RenamesApart : Prop :=
  ∀ key parentId, c.kind key = some .moved →
    c.before.up key.2 = some parentId → c.after.up key.2 = some parentId →
    c.kind (.folder, parentId) ≠ some .moved

end Commit

/-! ## A client that follows -/

/-- The item shows the row, as it was at some revision up to now. -/
def Shows (id : String) (row : Row) (item : RemoteItem) : Prop :=
  item.rev ≤ row.storageRevision ∧
    { item with rev := row.storageRevision } = fromSnapshot (snapshotItem id row)

instance (id : String) (row : Row) (item : RemoteItem) : Decidable (Shows id row item) :=
  inferInstanceAs (Decidable (_ ∧ _))

/-- The tree shows the live items below its pair folders and nothing else. -/
structure Mirrors (t : RemoteTree) (table : Table) : Prop where
  shown : ∀ id item, t.items.get id = some item →
    Under table t.roots id ∧ ∃ row, table.live id = some row ∧ Shows id row item
  complete : ∀ id, Under table t.roots id → (t.items.get id).isSome

/-- The entries are applied in order; each folder that comes into view is answered with the rows after
the commit, listed in any order, at any time after it came into view. -/
inductive Follows (after : Table) :
    RemoteTree → List StorageChange → List String → RemoteTree → Prop
  | done {t : RemoteTree} : Follows after t [] [] t
  | apply {t mid t' : RemoteTree} {change : StorageChange} {changes : List StorageChange}
    {reveal : List String} {folder : Option String} {fuel : Nat} :
    t.apply fuel change = some (mid, folder) → Follows after mid changes (reveal ++ folder.toList) t' →
    Follows after t (change :: changes) reveal t'
  | answer {t t' : RemoteTree} {changes : List StorageChange} {reveal : List String}
    {folderId : String} {items : List RemoteItem} :
    folderId ∈ reveal → items.Perm ((listing after folderId).map fromSnapshot) →
    Follows after (t.addUnder items) changes (reveal.erase folderId) t' →
    Follows after t changes reveal t'

/-- The client showed the rows before the commit, has applied all its entries and fetched all that came
into view, and does not show the rows after it. -/
def LeftBehind (c : Commit) (t : RemoteTree) : Prop :=
  c.Proper ∧ t.WellFormed ∧ Mirrors t c.before ∧
    ∃ t', Follows c.after t c.entries [] t' ∧ ¬ Mirrors t' c.after

/-! ## Where items are put

Entries of the feed, items of a snapshot and direct answers each come from a moment of the server, and
what the tree has below an item from others. An item is put in step where one moment had all of it: a
mixture may be a tree that the server never had.
-/

section InStep

/-- A moment of the server has the item in its folder. -/
def ReadFrom (past : List Server) (item : RemoteItem) : Prop :=
  ∃ server ∈ past, server.now.table.up item.id = item.parentId

namespace RemoteTree

/-- No item lies below itself. -/
def Forest (t : RemoteTree) : Prop := Acyclic t.up

/-- The walks through the tree end, from every item and every pair folder. -/
def WalksEnd (t : RemoteTree) : Prop :=
  (∀ id, ∃ fuel ids, t.subtree fuel id = some ids) ∧
  ∀ R rootId, ∃ fuel found, t.scope fuel R rootId = some found

/-- A moment that has the item in its folder has everything that the tree has below the item where the
tree has it. -/
def InStep (past : List Server) (t : RemoteTree) (item : RemoteItem) : Prop :=
  ReadFrom past item → ∃ server ∈ past, server.now.table.up item.id = item.parentId ∧
    ∀ id, Above t.up id item.id → server.now.table.up id = t.up id

/-- Whether applying the change puts an item. -/
def putsChange (t : RemoteTree) (change : StorageChange) : Bool :=
  change.itemId ∉ t.roots && t.takes (fromChange change) && change.kind ≠ .trashed &&
    change.kind ≠ .deleted && t.inScope change.parentId

variable (P : RemoteTree → RemoteItem → Prop)

/-- The changes of a page are put where `P` allows it. -/
def PagePuts (t : RemoteTree) : List StorageChange → Prop
  | [] => True
  | change :: changes =>
    (t.putsChange change = true → P t (fromChange change)) ∧
      ∀ fuel mid folder, t.apply fuel change = some (mid, folder) → mid.PagePuts changes

/-- The items of a snapshot that replaces what was known. -/
def ReplacePuts (t : RemoteTree) : List RemoteItem → Prop
  | [] => True
  | item :: items => P t item ∧ (t.put item).ReplacePuts items

/-- The items of a snapshot that is added. -/
def AddPuts (t : RemoteTree) : List RemoteItem → Prop
  | [] => True
  | item :: items =>
    if t.takes item then P t item ∧ (t.put item).AddPuts items else t.AddPuts items

end RemoteTree

variable (idLe : String → String → Bool) (ownerUserId : String)
variable (P : RemoteTree → RemoteItem → Prop)

/-- What the next call of a pull puts. -/
def Engine.NextPuts (e : Engine) (s : Server) : Prop :=
  ∀ p, e.pulling = some p →
    match p.todo with
    | .pair pair :: _ =>
      ∀ fetched, Engine.fetch idLe s pair.remoteFolderId p.fetched = some (fetched, false) →
        ∀ fuel tree, e.tree.removeUnder fuel pair.remoteFolderId = some tree →
          tree.ReplacePuts P fetched.items
    | .reveal folderId :: _ =>
      ∀ fetched, Engine.fetch idLe s folderId p.fetched = some (fetched, false) →
        e.tree.AddPuts P fetched.items
    | .changes :: _ =>
      ∀ page, Feed.readStorageChanges s.log ownerUserId (e.cursor.getD 0) 1000 = .ok page →
        e.tree.PagePuts P (page.changes.map (·.change))
    | _ => True

/-- What the step of the event puts. -/
def System.StepPuts (s : System) : Event → Prop
  | .next => s.engine.NextPuts idLe ownerUserId P s.server
  | .set item => s.engine.tree.inScope item.parentId = true → P s.engine.tree item
  | _ => True

/-- What a direct answer says of an item was so at some moment, and a server is restored to what it was
before. -/
def Event.Real (past : List Server) : Event → Prop
  | .set item => ReadFrom past item
  | .restore server => server ∈ past
  | _ => True

/-- Every step of the run puts its items in step with the tree. -/
def System.RunInStep (s : System) (past : List Server) : List Event → Prop
  | [] => True
  | e :: events =>
    e.Real past ∧ s.StepPuts idLe ownerUserId (RemoteTree.InStep past) e ∧
      ∀ mid, s.Step idLe ownerUserId e mid → mid.RunInStep (mid.server :: past) events

end InStep

end Staaash.Remote

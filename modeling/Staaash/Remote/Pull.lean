import Staaash.Feed.ChangeLog
import Staaash.Remote.Server

/-!
# Reading the feed

`SyncEngine.pull` beside everything that may happen meanwhile: the server goes on, calls fail, the
handlers of a pair record the answers they get, pairs change, the app is started again. A pull is a
list of tasks; one step makes the next call and handles its answer.
-/

namespace Staaash.Remote

open Staaash.Library
open Staaash.Planner
open Staaash.Feed (ChangeLog Page currentStorageChangeCursor readStorageChanges)

/-! ## The server -/

/-- The folder that a row names as its parent. -/
def Table.up (table : Table) (id : String) : Option String := (table.get id).bind (·.parentId)

/-- The rows of one moment. No folder lies inside itself. -/
structure Moment where
  table : Table
  acyclic : Acyclic table.up

/-- The rows and the change log. -/
structure Server where
  now : Moment
  log : ChangeLog StorageChange

/-- A mutation commits: the rows it touches change, and the log says so. -/
def Server.commit (s : Server) (ownerUserId : String) (after : Moment) (entities : List ItemKey)
    (skipped : Nat) (createdAt : Int) : Server where
  now := after
  log := s.log.append skipped ((commitEntries s.now.table after.table entities).map
    fun change => ⟨ownerUserId, createdAt, change⟩)

/-! ## The engine -/

structure SyncPair where
  id : String
  remoteFolderId : String
deriving DecidableEq, Repr

/-- What a pull still has to do. -/
inductive PullTask
  /-- The pair starts from a snapshot if it is seen for the first time. -/
  | pairIfNew (pair : SyncPair)
  | pair (pair : SyncPair)
  /-- A folder came into view. -/
  | reveal (folderId : String)
  | changes
  /-- The page has been dealt with. -/
  | endPage (cursor : Nat) (hasMore : Bool)
deriving DecidableEq, Repr

/-- The pages of a snapshot that were read. -/
structure Fetched where
  items : List RemoteItem
  changeCursor : Option Nat
  last : Option SnapshotItem
deriving DecidableEq, Repr

def Fetched.none : Fetched := ⟨[], .none, .none⟩

/-- A pull that is running, with the pairs it started with. -/
structure Pulling where
  pairs : List SyncPair
  todo : List PullTask
  fetched : Fetched
deriving DecidableEq, Repr

structure Engine where
  tree : RemoteTree
  pairs : List SyncPair
  /-- The saved cursor and flags. -/
  cursor : Option Nat
  ready : List String
  gone : List String
  pulling : Option Pulling
deriving DecidableEq

namespace Engine

/-- The app as it is installed. -/
def start : Engine := ⟨.empty [], [], none, [], [], none⟩

def pull (e : Engine) : Engine :=
  match e.pulling with
  | some _ => e
  | none => { e with pulling := some ⟨e.pairs, e.pairs.map .pairIfNew ++ [.changes], .none⟩ }

/-- A call fails and the pull throws; what is saved stays. -/
def fail (e : Engine) : Engine := { e with pulling := none }

/-- The pull goes on with `todo`. -/
def goOn (e : Engine) (p : Pulling) (todo : List PullTask) : Engine :=
  { e with pulling := if todo = [] then none else some ⟨p.pairs, todo, .none⟩ }

def lowerCursor (e : Engine) (value : Nat) : Engine :=
  match e.cursor with
  | none => { e with cursor := some value }
  | some current => if value < current then { e with cursor := some value } else e

/-- The end of `snapshotPair`. -/
def takeSnapshot (e : Engine) (fuel : Nat) (pair : SyncPair) (fetched : Fetched) : Option Engine :=
  (e.tree.replaceUnder fuel pair.remoteFolderId fetched.items).map fun tree =>
    { { e with tree }.lowerCursor (fetched.changeCursor.getD 0) with
      ready := if pair.id ∈ e.ready then e.ready else pair.id :: e.ready
      gone := e.gone.filter (· ≠ pair.id) }

/-- `roots.get(itemId)`: a later pair of the same folder takes its place. -/
def pairOf (pairs : List SyncPair) (itemId : String) : Option String :=
  (pairs.reverse.find? fun pair => pair.remoteFolderId = itemId).map (·.id)

/-- The flags of a pair whose folder a change is about. -/
def flag (e : Engine) (pairs : List SyncPair) (change : StorageChange) : Engine :=
  match pairOf pairs change.itemId, change.kind with
  | some pairId, .trashed | some pairId, .deleted =>
    { e with gone := if pairId ∈ e.gone then e.gone else pairId :: e.gone }
  | some pairId, .restored => { e with ready := e.ready.filter (· ≠ pairId) }
  | _, _ => e

/-- Applies the changes of a page; the folders that came into view are collected. -/
def applyPage (e : Engine) (fuel : Nat) (pairs : List SyncPair) :
    List StorageChange → Option (Engine × List String)
  | [] => some (e, [])
  | change :: changes =>
    (e.tree.apply fuel change).bind fun (tree, folder) =>
      ({ e.flag pairs change with tree }.applyPage fuel pairs changes).map fun (e, reveal) =>
        (e, folder.toList ++ reveal)

/-- The answer of `GET /api/sync/changes`. -/
def takeChanges (e : Engine) (fuel : Nat) (p : Pulling) (rest : List PullTask) :
    Except Feed.ReadError (Page StorageChange) → Option Engine
  | .ok page =>
    (e.applyPage fuel p.pairs (page.changes.map (·.change))).map fun (e, reveal) =>
      e.goOn p (reveal.map .reveal ++ p.pairs.map .pairIfNew ++
        .endPage page.cursor page.hasMore :: rest)
  -- too old, or the server was restored to an earlier point: start over
  | .error .expired =>
    let restarted := { e with cursor := none, tree := e.tree.clear }
    some (restarted.goOn p (p.pairs.map .pair ++ .changes :: rest))
  | .error .noLastRow => some e.fail

/-- One page of the snapshot of `folderId`, of at most 5000 items; `none` when the folder is not
there. The first page's cursor is the one to go on from. -/
def fetch (idLe : String → String → Bool) (s : Server) (folderId : String) (fetched : Fetched) :
    Option (Fetched × Bool) :=
  (readStorageSnapshotPage idLe s.now.table folderId fetched.last 5000).map fun page =>
    (⟨fetched.items ++ page.items.map fromSnapshot,
      fetched.changeCursor.or (some (currentStorageChangeCursor s.log)), page.items.getLast?⟩,
      page.hasMore && page.items.getLast?.isSome)

/-- Reads the next page for a task; `done` handles the whole snapshot, `gone` a folder that is not
there. -/
def takePage (e : Engine) (idLe : String → String → Bool) (s : Server) (p : Pulling)
    (folderId : String) (gone : Engine) (done : Fetched → Option Engine) : Option Engine :=
  match fetch idLe s folderId p.fetched with
  | none => some gone
  | some (fetched, true) => some { e with pulling := some { p with fetched } }
  | some (fetched, false) => done fetched

/-- The next call of the pull that is running. -/
def next (e : Engine) (idLe : String → String → Bool) (ownerUserId : String) (s : Server)
    (fuel : Nat) : Option Engine :=
  match e.pulling with
  | none => some e
  | some p =>
    match p.todo with
    | [] => some e.fail
    | .pairIfNew pair :: rest =>
      if pair.id ∈ e.ready then some (e.goOn p rest) else some (e.goOn p (.pair pair :: rest))
    | .pair pair :: rest =>
      e.takePage idLe s p pair.remoteFolderId
        ({ e with gone := if pair.id ∈ e.gone then e.gone else pair.id :: e.gone }.goOn p rest)
        fun fetched => (e.takeSnapshot fuel pair fetched).map (·.goOn p rest)
    | .reveal folderId :: rest =>
      -- gone again since; a later change says so
      e.takePage idLe s p folderId (e.goOn p rest)
        fun fetched => some ({ e with tree := e.tree.addUnder fetched.items }.goOn p rest)
    | .changes :: rest =>
      e.takeChanges fuel p rest (readStorageChanges s.log ownerUserId (e.cursor.getD 0) 1000)
    | .endPage cursor hasMore :: rest =>
      some ({ e with cursor := some cursor }.goOn p (if hasMore then .changes :: rest else rest))

end Engine

/-! ## Runs -/

structure System where
  server : Server
  engine : Engine

inductive Event
  | commit (after : Moment) (entities : List ItemKey) (skipped : Nat) (createdAt : Int)
  /-- Old rows are deleted from the log. -/
  | prune (newest : Nat) (now : Int)
  /-- The server is restored to an earlier point. -/
  | restore (server : Server)
  | pull
  /-- The pull that is running makes its next call. -/
  | next
  /-- The call fails. -/
  | fail
  /-- A handler records an answer of the server. -/
  | set (item : RemoteItem)
  /-- A handler has sent an item to the server's trash. -/
  | removeSubtree (id : String)
  | configure (pairs : List SyncPair)
  /-- The app is started again, with the items its store holds. -/
  | restart

variable (idLe : String → String → Bool) (ownerUserId : String)

/-- The step of an event; `none` when a walk takes more than `fuel` visits. -/
def System.step (s : System) (fuel : Nat) : Event → Option System
  | .commit after entities skipped createdAt =>
    some { s with server := s.server.commit ownerUserId after entities skipped createdAt }
  | .prune newest now => some { s with server := { s.server with log := s.server.log.deleteMany newest now } }
  | .restore server => some { s with server }
  | .pull => some { s with engine := s.engine.pull }
  | .next => (s.engine.next idLe ownerUserId s.server fuel).map fun engine => { s with engine }
  | .fail => some { s with engine := s.engine.fail }
  | .set item =>
    (s.engine.tree.set fuel item).map fun tree => { s with engine := { s.engine with tree } }
  | .removeSubtree id =>
    (s.engine.tree.removeSubtree fuel id).map fun tree => { s with engine := { s.engine with tree } }
  | .configure pairs =>
    some { s with engine :=
      { s.engine with pairs, tree := s.engine.tree.setRoots (pairs.map (·.remoteFolderId)) } }
  | .restart =>
    some { s with engine :=
      { s.engine with
        pairs := []
        tree := .ofStore (s.engine.tree.items.entries.map Prod.snd) []
        pulling := none } }

/-- The event happens, and its step ends. -/
def System.Step (s : System) (e : Event) (s' : System) : Prop :=
  ∃ fuel, s.step idLe ownerUserId fuel e = some s'

/-- The events happen one after the other. -/
def System.Run (s : System) : List Event → System → Prop
  | [], s' => s' = s
  | e :: events, s' => ∃ mid, s.Step idLe ownerUserId e mid ∧ mid.Run events s'

end Staaash.Remote

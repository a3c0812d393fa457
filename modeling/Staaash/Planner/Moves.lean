import Staaash.Library.StableSort
import Staaash.Planner.Safety

/-!
# What becomes of what moved

A move is recognised for every entry by itself. It goes ahead unless one of its paths is excluded, or is or lies
below a path of a move that went ahead before it; otherwise it is dropped. A plan that has no move to make comes
to every path that is not mid-move. All of this is said of the two sides and the base, not of the planner's loops.
-/

namespace Staaash.Planner

open Staaash.Library (ComesBefore)

variable (P : Platform) (input : PlanInput)

/-! ## What is at a path -/

/-- The local entry under the key; of several the last one. -/
def LocalAt (k : Rel) (here : LocalFile) : Prop :=
  (input.locals.reverse.find? fun each => P.pathKey each.rel = k) = some here

/-- The server item under the key; of several the last one. -/
def ServerAt (k : Rel) (there : ScopedItem) : Prop :=
  (input.remote.reverse.find? fun each => P.pathKey each.rel = k) = some there

/-- The server item with the id; of several the last one. -/
def ItemWith (id : String) (there : ScopedItem) : Prop :=
  (input.remote.reverse.find? fun each => each.item.id = id) = some there

/-- The local entry with the inode that no base entry knows the path of; of several the last one. -/
def NewlyAt (ino : String) (moved : LocalFile) : Prop :=
  (input.locals.reverse.find? fun each =>
    each.ino = ino ∧ ¬ ∃ b ∈ input.base, P.pathKey b.rel = P.pathKey each.rel) = some moved

/-! ## Moves -/

/-- The item of the entry `b` moved to the path of `there`, and this computer can follow: it still has the entry
as it was, and nothing at the new path. -/
structure CanFollow (b : BaseEntry) (here : LocalFile) (there : ScopedItem) : Prop where
  mode : input.mode ≠ .upload
  item : ItemWith input b.remoteId there
  moved : P.pathKey there.rel ≠ P.pathKey b.rel
  stays : LocalAt P input (P.pathKey b.rel) here
  type : here.type = b.type
  free : FreeHere P input there.rel
  same : b.type = .file → here.size = b.size ∧ here.mtimeMs = b.mtimeMs ∧
    (b.ino = UNKNOWN_INO ∨ here.ino = b.ino)

/-- This computer moved the entry `b` to the path of `moved`, and the server can repeat it: it still has the item
at the old path, or half of the way, and nothing else at the new path. -/
structure CanRepeat (b : BaseEntry) (moved : LocalFile) (there : ScopedItem) : Prop where
  mode : input.mode ≠ .download
  missing : FreeHere P input b.rel
  known : b.ino ≠ UNKNOWN_INO
  item : ItemWith input b.remoteId there
  found : NewlyAt P input b.ino moved
  type : moved.type = b.type
  same : b.type = .file → moved.size = b.size ∧ moved.mtimeMs = b.mtimeMs
  stays : P.pathKey there.rel = P.pathKey b.rel ∨
    halfway (P.pathKey b.rel) (P.pathKey there.rel) (P.pathKey moved.rel) = true
  free : P.pathKey there.rel = P.pathKey moved.rel ∨ FreeThere P input moved.rel

/-- The entry moved to the path, on the server or here, and the other side can make the same move. -/
inductive MovesTo (b : BaseEntry) : Rel → Prop
  | onServer {here : LocalFile} {there : ScopedItem} (h : CanFollow P input b here there) :
    MovesTo b (P.pathKey there.rel)
  | onLocal {moved : LocalFile} {there : ScopedItem} (h : CanRepeat P input b moved there) :
    MovesTo b (P.pathKey moved.rel)

/-- A path of the entry's move: where it starts or where it goes. -/
def OfMove (b : BaseEntry) (k : Rel) : Prop := k = P.pathKey b.rel ∨ MovesTo P input b k

/-- The folder that the entry moved to is there on the side that has to follow. -/
inductive HasParent (b : BaseEntry) : Prop
  | onLocal {here : LocalFile} {there : ScopedItem} (h : CanFollow P input b here there)
    (parent : parentRel (P.pathKey there.rel) = [] ∨
      ∃ folder, LocalAt P input (parentRel (P.pathKey there.rel)) folder ∧ folder.type = .folder)
  | onServer {moved : LocalFile} {there : ScopedItem} (h : CanRepeat P input b moved there)
    (parent : parentRel (P.pathKey moved.rel) = [] ∨
      ∃ folder, ServerAt P input (parentRel (P.pathKey moved.rel)) folder ∧ folder.item.type = .folder)

/-! ## Moves that go ahead -/

/-- Entries have their turn by depth, and in the order of the base. -/
def ItsTurnIsBefore (j i : Nat) : Prop :=
  ∃ earlier later, input.base[j]? = some earlier ∧ input.base[i]? = some later ∧
    ComesBefore (fun b : BaseEntry => depth b.rel) (earlier, j) (later, i)

/-- The entry at the place `i` of the base moved, and neither path of its move is excluded, or is or lies below a
path of a move that goes ahead and has its turn before. -/
def GoesAhead (i : Nat) : Prop :=
  ∃ b, input.base[i]? = some b ∧ (∃ t, MovesTo P input b t) ∧ ∀ k, OfMove P input b k →
    NotExcluded P input k ∧ ∀ j, (hturn : ItsTurnIsBefore input j i) → GoesAhead j →
      ∀ c, input.base[j]? = some c → ∀ q, OfMove P input c q → q ≠ [] → ¬ AtOrBelow q k
termination_by ((input.base[i]?.map fun b => depth b.rel).getD 0, i)
decreasing_by
  obtain ⟨earlier, later, hj, hi, hdepth | ⟨hdepth, hplace⟩⟩ := hturn
  · rw [hj, hi]
    exact Prod.Lex.left _ _ hdepth
  · rw [hj, hi]
    have hsame : depth earlier.rel = depth later.rel := hdepth
    show Prod.Lex _ _ (depth earlier.rel, j) (depth later.rel, i)
    rw [hsame]
    exact Prod.Lex.right _ hplace

/-- The path is, or lies below, a path of a move that goes ahead. -/
def MidMove (k : Rel) : Prop :=
  ∃ i b, GoesAhead P input i ∧ input.base[i]? = some b ∧
    ∃ q, OfMove P input b q ∧ q ≠ [] ∧ AtOrBelow q k

/-- A side on which ten synced files were is empty, and nobody has said that it should be. -/
def Emptied : Prop :=
  input.allowEmptied = false ∧ 10 ≤ (input.base.filter fun b => b.type = .file).length ∧
    (input.locals = [] ∧ input.mode = .twoWay ∨ input.remote = [] ∧ input.mode ≠ .upload)

/-- The pair is not held for a side that was emptied, and every move that goes ahead waits for its folder: no move
can be made before the paths are gone through. -/
def NoMoveToMake : Prop :=
  ¬ Emptied input ∧ ∀ i b, GoesAhead P input i → input.base[i]? = some b → ¬ HasParent P input b

/-! ## Removed paths -/

/-- A synced path that is missing here and not found elsewhere, while the server still has it as it was: a file
with the content of the base, or a folder in which nothing is new or changed and no path is excluded. -/
structure RemovedHere (k : Rel) (there : ScopedItem) : Prop where
  mode : input.mode = .twoWay
  missing : ∀ each ∈ input.locals, P.pathKey each.rel ≠ k
  stays : ServerAt P input k there
  synced : ∃ previous, BaseAt P input k previous ∧ ¬ InodeElsewhere P input previous.ino ∧
    (there.item.type = .file → UnchangedThere there previous)
  inside : there.item.type = .folder → k ≠ [] →
    (∀ q each, Below k q → ServerAt P input q each → ∃ previous, BaseAt P input q previous ∧
      previous.remoteId = each.item.id ∧
      (each.item.type = .file → sameOnServer previous each.item = true)) ∧
    ∀ each ∈ input.allExcluded, each.side = .onRemote → ¬ Below k (P.pathKey each.rel)

/-- A synced path that is missing on the server and not found elsewhere, while this computer still has it as it
was. -/
structure RemovedThere (k : Rel) (here : LocalFile) : Prop where
  mode : input.mode ≠ .upload
  stays : LocalAt P input k here
  missing : ∀ each ∈ input.remote, P.pathKey each.rel ≠ k
  synced : ∃ previous, BaseAt P input k previous ∧ ¬ OnServer input previous.remoteId ∧
    (here.type = .file → UnchangedHere here previous)
  inside : here.type = .folder → k ≠ [] →
    (∀ q each, Below k q → LocalAt P input q each → ∃ previous, BaseAt P input q previous ∧
      previous.type = each.type ∧ (each.type = .file → sameStat each previous = true)) ∧
    ∀ each ∈ input.allExcluded, each.side = .onLocal → ¬ Below k (P.pathKey each.rel)

/-- A folder removed on either side. -/
def RemovedFolder (k : Rel) : Prop :=
  (∃ there, RemovedHere P input k there ∧ there.item.type = .folder) ∨
    ∃ here, RemovedThere P input k here ∧ here.type = .folder

/-- The path is not mid-move or excluded, and no folder above it that is in sight was removed. -/
structure ComesUp (k : Rel) : Prop where
  settled : ¬ MidMove P input k
  shown : NotExcluded P input k
  stays : ∀ p, p ≠ [] → Below p k → ¬ OutOfSight P input p → ¬ RemovedFolder P input p

/-! ## Whether a plan deletes what moved -/

/-- The entry's local path is missing, and its inode is found at another one. -/
def MovedHere (b : BaseEntry) : Prop := FreeHere P input b.rel ∧ InodeElsewhere P input b.ino

/-- The entry's server path is missing, and its item is found elsewhere. -/
def MovedThere (b : BaseEntry) : Prop := FreeThere P input b.rel ∧ OnServer input b.remoteId

/-- The server has the item `id` at the key `t`, in the pair or at a path sync leaves alone. -/
def ServerItemAt (id : String) (t : Rel) : Prop :=
  (∃ each ∈ input.remote, each.item.id = id ∧ P.pathKey each.rel = t) ∨
    ∃ each ∈ input.allExcluded, each.side = .onRemote ∧ each.remoteId = some id ∧
      P.pathKey each.rel = t

/-- This computer has an entry at the key `t`. -/
def LocalCopyAt (t : Rel) : Prop := ∃ each ∈ input.locals, P.pathKey each.rel = t

/-- No trash action of the plan removes what moved: neither the server item of an entry that moved
here, nor the local copy of an entry that moved on the server. -/
structure KeepsMoved : Prop where
  onServer : ∀ b ∈ input.base, MovedHere P input b → ∀ rel remote,
    .trashRemote rel remote ∈ (plan P input).actions →
    ∀ t, ServerItemAt P input b.remoteId t → ¬ AtOrBelow (P.pathKey rel) t
  onLocal : ∀ b ∈ input.base, MovedThere P input b → ∀ rel here,
    .trashLocal rel here ∈ (plan P input).actions →
    LocalCopyAt P input (P.pathKey b.rel) → ¬ AtOrBelow (P.pathKey rel) (P.pathKey b.rel)

/-- Where no move is to be made first, no removed path that comes up in sight is, or holds, the other copy of
something that moved. -/
def NothingMovedInRemoved : Prop :=
  NoMoveToMake P input → ∀ k, ComesUp P input k → ¬ OutOfSight P input k → ∀ b ∈ input.base,
    (MovedHere P input b → ∀ there, RemovedHere P input k there →
      ∀ t, ServerItemAt P input b.remoteId t → ¬ AtOrBelow k t) ∧
    (MovedThere P input b → ∀ here, RemovedThere P input k here →
      LocalCopyAt P input (P.pathKey b.rel) → ¬ AtOrBelow k (P.pathKey b.rel))

/-! ## Whether a plan trashes what was synced

Another object may have come to a synced path since the last sync, with another server id or another inode.
-/

/-- Every trash action of the plan is about the object of the base, not one that came in its place. -/
structure TrashesOnlySynced : Prop where
  onServer : ∀ rel remote, .trashRemote rel remote ∈ (plan P input).actions →
    ∃ previous, BaseAt P input (P.pathKey rel) previous ∧ previous.remoteId = remote.id ∧
      previous.type = remote.type
  onLocal : ∀ rel here, .trashLocal rel here ∈ (plan P input).actions →
    ∃ previous, BaseAt P input (P.pathKey rel) previous ∧ previous.type = here.type ∧
      (previous.ino ≠ UNKNOWN_INO → here.ino ≠ UNKNOWN_INO → previous.ino = here.ino)

/-- The server has something else at the synced path than was synced: a folder that was created again, or a thing
of another type. -/
def ReplacedThere (k : Rel) (there : ScopedItem) : Prop :=
  ∃ previous, BaseAt P input k previous ∧
    (there.item.type = .folder ∧ there.item.id ≠ previous.remoteId ∨ there.item.type ≠ previous.type)

/-- This computer has something else at the synced path than was synced. -/
def ReplacedHere (k : Rel) (here : LocalFile) : Prop :=
  ∃ previous, BaseAt P input k previous ∧
    (here.type = .folder ∧ previous.ino ≠ UNKNOWN_INO ∧ here.ino ≠ UNKNOWN_INO ∧ here.ino ≠ previous.ino ∨
      here.type ≠ previous.type)

/-- Where no move is to be made first, what one side removed is at no path that comes up in sight replaced on the
other side. -/
def NothingReplacedInRemoved : Prop :=
  NoMoveToMake P input → ∀ k, ComesUp P input k → ¬ OutOfSight P input k →
    (∀ there, RemovedHere P input k there → ¬ ReplacedThere P input k there) ∧
    ∀ here, RemovedThere P input k here → ¬ ReplacedHere P input k here

/-! ## Whether a move stays a move -/

/-- The action forgets a path, brings its file over, deletes it, or creates it on a side. -/
def Action.splits : Action → Bool
  | .mkdir _ _ => true
  | .createRemoteFolder _ _ => true
  | .download _ _ _ => true
  | .upload _ _ _ => true
  | .trashLocal _ _ => true
  | .trashRemote _ _ => true
  | .forget _ => true
  | _ => false

/-- No recognised move, whether it is made, waits or was dropped, is planned as a delete and a new
item: no action of the plan splits it at its source or at its target. -/
def MovesKeptWhole : Prop :=
  ∀ entry ∈ input.base, ∀ move, serverMove P (view P input) entry = some move ∨
      localMove P (view P input) entry = some move →
    ∀ a ∈ (plan P input).actions, a.splits = true →
      P.pathKey a.rel ≠ P.pathKey entry.rel ∧ P.pathKey a.rel ≠ move.target

/-- The file on this computer has other bytes than the one on the server, and just one of the two was changed
since the base, on a side that the mode takes changes from. -/
structure EditedOnOneSide (k : Rel) (here : LocalFile) (there : ScopedItem) (mine : Option String) : Prop where
  files : here.type = .file ∧ there.item.type = .file
  known : checksumOf here ((view P input).base.get k) = some mine
  differs : mine ≠ there.item.checksum
  changed : (localChanged ((view P input).base.get k) mine = true ∧
      remoteChanged ((view P input).base.get k) there = false ∧ input.mode ≠ .download) ∨
    (localChanged ((view P input).base.get k) mine = false ∧
      remoteChanged ((view P input).base.get k) there = true ∧ input.mode ≠ .upload)

/-- What took the old path of an item that moved on the server keeps the path from being split: another item
there, unless one of the two files was edited, or the local file alone, as long as it has to be hashed. -/
def OldPathTaken (k : Rel) (here : LocalFile) : Prop :=
  (∃ there, ServerAt P input k there ∧ ∀ mine, ¬ EditedOnOneSide P input k here there mine) ∨
    (∀ each ∈ input.remote, P.pathKey each.rel ≠ k) ∧ here.type = .file ∧ here.checksum = none ∧
      here.ino ≠ UNKNOWN_INO ∧ ∃ previous, BaseAt P input k previous ∧ previous.ino = UNKNOWN_INO

/-- A move that was dropped comes up at no path that would be split:
- of a move here, the new path comes up only out of sight or where the server has an item already, and the old
  path never does;
- of a move on the server, the new path comes up only out of sight and without a record, and the old path only in
  sight and taken. -/
structure DroppedMovesHidden : Prop where
  newHere : ∀ b ∈ input.base, ∀ moved there, CanRepeat P input b moved there →
    ComesUp P input (P.pathKey moved.rel) →
    OutOfSight P input (P.pathKey moved.rel) ∨ ¬ FreeThere P input moved.rel
  oldHere : ∀ b ∈ input.base, ∀ moved there, CanRepeat P input b moved there →
    ¬ ComesUp P input (P.pathKey b.rel)
  newThere : ∀ b ∈ input.base, ∀ here there, CanFollow P input b here there →
    ComesUp P input (P.pathKey there.rel) →
    OutOfSight P input (P.pathKey there.rel) ∧
      ∀ each ∈ input.base, P.pathKey each.rel ≠ P.pathKey there.rel
  oldThere : ∀ b ∈ input.base, ∀ here there, CanFollow P input b here there →
    ComesUp P input (P.pathKey b.rel) →
    ¬ OutOfSight P input (P.pathKey b.rel) ∧ OldPathTaken P input (P.pathKey b.rel) here

end Staaash.Planner

import Staaash.Pair.Modes
import Staaash.Planner.Moves

/-!
# Plans of moves

Moves come first and alone, so a move that cannot be made holds up every other path of the pair. What
is needed to make a move, what making it leaves for the next plan, and which moves go into
themselves.
-/

namespace Staaash.Pair

open Staaash.Planner

variable (P : Platform)

/-! ## Making a move -/

/-- A folder that an entry of this computer can be put into: the pair's own, or a local one. -/
def LocalParent (input : PlanInput) (rel : Rel) : Prop :=
  parentRel (P.pathKey rel) = [] ∨
    ∃ folder ∈ input.locals, P.pathKey folder.rel = parentRel (P.pathKey rel) ∧
      folder.type = .folder

/-- A folder that the server item `there` can be put into: the pair's own, or one that is neither the
item nor inside it. -/
def RemoteParent (input : PlanInput) (there : ScopedItem) (rel : Rel) : Prop :=
  parentRel (P.pathKey rel) = [] ∨
    (∃ folder ∈ input.remote, P.pathKey folder.rel = parentRel (P.pathKey rel) ∧
      folder.item.type = .folder) ∧ ¬ AtOrBelow (P.pathKey there.rel) (parentRel (P.pathKey rel))

/-- What the disk needs to rename `source` to `target`. -/
structure CanMoveLocal (input : PlanInput) (source target : Rel) : Prop where
  present : ∃ here ∈ input.locals, P.pathKey here.rel = P.pathKey source
  apart : ¬ AtOrBelow (P.pathKey source) (P.pathKey target)
  free : FreeHere P input target
  parent : LocalParent P input target

/-- The path of an entry after `source` became `target`. -/
def follow (source target rel : Rel) : Rel :=
  if atOrBelow source rel then movedRel source target rel else rel

/-- The paths sync leaves alone on one side move with their folders. -/
def followExcluded (side : Side) (source target : Rel) (each : Excluded) : Excluded :=
  if each.side = side then { each with rel := follow source target each.rel } else each

/-- An answer that comes back. -/
def sees (stat : Option LocalFile) : Answer :=
  { ends := .returns, stat, item := none, id := none, checksum := "", name := [], yes := false }

/-- A local move made without error or interference: the disk renames the tree, and the handler finds
the target free before and the moved entry after. -/
structure MakesLocal (source target : Rel) (remote : RemoteItem) (moved : LocalFile)
    (before after : PlanInput) : Prop where
  can : CanMoveLocal P before source target
  mem : moved ∈ after.locals ∧ moved.rel = target
  leaves : after =
    { before with
      locals := before.locals.map fun each =>
        { each with rel := follow source target each.rel }
      excluded := before.excluded.map (followExcluded .onLocal source target)
      base := ((Desk.fresh before.pairId before.base).execute (.moveLocal source target remote)
        [sees none, sees none, sees none, sees (some moved), sees none]).base }

/-- A server move made without error or interference: the server puts the item, which it answers with
as `item`, and everything below at the new path, and every call of the handler comes back. -/
structure MakesRemote (source target : Rel) (entry : BaseEntry) (here : LocalFile)
    (there : ScopedItem) (item : RemoteItem) (answers : List Answer)
    (before after : PlanInput) : Prop where
  mem : there ∈ before.remote ∧ there.item.id = entry.remoteId
  parent : RemoteParent P before there target
  kept : item.id = there.item.id ∧ item.type = there.item.type
  returned : ∀ a ∈ answers, a.ends = .returns
  known : ∃ tree parent rest, answers = tree :: parent :: rest ∧ tree.item = some there.item ∧
    parent.id.isSome = true ∧ 6 ≤ rest.length
  leaves : after =
    { before with
      remote := before.remote.map fun each =>
        if each.item.id = entry.remoteId then { rel := target, item }
        else { each with rel := follow there.rel target each.rel }
      skipped := before.skipped.map fun each =>
        { each with rel := follow there.rel target each.rel }
      excluded := before.excluded.map (followExcluded .onRemote there.rel target)
      base := ((Desk.fresh before.pairId before.base).execute
        (.moveRemote source target entry here) answers).base }

/-- One move of a plan, made without error or interference. -/
inductive Makes : Action → PlanInput → PlanInput → Prop
  | onLocal {source target remote moved before after}
      (h : MakesLocal P source target remote moved before after) :
      Makes (.moveLocal source target remote) before after
  | onServer {source target entry here there item answers before after}
      (h : MakesRemote P source target entry here there item answers before after) :
      Makes (.moveRemote source target entry here) before after

/-- Moves made one after the other, as a round runs them. -/
inductive MakesAll : List Action → PlanInput → PlanInput → Prop
  | nil {input} : MakesAll [] input input
  | cons {a as before between after} (h : Makes P a before between)
      (hs : MakesAll as between after) : MakesAll (a :: as) before after

def isMove : Action → Bool
  | .moveLocal _ _ _ => true
  | .moveRemote _ _ _ _ => true
  | _ => false

variable (input : PlanInput)

/-- Every planned move can be made, and a plan of moves alone, once they were made, is not planned
again. -/
structure MovesCanBeMade : Prop where
  onLocal : ∀ source target remote, .moveLocal source target remote ∈ (plan P input).actions →
    CanMoveLocal P input source target
  onServer : ∀ source target entry here,
    .moveRemote source target entry here ∈ (plan P input).actions →
    ∃ there, (view P input).remoteById.get entry.remoteId = some there ∧
      RemoteParent P input there target
  progress : (plan P input).actions ≠ [] → (∀ a ∈ (plan P input).actions, isMove a = true) →
    ∀ after, MakesAll P (plan P input).actions input after →
      (plan P after).actions ≠ (plan P input).actions

/-! ## Moves into themselves -/

/-- The server has the entry's item below the path where this computer still has it. -/
def InsideItsOldPath (b : BaseEntry) : Prop :=
  (∃ here, LocalAt P input (P.pathKey b.rel) here) ∧
    ∃ there, ItemWith input b.remoteId there ∧ Below (P.pathKey b.rel) (P.pathKey there.rel)

/-- This computer has moved the entry into a folder whose path on the server is, or lies below, that
of the entry's own item. -/
def InsideItsOwnItem (b : BaseEntry) : Prop :=
  FreeHere P input b.rel ∧
    ∃ moved there, NewlyAt P input b.ino moved ∧ ItemWith input b.remoteId there ∧
      parentRel (P.pathKey moved.rel) ≠ [] ∧
      AtOrBelow (P.pathKey there.rel) (parentRel (P.pathKey moved.rel))

/-- Unless the pair is held, no move that goes ahead and has its folder goes into itself. -/
def NoMoveIntoItself : Prop :=
  ¬ Emptied input → ∀ i b, GoesAhead P input i → input.base[i]? = some b → HasParent P input b →
    ¬ InsideItsOldPath P input b ∧ ¬ InsideItsOwnItem P input b

end Staaash.Pair

import Staaash.Pair.Modes
import Staaash.Planner.Moves
import Mathlib.Logic.Relation

/-!
# The base table over passes

The base table is keyed by the spelling of a path, while the planner compares paths by their key. A
pass plans from the two sides as they are then and from the whole table, and runs handlers of the
plan; a run is any number of passes.
-/

namespace Staaash.Pair

open Staaash.Planner

/-- Normalising and lower-casing do not reach across a `/`. -/
structure Segmentwise (P : Platform) : Prop where
  normalizeNfc : ∀ a b, P.normalizeNfc (a ++ '/' :: b) =
    P.normalizeNfc a ++ '/' :: P.normalizeNfc b
  toLowerCase : ∀ a b, P.toLowerCase (a ++ '/' :: b) = P.toLowerCase a ++ '/' :: P.toLowerCase b

variable (P : Platform)

/-! ## Passes -/

/-- One plan and the handlers that were run for it, in the order of their changes of the table. -/
structure Pass where
  input : PlanInput
  runs : List (Action × List Answer)

/-- The table after a pass. -/
def Pass.leaves (p : Pass) (base : List BaseEntry) : List BaseEntry :=
  ((Desk.fresh p.input.pairId base).executeAll p.runs).base

def tableAfter (base : List BaseEntry) (passes : List Pass) : List BaseEntry :=
  passes.foldl (fun base p => p.leaves base) base

/-- The pass plans from the table, in whatever order its rows are read, and runs what it planned. -/
def Pass.PlansFrom (p : Pass) (base : List BaseEntry) : Prop :=
  p.input.base.Perm base ∧ OfPlan P p.input p.runs

instance (p : Pass) (base : List BaseEntry) : Decidable (p.PlansFrom P base) :=
  inferInstanceAs (Decidable (p.input.base.Perm base ∧ ∀ run ∈ p.runs, _))

def PassesFrom : List BaseEntry → List Pass → Prop
  | _, [] => True
  | base, p :: ps => p.PlansFrom P base ∧ PassesFrom (p.leaves base) ps

/-! ## Spelling -/

variable (input : PlanInput)

/-- The planner names a path as it is spelled here, and a path that is missing here as on the server. -/
inductive NamedAs (k : Rel) : Rel → Prop
  | here {each : LocalFile} (h : LocalAt P input k each) : NamedAs k each.rel
  | there {each : ScopedItem} (missing : ∀ other ∈ input.locals, P.pathKey other.rel ≠ k)
    (h : ServerAt P input k each) : NamedAs k each.rel

/-- The entry was moved, and the path it was moved to is spelled like this. -/
inductive Renames (b : BaseEntry) : Rel → Prop
  | onServer {here : LocalFile} {there : ScopedItem} (h : CanFollow P input b here there) : Renames b there.rel
  | onLocal {moved : LocalFile} {there : ScopedItem} (h : CanRepeat P input b moved there) : Renames b moved.rel

/-- A move that goes ahead and has its folder takes a row from the one path to the other. -/
def MovesRow (source target : Rel) : Prop :=
  ∃ i b moveTo, GoesAhead P input i ∧ input.base[i]? = some b ∧ HasParent P input b ∧ Renames P input b moveTo ∧
    atOrBelow b.rel source = true ∧ target = movedRel b.rel moveTo source

/-- The base spells paths as the two sides do, and moves lead to no second spelling:
- a row is spelled like every path that the planner names, if it is the row of that path or below it;
- where the moves of the pass take a row, no other row is, or is taken, in another spelling. -/
structure SpelledAlike : Prop where
  named : ∀ row ∈ input.base, ∀ k rel, NamedAs P input k rel → AtOrBelow k (P.pathKey row.rel) →
    atOrBelow rel row.rel = true
  moved : ∀ row ∈ input.base, ∀ rel, Relation.TransGen (MovesRow P input) row.rel rel →
    ∀ other ∈ input.base, ∀ rel', Relation.ReflTransGen (MovesRow P input) other.rel rel' →
      P.pathKey rel = P.pathKey rel' → rel = rel'

/-! ## What the table is promised to be -/

/-- No two rows for one key. -/
def Unique (base : List BaseEntry) : Prop :=
  base.Pairwise fun a b => P.pathKey a.rel ≠ P.pathKey b.rel

instance (base : List BaseEntry) : Decidable (Unique P base) :=
  inferInstanceAs (Decidable (base.Pairwise _))

/-- Neither side has the path any more. -/
def GoneFromBoth (key : Rel) : Prop :=
  (∀ each ∈ input.locals, P.pathKey each.rel ≠ key) ∧
    ∀ each ∈ input.remote, P.pathKey each.rel ≠ key

/-- The action is planned for the row: it forgets its path, or trashes it or a folder above. -/
def PlannedFor (row : BaseEntry) : Action → Prop
  | .forget rel => P.pathKey rel = P.pathKey row.rel
  | .trashLocal rel _ =>
    P.pathKey row.rel = P.pathKey rel ∨ Below (P.pathKey rel) (P.pathKey row.rel)
  | .trashRemote rel _ =>
    P.pathKey row.rel = P.pathKey rel ∨ Below (P.pathKey rel) (P.pathKey row.rel)
  | _ => False

/-- A plan that is neither held nor busy with moves has an action for every row of a path that
neither side has, unless the path waits for a move or is left out. -/
def PlansRemoval : Prop :=
  ∀ row ∈ input.base, GoneFromBoth P input (P.pathKey row.rel) → NoMoveToMake P input →
    ¬ MidMove P input (P.pathKey row.rel) → NotExcluded P input (P.pathKey row.rel) →
    ∃ a ∈ (plan P input).actions, PlannedFor P row a

/-- What handlers have changed in the store. -/
def Desk.stored (d : Desk) : List StoreChange :=
  d.changes.filterMap fun
    | .inStore c => some c
    | _ => none

/-- Once the handler of the action that is planned for a row of a path that neither side has has changed the store,
there is no row for the path any more, and the pass leaves none. -/
def RemovesPlanned (base : List BaseEntry) (p : Pass) : Prop :=
  ∀ row ∈ base, GoneFromBoth P p.input (P.pathKey row.rel) →
    ∀ before a answers after, p.runs = before ++ (a, answers) :: after → PlannedFor P row a →
      let d := (Desk.fresh p.input.pairId base).executeAll before
      (d.execute a answers).stored ≠ d.stored →
        ∀ each ∈ p.leaves base, P.pathKey each.rel ≠ P.pathKey row.rel

/-- One row a key, and rows of paths that are gone are removed as planned, by every pass. -/
structure Tidy (passes : List Pass) : Prop where
  unique : Unique P (tableAfter [] passes)
  planned : ∀ p ∈ passes, PlansRemoval P p.input
  removed : ∀ before p after, passes = before ++ p :: after →
    RemovesPlanned P (tableAfter [] before) p

end Staaash.Pair

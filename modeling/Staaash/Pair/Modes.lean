import Staaash.Pair.Handlers
import Staaash.Planner.Safety

/-!
# What a mode allows

An upload-only pair leaves the computer alone and deletes nothing on the server; a download-only pair
leaves the server alone. Stated for the kinds of the planned actions and for everything the handlers
of a plan can change.
-/

namespace Staaash.Pair

open Staaash.Planner

/-- The paths an action names. -/
def pathsOf : Action → List Rel
  | .moveLocal source target _ => [source, target]
  | .moveRemote source target _ _ => [source, target]
  | .mkdir rel _ => [rel]
  | .createRemoteFolder rel _ => [rel]
  | .download rel _ _ => [rel]
  | .upload rel _ _ => [rel]
  | .keepMine rel _ _ => [rel]
  | .conflictCopy rel _ _ _ => [rel]
  | .trashLocal rel _ => [rel]
  | .trashRemote rel _ => [rel]
  | .link rel _ _ => [rel]
  | .forget rel => [rel]

/-- An action of an upload-only pair. -/
def uploads : Action → Bool
  | .moveRemote _ _ _ _ => true
  | .createRemoteFolder _ _ => true
  | .upload _ _ _ => true
  | .keepMine _ _ _ => true
  | .link _ _ _ => true
  | .forget _ => true
  | _ => false

/-- An action of a download-only pair. -/
def downloads : Action → Bool
  | .moveLocal _ _ _ => true
  | .mkdir _ _ => true
  | .download _ _ _ => true
  | .conflictCopy _ _ localOnly _ => localOnly
  | .trashLocal _ _ => true
  | .link _ _ _ => true
  | .forget _ => true
  | _ => false

/-- The server file whose bytes a change sends to the trash. -/
def ServerChange.takesAway : ServerChange → Option String
  | .keepMine id _ _ => some id
  | .trash id _ => some id
  | _ => none

/-- The change leaves the computer alone, and takes a file away from the server only where the plan
keeps the local version instead of it. -/
def BackupOnly (actions : List Action) : Change → Prop
  | .onLocal _ => False
  | .onServer c => ∀ id, c.takesAway = some id →
      ∃ rel here remote, Action.keepMine rel here remote ∈ actions ∧ remote.id = id
  | .inStore _ => True
  | .inTree _ => True

/-- The change leaves the server alone. -/
def LeavesServer : Change → Prop
  | .onServer _ => False
  | _ => True

variable (P : Platform) (input : PlanInput)

/-- The runs of handlers of a plan: any of its actions, in any order, with any answers. -/
def OfPlan (runs : List (Action × List Answer)) : Prop :=
  ∀ run ∈ runs, run.1 ∈ (plan P input).actions

/-- What a plan and its execution keep to. -/
structure Confined : Prop where
  uploads : input.mode = .upload → ∀ a ∈ (plan P input).actions, Pair.uploads a = true
  backup : input.mode = .upload → ∀ runs, OfPlan P input runs →
    ∀ c ∈ ((Desk.fresh input.pairId input.base).executeAll runs).changes,
      BackupOnly (plan P input).actions c
  downloads : input.mode = .download → ∀ a ∈ (plan P input).actions, Pair.downloads a = true
  leavesServer : input.mode = .download → ∀ runs, OfPlan P input runs →
    ∀ c ∈ ((Desk.fresh input.pairId input.base).executeAll runs).changes, LeavesServer c
  notExcluded : ∀ a ∈ (plan P input).actions, ∀ rel ∈ pathsOf a,
    NotExcluded P input (P.pathKey rel)

end Staaash.Pair

import Staaash.Pair.Modes
import Staaash.Pair.Proofs.HandlersProofs
import Staaash.Planner.Proofs.PlanProofs

/-!
# Proofs: modes confine plans and their execution
-/

namespace Staaash.Pair

open Staaash.Library Staaash.Library.Proc
open Staaash.Planner

variable {P : Platform} {input : PlanInput} {ok : Change → Prop}

/-! ## Handlers -/

/-- The handlers of a download-only pair change nothing but the computer and the store. -/
theorem only_of_downloads (hstore : ∀ c, ok (.inStore c)) (hlocal : ∀ c, ok (.onLocal c))
    {a : Action} (ha : downloads a = true) : Only ok (handler a) := by
  cases a <;> simp only [downloads, Bool.false_eq_true] at ha <;>
    simp only [handler, moveLocal, mkdir, download, conflictCopy, trashLocal, downloadToTemp,
      verify, setAside]
  -- what is left are sequences of calls and branches
  all_goals repeat' first
    | exact only_pure _
    | exact only_ask
    | exact only_statLocal
    | exact only_get
    | exact only_throw
    | exact only_change (hlocal _)
    | exact only_store (hstore _)
    | exact only_record fun _ _ => hstore _
    | refine Only.bind ?_ fun _ => ?_
    | split

/-- The handlers of an upload-only pair change nothing but the server, the store and the tree, and
only `keepMine` takes a file away, the one it is about. -/
theorem only_of_uploads {actions : List Action} {a : Action} (ha : uploads a = true)
    (hmem : a ∈ actions) : Only (BackupOnly actions) (handler a) := by
  have hstore : ∀ c, BackupOnly actions (.inStore c) := fun _ => trivial
  have htree : ∀ c, BackupOnly actions (.inTree c) := fun _ => trivial
  have hserver : ∀ c : ServerChange, c.takesAway = none → BackupOnly actions (.onServer c) := by
    intro c hc id hid
    rw [hc] at hid
    cases hid
  have hkeep : ∀ rel here remote, a = .keepMine rel here remote →
      ∀ rev copyId, BackupOnly actions (.onServer (.keepMine remote.id rev copyId)) := by
    rintro rel here remote rfl rev copyId id hid
    exact ⟨rel, here, remote, hmem, Option.some.inj hid⟩
  cases a <;> simp only [uploads, Bool.false_eq_true] at ha <;>
    simp only [handler, moveRemote, createRemoteFolder, upload, keepMine, moveItem, renameItem]
  all_goals repeat' first
    | exact only_pure _
    | exact only_ask
    | exact only_statLocal
    | exact only_remoteIdAt
    | exact only_store (hstore _)
    | exact only_tree (htree _)
    | exact only_record fun _ _ => hstore _
    | exact only_onServer (hserver _ rfl)
    | exact only_onServer (hkeep _ _ _ rfl _ _)
    | refine Only.bind ?_ fun _ => ?_
    | split

/-! ## Plans -/

theorem localMove_mode {v : View} {entry : BaseEntry} {move : Move}
    (h : localMove P v entry = some move) : v.mode ≠ .download := by
  simp only [localMove] at h
  split_ifs at h with h0
  simp only [Bool.or_eq_true, not_or, decide_eq_true_eq] at h0
  exact h0.1.1

theorem fileOnBothSides_localOnly {v : View} {cell : Cell} {here : LocalFile} {there : ScopedItem}
    {mine : Option String} {rel : Rel} {local' : LocalFile} {localOnly : Bool}
    {unverified : Option Unverified} (hmode : v.mode = .download)
    (h : fileOnBothSides v cell here there mine =
      some (.conflictCopy rel local' localOnly unverified)) : localOnly = true := by
  simp only [fileOnBothSides, hmode] at h
  split_ifs at h <;> simp_all

/-- A conflict copy stays on this computer in a download-only pair. -/
theorem decide_localOnly {v : View} {cell : Cell} {dirty : BySide} {needsHash : List LocalFile}
    {rel : Rel} {here : LocalFile} {localOnly : Bool} {unverified : Option Unverified}
    (hmode : v.mode = .download)
    (h : (Planner.decide v cell dirty needsHash).1.action =
      some (.conflictCopy rel here localOnly unverified)) : localOnly = true := by
  have hboth : ∃ here there, cell.here = some here ∧ cell.there = some there := by
    have houtcome := decide_outcome h
    generalize (Planner.decide v cell dirty needsHash).1.gone = gone at houtcome
    cases houtcome with
    | clash hh ht _ _ => exact ⟨_, _, hh, ht⟩
    | conflictCopy hh ht _ _ _ _ => exact ⟨_, _, hh, ht⟩
  obtain ⟨mine, there, hh, ht⟩ := hboth
  simp only [Planner.decide, hh, ht] at h
  split_ifs at h
  · simp_all
  · simp_all [Decision.only]
  · simp only [planFolder, hh, ht, folderOnBothSides] at h
    split_ifs at h <;> simp [Decision.only] at h
  · split at h
    · cases h
    · exact fileOnBothSides_localOnly hmode h

/-- What a path of the walk can be planned for, by mode. -/
theorem outcome_confined {v : View} {cell : Cell} {dirty : BySide} {a : Action} {gone : Bool}
    (h : Outcome v cell dirty a gone) :
    (v.mode = .upload → uploads a = true) ∧
      (v.mode = .download → (∀ rel here localOnly unverified,
        a = .conflictCopy rel here localOnly unverified → localOnly = true) →
        downloads a = true) := by
  cases h with
  | clash hh ht hne hm => exact ⟨fun h => absurd h hm, fun _ hcopy => hcopy _ _ _ _ rfl⟩
  | conflictCopy hh ht hf hft hc hm =>
    exact ⟨fun h => absurd h hm, fun _ hcopy => hcopy _ _ _ _ rfl⟩
  | _ => simp_all [uploads, downloads]

theorem move_confined {v : View} {entry : BaseEntry} {move : Move} {a : Action}
    (h : recognisedMove P v entry = some move) (ha : move.action = some a) :
    (v.mode = .upload → uploads a = true) ∧ (v.mode = .download → downloads a = true) := by
  rcases recognisedMove_cases h with h | h
  · obtain ⟨here, onServer, hfollows, rfl⟩ := serverMove_action h ha
    exact ⟨fun hm => absurd hm hfollows.mode, fun _ => rfl⟩
  · obtain ⟨_, _, _, _, _, _, rfl⟩ := localMove_action h ha
    exact ⟨fun _ => rfl, fun hm => absurd hm (localMove_mode h)⟩

/-- The kinds of a plan's actions, by mode. -/
theorem plan_kinds {a : Action} (h : a ∈ (plan P input).actions) :
    (input.mode = .upload → uploads a = true) ∧ (input.mode = .download → downloads a = true) := by
  obtain ⟨-, ⟨-, hm⟩ | ⟨-, hw⟩⟩ := mem_plan_actions.mp h
  · obtain ⟨entry, -, move, hmove, ha⟩ := of_mem_planMoves hm
    exact move_confined hmove ha
  · obtain ⟨k, -, ⟨-, previous, -, rfl⟩ | ⟨-, hc⟩⟩ := mem_walk_actions.mp hw
    · exact ⟨fun _ => rfl, fun _ => rfl⟩
    · obtain ⟨hup, hdown⟩ := outcome_confined (decide_outcome hc)
      refine ⟨hup, fun hmode => hdown hmode ?_⟩
      rintro rel here localOnly unverified rfl
      exact decide_localOnly hmode hc

/-! ## Excluded paths -/

theorem target_of_followsServer {v : View} {entry : BaseEntry} {move : Move} {here : LocalFile}
    {onServer : ScopedItem} (h : serverMove P v entry = some move)
    (hfollows : FollowsServer P v entry here onServer) : move.target = P.pathKey onServer.rel := by
  simp only [serverMove, hfollows.item, hfollows.stays] at h
  generalize (if entry.ino = UNKNOWN_INO then { entry with ino := here.ino } else entry) = known at h
  split_ifs at h <;> exact (congrArg Move.target (Option.some.inj h)).symm

theorem localMove_target {v : View} {entry : BaseEntry} {move : Move} {moved : LocalFile}
    (h : localMove P v entry = some move) (hmoved : v.localByIno.get entry.ino = some moved) :
    move.target = P.pathKey moved.rel := by
  simp only [localMove, hmoved] at h
  split_ifs at h
  cases hs : v.remoteById.get entry.remoteId with
  | none => simp [hs] at h
  | some onServer =>
    simp only [hs] at h
    split_ifs at h <;> exact (congrArg Move.target (Option.some.inj h)).symm

theorem move_paths {entry : BaseEntry} {move : Move} {a : Action}
    (h : recognisedMove P (view P input) entry = some move) (ha : move.action = some a) :
    ∀ rel ∈ pathsOf a, P.pathKey rel = P.pathKey entry.rel ∨ P.pathKey rel = move.target := by
  rcases recognisedMove_cases h with h | h
  · obtain ⟨here, onServer, hfollows, rfl⟩ := serverMove_action h ha
    intro rel hrel
    rcases List.mem_cons.1 hrel with rfl | hrel
    · exact .inl (of_locals_get hfollows.stays).2
    · rw [List.mem_singleton.1 hrel]
      exact .inr (target_of_followsServer h hfollows).symm
  · obtain ⟨moved, _, _, hmoved, _, _, rfl⟩ := localMove_action h ha
    intro rel hrel
    rcases List.mem_cons.1 hrel with rfl | hrel
    · exact .inl rfl
    · rw [List.mem_singleton.1 hrel]
      exact .inr (localMove_target h hmoved).symm

theorem outcome_paths {k : Rel} {a : Action} {gone : Bool} (hk : k ∈ planKeys (view P input))
    (h : Outcome (view P input) (cellAt (view P input) k) (dirtySides (view P input)) a gone) :
    ∀ rel ∈ pathsOf a, P.pathKey rel = k := by
  have hrel := pathKey_cellAt_rel hk
  cases h with
  | mkdir hh ht hf hm =>
    intro rel hmem
    rw [List.mem_singleton.1 hmem]
    exact (of_remote_get ht).2
  | downloadNew hh ht hf hm =>
    intro rel hmem
    rw [List.mem_singleton.1 hmem]
    exact (of_remote_get ht).2
  | _ =>
    intro rel hmem
    rw [List.mem_singleton.1 hmem]
    exact hrel

theorem plan_notExcluded {a : Action} (h : a ∈ (plan P input).actions) {rel : Rel}
    (hrel : rel ∈ pathsOf a) : NotExcluded P input (P.pathKey rel) := by
  obtain ⟨-, ⟨-, hm⟩ | ⟨-, hw⟩⟩ := mem_plan_actions.mp h
  · obtain ⟨entry, -, move, hmove, ha, hkey, htarget⟩ := of_mem_planMoves_free hm
    rcases move_paths hmove ha rel hrel with heq | heq
    · exact heq ▸ notExcluded_of_covered hkey
    · exact heq ▸ notExcluded_of_covered htarget
  · obtain ⟨k, hk, ⟨previous, hget, rfl⟩ | ⟨gone, houtcome⟩⟩ := outcome_of_mem_walk hw
    · rw [List.mem_singleton.1 hrel, (of_base_get hget).2]
      exact hk.notExcluded
    · rw [outcome_paths hk.1 houtcome rel hrel]
      exact hk.notExcluded

/-- Every plan, and every execution of it, keeps to the pair's mode and to the paths that sync does
not leave alone. -/
theorem plan_confined (P : Platform) (input : PlanInput) : Confined P input := by
  have hfresh : ∀ ok : Change → Prop, Allowed ok (Desk.fresh input.pairId input.base) := by
    intro ok c hc
    cases hc
  refine ⟨?_, ?_, ?_, ?_, ?_⟩
  · intro hmode a ha
    exact (plan_kinds ha).1 hmode
  · intro hmode runs hruns
    refine Only.executeAll (fun run hrun => ?_) closed_allowed (hfresh _)
    have hmem := hruns run hrun
    exact only_of_uploads ((plan_kinds hmem).1 hmode) hmem
  · intro hmode a ha
    exact (plan_kinds ha).2 hmode
  · intro hmode runs hruns
    refine Only.executeAll (fun run hrun => ?_) closed_allowed (hfresh _)
    exact only_of_downloads (fun _ => trivial) (fun _ => trivial)
      ((plan_kinds (hruns run hrun)).2 hmode)
  · intro a ha rel hrel
    exact plan_notExcluded ha hrel

end Staaash.Pair

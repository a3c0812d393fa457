import Staaash.Journal.Proofs.CommitSafetyProofs
import Staaash.Journal.Proofs.DurabilityProofs
import Mathlib.Data.List.Infix

/-!
# Proofs: durable before recorded, over runs

The control flow around the steps: claims begin, commits follow the records, and everything else
neither records nor commits.
-/

namespace Staaash.Journal

open Staaash.Library (Proc Stop)
open Staaash.Library.Proc

variable {m : Mutation} {H : Host} {held : Lease} {ids : List Nat}

theorem Orderly.stable : Stable (Orderly m) := stable_of_drift fun _ _ h hd => h.drift hd

/-! ## Calls on the row -/

/-- An event that says nothing about steps, commits or the tree. -/
def Event.isPlain : Event → Bool
  | .marked _ | .committed | .changed _ _ | .synced _ => false
  | _ => true

theorem Event.inOrder_of_isPlain {e : Event} (h : e.isPlain = true) (fs : Fs) (older : Log) :
    InOrder m e fs older := by
  cases e <;> first | exact trivial | cases h

theorem volatile_of_isPlain {e : Event} (h : e.isPlain = true) (fs : Fs) (older : Log) :
    volatile ((e, fs) :: older) = volatile older := by
  cases e <;> first | rfl | cases h

theorem Orderly.plain {w : World} (h : Orderly m w) {e : Event} (he : e.isPlain = true)
    (row : Row) : Orderly m ({ w with row }.emit e) := by
  refine h.note (Event.inOrder_of_isPlain he _ _) ?_ rfl rfl (fun _ => .inl) (fun _ => .inl) id
  intro k hk
  rwa [volatile_of_isPlain he] at hk

/-- A call that writes the row and nothing else. -/
theorem triple_updateCall_kept {e : Event} {update : Row → Nat → Option Row} (he : e.isPlain = true) :
    Triple (Orderly m) (updateCall e update) (fun _ => Orderly m) fun _ => Orderly m :=
  triple_updateCall Orderly.stable (fun _ h => h) (fun _ h => h) fun _ row hw _ => hw.plain he row

theorem triple_retryStorageMutation_kept :
    Triple (Orderly m) (retryStorageMutation held) (fun _ => Orderly m) fun _ => Orderly m := by
  unfold retryStorageMutation
  refine ((triple_readCall Orderly.stable).post fun _ _ h => h.1).bind fun row => ?_
  exact triple_updateCall_kept rfl

theorem triple_requireStorageMutationRecovery_kept :
    Triple (Orderly m) (requireStorageMutationRecovery held) (fun _ => Orderly m) fun _ => Orderly m :=
  triple_updateCall_kept rfl

theorem triple_abortStorageMutation_kept :
    Triple (Orderly m) (abortStorageMutation held) (fun _ => Orderly m) fun _ => Orderly m :=
  triple_updateCall_kept rfl

theorem triple_completeStorageMutation_kept :
    Triple (Orderly m) (completeStorageMutation held) (fun _ => Orderly m) fun _ => Orderly m :=
  triple_updateCall_kept rfl

/-! ## The phases -/

theorem AtRest.plain {w : World} (h : AtRest m ids w) {e : Event} (he : e.isPlain = true)
    (hb : e.begins = false) (row : Row) : AtRest m ids ({ w with row }.emit e) where
  kept := h.kept.plain he row
  tree := by
    show ∃ e' older, begun ((e, w.fs) :: w.log) = (e', w.fs) :: older
    rw [begun_cons hb]
    exact h.tree
  settled := by
    show ∀ k ∈ volatile ((e, w.fs) :: w.log), k ∈ volatile (begun ((e, w.fs) :: w.log))
    rw [volatile_of_isPlain he, begun_cons hb]
    exact h.settled
  marked id hid := (h.marked id hid).cons _

theorem triple_beginStorageMutationFinalization_atRest :
    Triple (AtRest m ids) (beginStorageMutationFinalization held) (fun _ => AtRest m ids)
      fun _ => Orderly m := by
  exact triple_updateCall AtRest.stable (fun _ h => h.kept) (fun _ h => h.kept)
    fun _ _ hw _ => hw.plain rfl rfl _

/-- A commit comes after the records, whether it takes effect now or later. -/
theorem triple_commitStorageMutationMetadata_durable :
    Triple (fun w => AtRest m ids w ∧ ∀ step ∈ m.forward, IsMarked w.log step.id)
      (commitStorageMutationMetadata held) (fun _ => AtRest m ids) fun _ => Orderly m := by
  have hA : Stable fun w => AtRest m ids w ∧ ∀ step ∈ m.forward, IsMarked w.log step.id :=
    stable_of_drift fun w w' h hd =>
      ⟨h.1.drift hd, fun step hs => (drift_log hd).2.2 _ (h.2 step hs)⟩
  refine triple_callWith
    (R := fun w => AtRest m ids w ∧ ∀ step ∈ m.forward, IsMarked w.log step.id)
    (E := fun _ => Orderly m) hA.tick ?_ (fun _ _ h _ => h.kept) (fun _ _ h => h) ?_
  · rintro w ⟨hw, hmarked⟩
    cases hr : w.row.commit held w.now with
    | none =>
      simp only [hr]
      exact hw.kept
    | some row =>
      simp only [hr]
      refine ⟨?_, hw.tree, hw.settled, fun id hid => (hw.marked id hid).cons _⟩
      exact hw.kept.note (e := .committed) hmarked (fun _ hk => hk) rfl rfl (fun _ => .inl)
        (fun _ => .inl) id
  · rintro took w ⟨hw, hmarked⟩ _
    split_ifs
    · exact { hw.kept with flight := fun _ => hmarked }
    · exact hw.kept

theorem mem_forward {step : Step} (hs : step ∈ m.forward) :
    step ∈ m.steps ∧ isCleanup step.action = false := by
  obtain ⟨h1, h2⟩ := List.mem_filter.1 hs
  exact ⟨h1, by simpa using h2⟩

theorem triple_executeStorageMutationPhases_kept :
    Triple (AtRest m ids) (executeStorageMutationPhases H m held) (fun _ => Orderly m)
      fun _ => Orderly m := by
  unfold executeStorageMutationPhases
  refine Triple.seq (Q := fun _ w => AtRest m ids w ∧ ∀ step ∈ m.forward, IsMarked w.log step.id)
    ((triple_applyStorageMutationSteps_durable fun _ hs => hs).post ?_) ?_
  · rintro _ w ⟨hw, hmarked⟩
    refine ⟨hw, fun step hs => ?_⟩
    obtain ⟨hmem, hphase⟩ := mem_forward hs
    exact hmarked step hmem hphase
  refine Triple.seq triple_commitStorageMutationMetadata_durable ?_
  refine Triple.seq triple_beginStorageMutationFinalization_atRest ?_
  exact Triple.seq ((triple_applyStorageMutationSteps_durable fun _ hs => hs).post
    fun _ _ h => h.1.kept) triple_completeStorageMutation_kept

/-! ## Rollback -/

theorem triple_applyRename_kept {step : Step} {lease : M Unit} {phase : Phase}
    (hl : LeaseCheck lease) :
    Triple (Orderly m) (applyRename H phase step lease) (fun _ => Orderly m) fun _ => Orderly m := by
  refine triple_start fun start => ?_
  refine (triple_applyRename_settles False start [] hl).weaken ?_
    (fun _ _ h => h.1.kept) fun _ _ h => h.kept
  rintro w ⟨hw, hstart⟩
  exact ⟨⟨hw, hstart, fun _ hid => by cases hid⟩, fun _ _ _ _ _ _ _ hf => absurd hf id⟩

theorem triple_removeUndoneDirectory_kept {step : Step} :
    Triple (Orderly m) (removeUndoneDirectory step) (fun _ => Orderly m) fun _ => Orderly m := by
  unfold removeUndoneDirectory
  cases truthy step.targetKey with
  | none => exact triple_pure fun _ h => h
  | some key =>
    refine (triple_check.post fun _ _ h => h.1).bind fun target => ?_
    refine Triple.seq ((triple_assertSafeStorageAncestors Orderly.stable).post fun _ _ h => h.1) ?_
    refine Triple.bind (Q := fun _ => Orderly m) ?_ fun r => ?_
    · refine triple_start fun start => ?_
      refine (triple_removeArtifactDirectory_cleared False target start [] []).weaken ?_
        (fun _ _ h => h.1.kept) fun _ _ h => h.kept
      rintro w ⟨hw, hstart⟩
      exact ⟨⟨hw, hstart, fun _ hid => by cases hid⟩, (fun _ hk => by cases hk),
        fun _ _ hf => absurd hf id⟩
    · split_ifs
      · exact triple_throw fun _ h => h
      · exact triple_pure fun _ h => h

theorem triple_undoForwardSteps_kept {lease : M Unit} (hl : LeaseCheck lease) (steps : List Step) :
    Triple (Orderly m) (undoForwardSteps H lease steps) (fun _ => Orderly m) fun _ => Orderly m := by
  induction steps with
  | nil => exact triple_pure fun _ h => h
  | cons step rest ih =>
    have hstep : Triple (Orderly m) (undoStep H step lease) (fun _ => Orderly m) fun _ => Orderly m := by
      unfold undoStep
      cases step.action with
      | rename => exact triple_applyRename_kept hl
      | mkdir => exact Triple.seq (hl _ Orderly.stable) triple_removeUndoneDirectory_kept
      | deleteFile => exact triple_pure fun _ h => h
      | deleteTree => exact triple_pure fun _ h => h
      | removeEmptyDirectory => exact triple_pure fun _ h => h
    unfold undoForwardSteps
    refine (triple_get (Q := fun _ => Orderly m) fun _ h => h).bind fun s => ?_
    refine triple_ite (fun _ => ?_) fun _ => ih
    exact Triple.seq hstep ih

theorem triple_rollBackAndAbort_kept :
    Triple (Orderly m) (rollBackAndAbort H m held) (fun _ => Orderly m) fun _ => Orderly m := by
  unfold rollBackAndAbort
  refine Triple.bind (Q := fun _ => Orderly m) ?_ fun proceed => ?_
  · refine Orderly.stable.call ?_ (fun _ _ h => h) fun _ h => h
    intro w hw
    dsimp only
    split_ifs
    · exact hw
    · exact hw.plain rfl w.row
  have hgo : Triple (Orderly m)
      (do
        undoForwardSteps H (renewStorageMutationLease held) m.steps.reverse
        abortStorageMutation held
        return true)
      (fun _ => Orderly m) fun _ => Orderly m :=
    Triple.seq (triple_undoForwardSteps_kept (leaseCheck_renew held) _)
      (Triple.seq triple_abortStorageMutation_kept (triple_pure fun _ h => h))
  refine triple_ite (fun _ => ?_) fun _ => hgo
  exact triple_pure fun _ h => h

theorem triple_persistExecutionFailure_kept (e : Err) :
    Triple (Orderly m) (persistExecutionFailure e held) (fun _ => Orderly m) fun _ => Orderly m := by
  unfold persistExecutionFailure
  cases e <;>
    first
    | exact Triple.ignoreErrors triple_requireStorageMutationRecovery_kept
    | exact Triple.ignoreErrors triple_retryStorageMutation_kept

theorem triple_tryAbortBeforeCommit_kept {claimed : Claimed} (e : Err) :
    Triple (Orderly m) (tryAbortBeforeCommit H m claimed e) (fun _ => Orderly m) fun _ => Orderly m := by
  unfold tryAbortBeforeCommit
  cases abortReasonFor m e claimed.attemptCount with
  | none => exact triple_pure fun _ h => h
  | some rejection =>
    refine Triple.handle (M := fun _ => Orderly m) ?_ (fun _ h => h) fun undoError => ?_
    · exact triple_rollBackAndAbort_kept.bind fun aborted => triple_pure fun _ h => h
    · exact Triple.seq (triple_persistExecutionFailure_kept undoError) (triple_throw fun _ h => h)

/-! ## Attempts -/

theorem triple_executeClaimedStorageMutation_kept {claimed : Claimed} :
    Triple (AtRest m []) (executeClaimedStorageMutation H m claimed) (fun _ => Orderly m)
      fun _ => Orderly m := by
  unfold executeClaimedStorageMutation
  refine Triple.seq (Q := fun _ => AtRest m []) (triple_modify fun w h => ?_) ?_
  · exact ⟨h.kept.recall rfl rfl rfl (fun _ => .inl) id, h.tree, h.settled, h.marked⟩
  refine triple_executeStorageMutationPhases_kept.handle (fun _ h => h) fun e => ?_
  refine (triple_tryAbortBeforeCommit_kept e).bind fun r => ?_
  cases r with
  | some rejection => exact triple_throw fun _ h => h
  | none =>
    exact Triple.seq (triple_persistExecutionFailure_kept e) (triple_throw fun _ h => h)

theorem triple_findClaimed_atRest {owner : Text} :
    Triple (AtRest m []) (findClaimed owner) (fun _ => AtRest m []) fun _ => Orderly m := by
  refine AtRest.stable.call ?_ (fun _ _ h => h.kept) fun _ h => h.kept
  intro w hw
  dsimp only
  split_ifs
  · exact ⟨hw.kept.recall rfl rfl rfl (fun id hid => .inr (hw.kept.applied id hid)) id, hw.tree,
      hw.settled, hw.marked⟩
  · exact hw

/-- A claim begins the work on the first step. -/
theorem Orderly.claim {w : World} (h : Orderly m w) {e : Event} (he : e.isPlain = true)
    (hb : e.begins = true) (row : Row) : AtRest m [] ({ w with row }.emit e) :=
  atRest_begins (h.plain he row) hb rfl fun _ hid => by cases hid

/-- The update of a claim. -/
theorem triple_claimCall_atRest {event : Nat → Event} {update : Row → Nat → Option Row}
    (hplain : ∀ token, (event token).isPlain = true) (hbegins : ∀ token, (event token).begins = true) :
    Triple (Orderly m) (claimCall event update)
      (fun claimed w => if claimed = true then AtRest m [] w else Orderly m w) fun _ => Orderly m :=
  triple_claimCall Orderly.stable (fun _ h => h.kept) fun _ row hw _ =>
    hw.claim (hplain row.leaseToken) (hbegins row.leaseToken) row

theorem triple_claimStorageMutation_atRest {owner : Text} :
    Triple (Orderly m) (claimStorageMutation owner)
      (fun r w => Orderly m w ∧ (r ≠ none → AtRest m [] w)) fun _ => Orderly m := by
  unfold claimStorageMutation
  refine (triple_claimCall_atRest (fun _ => rfl) fun _ => rfl).bind fun claimed => ?_
  cases claimed with
  | false => exact triple_pure fun w h => ⟨h, fun hne => absurd rfl hne⟩
  | true => exact triple_findClaimed_atRest.post fun _ w h => ⟨h.kept, fun _ => h⟩

theorem triple_claimStorageMutationFinalization_atRest {owner : Text} :
    Triple (Orderly m) (claimStorageMutationFinalization owner)
      (fun r w => Orderly m w ∧ (r ≠ none → AtRest m [] w)) fun _ => Orderly m := by
  unfold claimStorageMutationFinalization
  refine (triple_claimCall_atRest (fun _ => rfl) fun _ => rfl).bind fun claimed => ?_
  cases claimed with
  | false => exact triple_pure fun w h => ⟨h, fun hne => absurd rfl hne⟩
  | true => exact triple_findClaimed_atRest.post fun _ w h => ⟨h.kept, fun _ => h⟩

theorem triple_attempt_kept (a : Attempt) :
    Triple (Orderly m) (a.program H m) (fun _ => Orderly m) fun _ => Orderly m := by
  unfold Attempt.program
  refine triple_ite (fun _ => ?_) fun _ => ?_
  · refine Triple.bind (Q := fun _ => Orderly m) ?_ fun _ => triple_pure fun _ h => h
    unfold recoverStorageMutationCleanup
    refine triple_claimStorageMutationFinalization_atRest.bind fun r => ?_
    cases r with
    | none => exact triple_pure fun _ h => h.1
    | some claimed =>
      refine Triple.handle (M := fun _ => Orderly m) ?_ (fun _ h => h) fun e => ?_
      · refine Triple.pre ?_ fun w h => h.2 (Option.some_ne_none claimed)
        exact Triple.seq ((triple_applyStorageMutationSteps_durable fun _ hs => hs).post
          fun _ _ h => h.1.kept)
          (Triple.seq triple_completeStorageMutation_kept (triple_pure fun _ h => h))
      · exact Triple.seq (triple_persistExecutionFailure_kept e) (triple_throw fun _ h => h)
  · unfold claimAndExecuteStorageMutation
    refine triple_claimStorageMutation_atRest.bind fun r => ?_
    cases r with
    | none => exact triple_throw fun _ h => h.1
    | some claimed =>
      exact triple_executeClaimedStorageMutation_kept.pre
        fun w h => h.2 (Option.some_ne_none claimed)

theorem Orderly.run {w : World} (h : Orderly m w) (attempts : List Attempt) :
    Orderly m (run H m w attempts) := by
  induction attempts generalizing w with
  | nil => exact h
  | cons a rest ih =>
    refine ih (Triple.after (triple_attempt_kept a) ?_)
    exact h.recall rfl rfl rfl (fun _ hid => by cases hid) id

theorem kept_prepared (fs : Fs) : Orderly m (prepared fs) where
  events := fun newer older e fs' h => by cases newer <;> cases h
  rooted := fun _ h => by cases h
  applied := fun _ h => by cases h
  memory := fun _ h => by cases h
  flight := fun h => absurd rfl h

/-- In every run, whatever is recorded is durable and whatever is committed is recorded, as long as
no step that is recorded had found a volatile part of its effect in place. -/
theorem run_durableBeforeRecorded (H : Host) (m : Mutation) (start : Fs) (attempts : List Attempt)
    (h : FindsSettled m (run H m (prepared start) attempts).log) :
    DurableBeforeRecorded m (run H m (prepared start) attempts).log := by
  have hkept := (kept_prepared (m := m) start).run (H := H) attempts
  refine ⟨?_, ?_⟩
  · intro newer older id fs hlog step hstep hid
    exact hkept.events newer older _ fs hlog step hstep hid
      (h newer older id fs hlog step hstep hid)
  · intro newer older fs hlog
    exact hkept.events newer older _ fs hlog

/-! ## A process that dies after a rename -/

/-- Nothing at all is volatile where a recorded step was begun. -/
def nothingFound (log : Log) : Bool :=
  log.tails.all fun t =>
    match t with
    | (.marked _, _) :: older => (volatile (begun older)).isEmpty
    | _ => true

theorem findsSettled_of_nothingFound {log : Log} (h : nothingFound log = true) :
    FindsSettled m log := by
  rintro newer older id fs rfl step - - work - event fs' rest hstart e -
  have hmem : (.marked id, fs) :: older ∈ (newer ++ (.marked id, fs) :: older).tails :=
    (List.mem_tails _ _).2 (List.suffix_append _ _)
  have hempty := List.all_eq_true.1 h _ hmem
  rw [List.isEmpty_iff.1 hempty]
  exact List.not_mem_nil

/-- The first attempt dies before its rename, the second makes it. -/
def diedBefore : List Attempt := [attempt 0 (faultAt 11 (.crashed .no)), attempt 30000 []]

theorem run_durableBeforeRecorded_diedBefore :
    FindsSettled renameOnly (run smallHost renameOnly (prepared (fileAt "a")) diedBefore).log ∧
      (run smallHost renameOnly (prepared (fileAt "a")) diedBefore).row.status = .succeeded ∧
      DurableBeforeRecorded renameOnly
        (run smallHost renameOnly (prepared (fileAt "a")) diedBefore).log :=
  have h : FindsSettled renameOnly
      (run smallHost renameOnly (prepared (fileAt "a")) diedBefore).log :=
    findsSettled_of_nothingFound (by decide +kernel)
  ⟨h, by decide +kernel, run_durableBeforeRecorded smallHost renameOnly (fileAt "a") diedBefore h⟩

example : (run smallHost renameOnly (prepared (fileAt "a")) diedBefore).fs = fileAt "b" := by decide +kernel

/-- The first attempt dies right after its rename, the second finds it made. -/
def diedAfter : List Attempt := [attempt 0 (faultAt 11 (.crashed .yes)), attempt 30000 []]

/-- The step is recorded, and the metadata committed, while both names are volatile. -/
theorem diedAfter_recorded_volatile :
    ¬ DurableBeforeRecorded renameOnly
      (run smallHost renameOnly (prepared (fileAt "a")) diedAfter).log := by
  intro h
  have hwork : renameStep.work = some (.rename [['a']] [['b']]) := by decide
  have htouch : renameStep.Touches (fileAt "b") [['b']] := by
    unfold Step.Touches
    rw [hwork]
    exact .inr (by decide)
  refine h.recorded
    ((run smallHost renameOnly (prepared (fileAt "a")) diedAfter).log.take 3)
    ((run smallHost renameOnly (prepared (fileAt "a")) diedAfter).log.drop 4) 1 (fileAt "b")
    (by decide +kernel) renameStep (by simp [renameOnly]) rfl [['b']] htouch (by decide +kernel)

end Staaash.Journal

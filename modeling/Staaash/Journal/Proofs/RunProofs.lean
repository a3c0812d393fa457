import Staaash.Journal.Proofs.PhaseProofs

/-!
# Proofs: attempts and runs

The commit, the rollback, what is written after a failure, and the claims. Together they give the
invariant for every state of every run.
-/

namespace Staaash.Journal

open Staaash.Library (Proc Stop)
open Staaash.Library.Proc

variable {T : Account} {H : Host} {m : Mutation} {K : Prop} {lease : Lease}

/-! ## The commit -/

/-- The attempt that holds `lease` has committed and is about to finalize. -/
structure Stamped (T : Account) (m : Mutation) (K : Prop) (lease : Lease) (w : World) : Prop where
  rows : Rows K w
  token : w.row.leaseToken = lease.token
  status : w.row.status = .metadataCommitted
  older : Older w
  memory : Marked m.forward m.forward.length w.memory
  applied : Marked m.forward m.forward.length w.applied
  memoryClean : Marked m.cleanup 0 w.memory
  appliedClean : Marked m.cleanup 0 w.applied
  tree : T.cond w.log → T.settled m.forward.length w.fs
  good : T.good w.log

theorem tick_crashOnly {w : World} (h : ∀ f ∈ w.schedule, f.crashOnly = true) :
    w.tick.1.crashOnly = true := by
  unfold World.tick
  cases hs : w.schedule with
  | nil => rfl
  | cons f rest => exact h f (by rw [hs]; simp)

section Laws

variable (hT : T.Laws H m)

include hT

theorem Stamped.caught {w : World} (h : Stamped T m K lease w) : Caught T m K lease w where
  inv :=
    { rows := h.rows
      before := fun _ => ⟨_, h.applied, h.appliedClean, fun hc => hT.mid_of_settled (h.tree hc)⟩
      all := fun _ _ => ⟨h.applied, h.tree⟩
      flight := fun l hl ht _ => absurd ht (Nat.ne_of_lt (h.older l hl))
      after := fun hf => absurd (h.status.symm.trans hf) (by simp)
      stuck := fun hf => absurd (h.status.symm.trans hf) (by simp)
      finished := fun hf => absurd (h.status.symm.trans hf) (by simp)
      good := h.good }
  token := h.token
  older _ := h.older
  known hf := absurd (h.status.symm.trans hf) (by simp)

theorem Stamped.drift {w w' : World} (h : Stamped T m K lease w) (hd : Drift w w') :
    Stamped T m K lease w' := by
  have hrows := h.rows.drift hd
  have holder := h.older.drift hd
  cases hd with
  | time => exact { h with rows := hrows, older := holder }
  | renewed => exact { h with rows := hrows, older := holder }
  | failure => exact { h with rows := hrows, older := holder }
  | lost => exact { h with rows := hrows, older := holder }
  | synced =>
    exact { h with
      rows := hrows
      older := holder
      tree := fun hc => h.tree (hT.cond_tail hc)
      good := hT.good_note rfl h.good }
  | commit l now hl ht hs => exact absurd ht (Nat.ne_of_lt (h.older l hl))

/-- The commit takes effect, on the tree all forward steps have left. -/
theorem Forward.commit {w : World} {row : Row} (h : Forward T m K lease m.forward.length w)
    (hr : w.row.commit lease w.now = some row) :
    Stamped T m K lease ({ w with row }.emit .committed) := by
  obtain ⟨-, -, rfl⟩ := Row.commit_eq_some hr
  have hsettled : T.cond w.log → T.settled m.forward.length w.fs := fun hc =>
    hT.settled_of_mid (h.tree hc)
  exact
    { rows := h.rows.commit h.running w.now
      token := h.token
      status := rfl
      older := h.older
      memory := h.memory
      applied := h.applied
      memoryClean := h.memoryClean
      appliedClean := h.appliedClean
      tree := fun hc => hsettled (hT.cond_tail hc)
      good := hT.good_commit hsettled h.good }

/-- The commit is given up, and may still take effect. -/
theorem Forward.later {w : World} (h : Forward T m K lease m.forward.length w) :
    Inv T m K { w with inFlight := some lease } where
  rows :=
    { h.rows with
      flight := by
        intro l hl
        obtain rfl := Option.some.inj hl
        exact Nat.le_of_eq h.token.symm }
  before := h.inv.before
  all := h.inv.all
  flight _ _ _ _ := ⟨h.applied, fun hc => hT.settled_of_mid (h.tree hc)⟩
  after := h.inv.after
  stuck := h.inv.stuck
  finished := h.inv.finished
  good := h.good

theorem triple_commitStorageMutationMetadata :
    Triple (Forward T m K lease m.forward.length) (commitStorageMutationMetadata lease)
      (fun _ => Stamped T m K lease) (Exit T m K lease) := by
  intro w hw
  have hw' := (Forward.stable hT _).tick w hw
  have hcalm : K → w.tick.1.crashOnly = true := fun hK => tick_crashOnly (hw.rows.crashOnly hK)
  unfold commitStorageMutationMetadata callWith
  dsimp only
  cases ho : w.tick.1.outcome with
  | done =>
    dsimp only
    cases hr : w.tick.2.row.commit lease w.tick.2.now with
    | some row => exact hw'.commit hT hr
    | none => exact hw'.caught
  | failed took e =>
    have hnot : ¬ K := by
      intro hK
      have := hcalm hK
      unfold Fault.crashOnly at this
      rw [ho] at this
      cases this
    cases took with
    | yes =>
      dsimp only
      cases hr : w.tick.2.row.commit lease w.tick.2.now with
      | some row => exact (hw'.commit hT hr).caught hT
      | none => exact hw'.caught
    | later =>
      exact
        { inv := hw'.later hT
          token := hw'.token
          older := fun hK => absurd hK hnot
          known := hw'.caught.known }
    | no => exact hw'.caught
    | partly left => exact hw'.caught
  | crashed took =>
    cases took with
    | yes =>
      dsimp only
      cases hr : w.tick.2.row.commit lease w.tick.2.now with
      | some row => exact ((hw'.commit hT hr).caught hT).inv
      | none => exact hw'.inv
    | later => exact hw'.later hT
    | no => exact hw'.inv
    | partly left => exact hw'.inv

theorem triple_beginStorageMutationFinalization :
    Triple (Stamped T m K lease) (beginStorageMutationFinalization lease)
      (fun _ => Cleaning T m K lease 0) (fun _ => Caught T m K lease) := by
  refine triple_updateCall (stable_of_drift fun _ _ h hd => h.drift hT hd) (fun _ h => h.caught hT)
    (fun _ h => h.caught) ?_
  intro w row h hf
  unfold Row.beginFinalization at hf
  split_ifs at hf
  obtain rfl := Option.some.inj hf
  have hstamp := h.rows.stamped (Or.inl h.status)
  exact
    { rows :=
        { held := fun _ => Or.inr (Or.inr rfl)
          legal := hstamp
          logged := fun _ => hstamp
          flight := h.rows.flight
          crashOnly := h.rows.crashOnly
          once := fun _ hb => by cases hb
          count := fun hK => (commits_cons (by simp)).trans (h.rows.count hK) }
      token := h.token
      finalizing := rfl
      older := h.older
      memory := h.memory
      applied := h.applied
      memoryClean := h.memoryClean
      appliedClean := h.appliedClean
      tree := fun hc => hT.sweep_start (h.tree (hT.cond_tail hc))
      good := hT.good_note rfl h.good }

theorem triple_completeStorageMutation :
    Triple (Cleaning T m K lease m.cleanup.length) (completeStorageMutation lease)
      (fun _ => Caught T m K lease) (fun _ => Caught T m K lease) := by
  refine triple_updateCall (Cleaning.stable hT _) (fun _ h => h.caught) (fun _ h => h) ?_
  intro w row h hf
  unfold Row.complete at hf
  split_ifs at hf
  obtain rfl := Option.some.inj hf
  exact
    { inv :=
        { rows := h.rows.release (by simp) rfl rfl rfl (h.rows.stamped (Or.inr h.finalizing))
            fun _ hb => by cases hb
          before := fun hs => by cases hs
          all := fun hs => by cases hs
          flight := fun _ _ _ hs => by cases hs
          after := fun hs => by cases hs
          stuck := fun hs => by cases hs
          finished := fun _ hc => h.tree (hT.cond_tail hc)
          good := hT.good_complete h.tree h.good }
      token := h.token
      older := fun _ => h.older
      known := fun hs => by cases hs }

theorem triple_executeStorageMutationPhases :
    Triple (fun w => ∃ k, Forward T m K lease k w) (executeStorageMutationPhases H m lease)
      (fun _ => Caught T m K lease) (Exit T m K lease) := by
  have hcaught : ∀ (s : Stop Err) (w : World), Caught T m K lease w → Exit T m K lease s w :=
    fun s _ h => h.exit s
  unfold executeStorageMutationPhases
  refine Triple.seq ((triple_forwardSteps hT).weaken (fun _ h => h) (fun _ _ h => h) hcaught) ?_
  refine Triple.seq (triple_commitStorageMutationMetadata hT) ?_
  refine Triple.seq ((triple_beginStorageMutationFinalization hT).weaken (fun _ h => h)
    (fun _ _ h => h) hcaught) ?_
  refine Triple.seq ((triple_cleanupSteps hT).weaken (fun _ h => ⟨0, h⟩) (fun _ _ h => h)
    hcaught) ?_
  exact (triple_completeStorageMutation hT).weaken (fun _ h => h) (fun _ _ h => h) hcaught

end Laws

/-! ## Rollback -/

theorem rolledBack_of_rollingBack {log : Log} (h : rollingBack log = true) :
    rolledBack log = true := by
  induction log with
  | nil => cases h
  | cons e log ih =>
    obtain ⟨e, fs⟩ := e
    cases e with
    | rollback memory => rfl
    | claimed token => cases h
    | _ => exact rolledBack_cons (ih h)

/-- The attempt that holds `lease` rolls back: it found the tree `X` with `k` steps to undo, and has
`i` of them left. The commit may still take effect. -/
structure Rollback (T : Account) (m : Mutation) (K : Prop) (lease : Lease) (X : Fs) (k i : Nat)
    (w : World) : Prop where
  rows : Rows K w
  token : w.row.leaseToken = lease.token
  status : w.row.status = .running ∨ w.row.status = .metadataCommitted
  rolling : rollingBack w.log = true
  older : K → Older w
  memory : Marked m.forward k w.memory
  applied : ∃ j, k ≤ j ∧ Marked m.forward j w.applied ∧ (T.cond w.log → T.mid j X)
  appliedClean : Marked m.cleanup 0 w.applied
  all : w.row.metadataCommittedAt ≠ none →
    Marked m.forward m.forward.length w.applied ∧ (T.cond w.log → T.settled m.forward.length X)
  flight : ∀ l, w.inFlight = some l → l.token = w.row.leaseToken → w.row.status = .running →
    Marked m.forward m.forward.length w.applied ∧ (T.cond w.log → T.settled m.forward.length X)
  start : T.cond w.log → T.mid k X
  tree : T.cond w.log → T.undoing X k i w.fs
  good : T.good w.log

section Laws

variable (hT : T.Laws H m) {X : Fs} {k i : Nat}

include hT

theorem Rollback.settled {w : World} (h : Rollback T m K lease X k i w)
    (hs : T.cond w.log → T.settled m.forward.length X) (hc : T.cond w.log) :
    T.settled m.forward.length w.fs :=
  hT.undo_settled h.memory.1 (h.tree hc) (hs hc)

theorem Rollback.caught {w : World} (h : Rollback T m K lease X k i w) :
    Caught T m K lease w := by
  obtain ⟨j, hkj, hj, hmid⟩ := h.applied
  have hopen : w.row.status ≠ .finalizing ∧ w.row.status ≠ .recoveryRequired ∧
      w.row.status ≠ .succeeded := by
    rcases h.status with hs | hs <;> rw [hs] <;> simp
  exact
    { inv :=
        { rows := h.rows
          before := fun _ =>
            ⟨j, hj, h.appliedClean, fun hc => hT.undo_mid hkj (h.tree hc) (hmid hc)⟩
          all := fun _ hm => ⟨(h.all hm).1, h.settled hT (h.all hm).2⟩
          flight := fun l hl ht hr => ⟨(h.flight l hl ht hr).1, h.settled hT (h.flight l hl ht hr).2⟩
          after := fun hf => absurd hf hopen.1
          stuck := fun hf => absurd hf hopen.2.1
          finished := fun hf => absurd hf hopen.2.2
          good := h.good }
      token := h.token
      older := h.older
      known := fun _ => ⟨k, j, hkj, h.memory, hj,
        fun hc => hT.undo_mid (Nat.le_refl k) (h.tree hc) (h.start hc)⟩ }

/-- An event that leaves the row alone. -/
theorem Rollback.emit {w : World} {fs : Fs} {e : Event} (h : Rollback T m K lease X k i w)
    (he : e ≠ .committed) (hroll : rollingBack ((e, fs) :: w.log) = true)
    (htree : T.cond ((e, fs) :: w.log) → T.undoing X k i fs) (hgood : T.good ((e, fs) :: w.log)) :
    Rollback T m K lease X k i ({ w with fs }.emit e) :=
  { h with
    rows := h.rows.emit he
    rolling := hroll
    applied := by
      obtain ⟨j, hkj, hj, hmid⟩ := h.applied
      exact ⟨j, hkj, hj, fun hc => hmid (hT.cond_tail hc)⟩
    all := fun hm => ⟨(h.all hm).1, fun hc => (h.all hm).2 (hT.cond_tail hc)⟩
    flight := fun l hl ht hr =>
      ⟨(h.flight l hl ht hr).1, fun hc => (h.flight l hl ht hr).2 (hT.cond_tail hc)⟩
    start := fun hc => h.start (hT.cond_tail hc)
    tree := htree
    good := hgood }

theorem Rollback.drift {w w' : World} (h : Rollback T m K lease X k i w) (hd : Drift w w') :
    Rollback T m K lease X k i w' := by
  have hrows := h.rows.drift hd
  have holder := fun hK => (h.older hK).drift hd
  cases hd with
  | time => exact { h with rows := hrows, older := holder }
  | renewed => exact { h with rows := hrows, older := holder }
  | failure => exact { h with rows := hrows, older := holder }
  | lost => exact { h with rows := hrows, older := holder, flight := fun _ hf => by cases hf }
  | synced k' =>
    exact h.emit hT (by simp) h.rolling (fun hc => h.tree (hT.cond_tail hc))
      (hT.good_note rfl h.good)
  | commit l now hl ht hs =>
    -- The late commit: all steps were in effect when the rollback began.
    obtain ⟨hn, hsettled⟩ := h.flight l hl ht hs
    obtain ⟨j, hkj, hj, hmid⟩ := h.applied
    exact
      { rows := hrows
        token := h.token
        status := Or.inr rfl
        rolling := h.rolling
        older := holder
        memory := h.memory
        applied := ⟨j, hkj, hj, fun hc => hmid (hT.cond_tail hc)⟩
        appliedClean := h.appliedClean
        all := fun _ => ⟨hn, fun hc => hsettled (hT.cond_tail hc)⟩
        flight := fun _ hf => by cases hf
        start := fun hc => h.start (hT.cond_tail hc)
        tree := fun hc => h.tree (hT.cond_tail hc)
        good := hT.good_commit (h.settled hT hsettled) h.good }

theorem triple_undoStep_rollback {s : Step} (hs : m.forward[i]? = some s) :
    Triple (Rollback T m K lease X k (i + 1)) (undoStep H s (renewStorageMutationLease lease))
      (fun _ => Rollback T m K lease X k i) (fun _ => Caught T m K lease) := by
  intro w hw
  let A := fun w' => Rollback T m K lease X k (i + 1) w' ∧
    (T.cond w'.log → T.undoing X k (i + 1) w.fs)
  have hA : Stable A := stable_under hT (fun _ _ h hd => h.drift hT hd) fun _ =>
    T.undoing X k (i + 1) w.fs
  have hallow : AllowsUndo A H s w.fs := by
    intro w' fs op h hb
    refine ⟨h.1.emit hT (by simp) h.1.rolling (fun hc => ?_) (hT.good_undo h.1.rolling h.1.good),
      fun hc => h.2 (hT.cond_tail hc)⟩
    exact hT.undo_change hc hs (h.2 (hT.cond_tail hc)) hb
  have hrun := (triple_undoStep hA (leaseCheck_renew lease) hallow).weaken (fun _ h => h)
    (fun _ w' h => (show Rollback T m K lease X k i w' from
      { h.1.1 with tree := fun hc => hT.undo_done hs (h.1.2 hc) (h.1.1.tree hc) h.2 }))
    fun _ _ h => h.1.1.caught hT
  exact hrun w ⟨⟨hw, hw.tree⟩, rfl⟩

/-- The loop of the undo, over the steps in reverse. -/
theorem triple_undoForwardSteps {rs after : List Step} (hsplit : m.steps = rs.reverse ++ after) :
    Triple (Rollback T m K lease X k (min k (rs.filter fun s => !isCleanup s.action).length))
      (undoForwardSteps H (renewStorageMutationLease lease) rs)
      (fun _ => Rollback T m K lease X k 0) (fun _ => Caught T m K lease) := by
  induction rs generalizing after with
  | nil =>
    refine triple_pure fun w h => ?_
    rwa [List.filter_nil, List.length_nil, Nat.min_zero] at h
  | cons s rs ih =>
    have hnext : m.steps = rs.reverse ++ (s :: after) := by
      rw [hsplit, List.reverse_cons, List.append_assoc]
      rfl
    set q := (rs.filter fun s => !isCleanup s.action).length with hq
    unfold undoForwardSteps
    refine (triple_get (Q := fun s' w => Rollback T m K lease X k
      (min k ((s :: rs).filter fun s => !isCleanup s.action).length) w ∧ s' = w)
      fun w h => ⟨h, rfl⟩).bind fun s' => ?_
    by_cases hf : isCleanup s.action = true
    · have hcount : ((s :: rs).filter fun s => !isCleanup s.action).length = q := by
        rw [List.filter_cons_of_neg (by simp [hf])]
      rw [hcount]
      simp only [hf, Bool.not_true, Bool.and_false, Bool.false_eq_true, if_false]
      exact (ih hnext).pre fun w h => h.1
    · rw [Bool.not_eq_true] at hf
      have hcount : ((s :: rs).filter fun s => !isCleanup s.action).length = q + 1 := by
        rw [List.filter_cons_of_pos (by simp [hf]), List.length_cons]
      have hget : m.forward[q]? = some s := by
        unfold Mutation.forward
        rw [hnext, List.filter_append, List.filter_cons_of_pos (by simp [hf]),
          List.getElem?_append_right (by simp [hq]), List.filter_reverse, List.length_reverse,
          ← hq, Nat.sub_self]
        rfl
      rw [hcount]
      simp only [hf, Bool.not_false, Bool.and_true]
      refine triple_ite (fun hc => ?_) fun hc => ?_
      · rw [List.contains_iff_mem] at hc
        by_cases hlt : q < k
        · rw [show min k (q + 1) = q + 1 by omega]
          refine Triple.seq ((triple_undoStep_rollback hT hget).pre fun w h => h.1) ?_
          have hrest := ih hnext
          rwa [show min k q = q by omega] at hrest
        · -- A step in memory is one of the first `k`.
          intro w h
          have := (h.1.memory.2 q s hget).mp (h.2 ▸ hc)
          exact absurd this hlt
      · refine (ih hnext).pre fun w h => ?_
        have hge : ¬ q < k := by
          rw [← h.1.memory.2 q s hget, ← h.2, ← List.contains_iff_mem]
          exact hc
        have hmin : min k (q + 1) = min k q := by omega
        rw [← hmin]
        exact h.1

theorem triple_abortStorageMutation :
    Triple (Rollback T m K lease X k 0) (abortStorageMutation lease)
      (fun _ => Caught T m K lease) (fun _ => Caught T m K lease) := by
  refine triple_updateCall (stable_of_drift fun _ _ h hd => h.drift hT hd) (fun _ h => h.caught hT)
    (fun _ h => h) ?_
  intro w row h hf
  unfold Row.abort at hf
  split_ifs at hf with hc
  obtain rfl := Option.some.inj hf
  exact
    { inv :=
        { rows := h.rows.release (by simp) rfl rfl rfl
            (rolledBack_cons (rolledBack_of_rollingBack h.rolling)) fun _ hb => by cases hb
          before := fun hs => by cases hs
          all := fun hs => by cases hs
          flight := fun _ _ _ hs => by cases hs
          after := fun hs => by cases hs
          stuck := fun hs => by cases hs
          finished := fun hs => by cases hs
          good := hT.good_abort h.tree h.good }
      token := h.token
      older := h.older
      known := fun hs => by cases hs }

/-- A rollback that read an uncommitted running mutation can begin. -/
theorem Caught.rollback {w : World} (h : Caught T m K lease w) (hr : w.row.status = .running)
    (hm : w.row.metadataCommittedAt = none) :
    ∃ k, Rollback T m K lease w.fs k k (w.emit (.rollback w.memory)) := by
  obtain ⟨k, j, hkj, hk, hj, hmid⟩ := h.known hr
  obtain ⟨j', hj', hclean, hmid'⟩ := h.inv.before (by rw [hr]; rfl)
  obtain rfl := hj'.unique hj
  have hnot : committed w.log = false := by
    by_contra hc
    rw [Bool.not_eq_false] at hc
    exact h.inv.rows.logged hc hm
  refine ⟨k, ?_⟩
  exact
    { rows := h.inv.rows.emit (by simp)
      token := h.token
      status := Or.inl hr
      rolling := rfl
      older := h.older
      memory := hk
      applied := ⟨j', hkj, hj, fun hc => hmid' (hT.cond_tail hc)⟩
      appliedClean := hclean
      all := fun hne => absurd hm hne
      flight := fun l hl ht hs => ⟨(h.inv.flight l hl ht hs).1,
        fun hc => (h.inv.flight l hl ht hs).2 (hT.cond_tail hc)⟩
      start := fun hc => hmid (hT.cond_tail hc)
      tree := fun hc => hT.undo_start hc hk (hmid (hT.cond_tail hc))
      good := hT.good_rollback hnot h.inv.good }

theorem triple_rollBackAndAbort :
    Triple (Caught T m K lease) (rollBackAndAbort H m lease) (fun _ => Caught T m K lease)
      (fun _ => Caught T m K lease) := by
  unfold rollBackAndAbort
  refine Triple.bind (Q := fun proceed w => if proceed = true then
    ∃ X k, Rollback T m K lease X k k w else Caught T m K lease w) ?_ fun proceed => ?_
  · refine (Caught.stable hT).call ?_ ?_ fun _ h => h
    · intro w hw
      by_cases hc : (w.row.metadataCommittedAt.isSome || decide (w.row.status ≠ .running)) = true
      · simp only [hc, if_true]
        exact hw
      · simp only [hc, Bool.false_eq_true, if_false]
        simp only [Bool.or_eq_true, decide_eq_true_eq, not_or, ne_eq, not_not,
          Option.not_isSome_iff_eq_none] at hc
        exact ⟨w.fs, hw.rollback hT hc.2 hc.1⟩
    · intro proceed w h
      cases proceed with
      | true =>
        obtain ⟨X, k, h⟩ := h
        exact h.caught hT
      | false => exact h
  · cases proceed with
    | false => exact triple_pure fun _ h => h
    | true =>
      rintro w ⟨X, k, h⟩
      have hundo : Triple (Rollback T m K lease X k
          (min k (m.steps.reverse.filter fun s => !isCleanup s.action).length)) _ _ _ :=
        triple_undoForwardSteps hT (by rw [List.reverse_reverse, List.append_nil])
      have hall : min k (m.steps.reverse.filter fun s => !isCleanup s.action).length = k := by
        rw [List.filter_reverse, List.length_reverse]
        exact Nat.min_eq_left h.memory.1
      rw [hall] at hundo
      exact (Triple.seq hundo (Triple.seq (triple_abortStorageMutation hT)
        (triple_pure (a := true) fun _ h => h))) w h

/-! ## After a failure -/

omit hT in
theorem Row.heldBy_owner {row : Row} {now : Nat} (h : row.heldBy lease now = true) :
    row.leaseOwner ≠ none := by
  simp only [Row.heldBy, Bool.and_eq_true, decide_eq_true_eq] at h
  rw [h.1.1]
  exact Option.some_ne_none _

omit hT in
/-- A held mutation whose finalization has not begun has its forward steps where it says. -/
theorem Inv.cases_held {w : World} (h : Inv T m K w) (ho : w.row.leaseOwner ≠ none) :
    w.row.status.isOpen = true ∨ w.row.status = .finalizing := by
  rcases h.rows.held ho with hs | hs | hs
  · exact Or.inl (by rw [hs]; rfl)
  · exact Or.inl (by rw [hs]; rfl)
  · exact Or.inr hs

/-- Once the commit is recorded, the tree is at the cleanup. -/
theorem Inv.sweeping {w : World} (h : Inv T m K w) (ho : w.row.leaseOwner ≠ none)
    (hm : w.row.metadataCommittedAt ≠ none) :
    Marked m.forward m.forward.length w.applied ∧
      ∃ c, Marked m.cleanup c w.applied ∧ (T.cond w.log → T.sweeping c w.fs) := by
  rcases h.cases_held ho with hs | hs
  · obtain ⟨k, -, hclean, -⟩ := h.before hs
    obtain ⟨hn, hsettled⟩ := h.all hs hm
    exact ⟨hn, 0, hclean, fun hc => hT.sweep_start (hsettled hc)⟩
  · exact h.after hs

theorem triple_requireStorageMutationRecovery :
    Triple (Caught T m K lease) (requireStorageMutationRecovery lease) (fun _ => Inv T m K)
      (fun _ => Inv T m K) := by
  refine triple_updateCall (Caught.stable hT) (fun _ h => h.inv) (fun _ h => h) ?_
  intro w row h hf
  unfold Row.requireRecovery at hf
  split_ifs at hf with hc
  obtain rfl := Option.some.inj hf
  have ho := Row.heldBy_owner hc
  exact
    { rows := h.inv.rows.release (by simp) rfl rfl rfl trivial fun _ hb => by cases hb
      before := fun hs => by cases hs
      all := fun hs => by cases hs
      flight := fun _ _ _ hs => by cases hs
      after := fun hs => by cases hs
      stuck := by
        intro _ hcond
        refine ⟨fun hm => ?_, fun hm => ?_⟩
        · rcases h.inv.cases_held ho with hs | hs
          · obtain ⟨k, -, -, hmid⟩ := h.inv.before hs
            exact ⟨k, hmid (hT.cond_tail hcond)⟩
          · exact absurd hm (h.inv.rows.stamped (Or.inr hs))
        · obtain ⟨-, c, -, hsweep⟩ := h.inv.sweeping hT ho hm
          exact ⟨c, hsweep (hT.cond_tail hcond)⟩
      finished := fun hs => by cases hs
      good := hT.good_note rfl h.inv.good }

/-- The row as a retry read it: unchanged since, or committed in between. -/
def ReadBefore (K : Prop) (row : Row) (w : World) : Prop :=
  (row.status = w.row.status ∧ row.metadataCommittedAt = w.row.metadataCommittedAt) ∨
    (row.status = .running ∧ w.row.status = .metadataCommitted ∧ ¬ K)

omit hT in
theorem ReadBefore.drift {row : Row} {w w' : World} (h : ReadBefore K row w)
    (hc : Caught T m K lease w) (hd : Drift w w') : ReadBefore K row w' := by
  cases hd with
  | time => exact h
  | renewed => exact h
  | failure => exact h
  | synced => exact h
  | lost => exact h
  | commit l now hl ht hs =>
    rcases h with h | h
    · refine Or.inr ⟨h.1.trans hs, rfl, fun hK => ?_⟩
      exact absurd ht (Nat.ne_of_lt (hc.older hK l hl))
    · exact absurd (hs.symm.trans h.2.1) (by simp)

/-- A retry writes a status that fits the tree. -/
theorem Caught.retry {w : World} {row : Row} (h : Caught T m K lease w)
    (hread : ReadBefore K row w) (ho : w.row.leaseOwner ≠ none) (t : Option Nat) :
    Inv T m K ({ w with row := { w.row with
      status := retryStatusForMutation row
      leaseOwner := none
      leaseExpiresAt := none
      nextAttemptAt := t } }.emit .retried) := by
  have hstatus : (retryStatusForMutation row = .finalizing ∧ w.row.metadataCommittedAt ≠ none) ∨
      (retryStatusForMutation row = .retrying ∧ w.row.status.isOpen = true ∧
        (K → w.row.metadataCommittedAt = none)) := by
    unfold retryStatusForMutation
    by_cases hm : row.metadataCommittedAt.isSome = true
    · left
      refine ⟨if_pos hm, ?_⟩
      rcases hread with ⟨-, he⟩ | ⟨-, hs, -⟩
      · rw [← he]
        exact Option.isSome_iff_ne_none.mp hm
      · exact h.inv.rows.stamped (Or.inl hs)
    · rw [if_neg hm]
      rw [Option.not_isSome_iff_eq_none] at hm
      rcases hread with ⟨hs, he⟩ | ⟨hs, hs', hK⟩
      · have hnone : w.row.metadataCommittedAt = none := he ▸ hm
        rcases h.inv.rows.held ho with hrun | hst | hst
        · right
          rw [hs, hrun]
          exact ⟨rfl, rfl, fun _ => hnone⟩
        · exact absurd hnone (h.inv.rows.stamped (Or.inl hst))
        · exact absurd hnone (h.inv.rows.stamped (Or.inr hst))
      · right
        rw [hs, hs']
        exact ⟨rfl, rfl, fun hk => absurd hk hK⟩
  rcases hstatus with ⟨hst, hm⟩ | ⟨hst, hopen, hK⟩
  · obtain ⟨hn, c, hclean, hsweep⟩ := h.inv.sweeping hT ho hm
    rw [hst]
    exact
      { rows := h.inv.rows.release (by simp) rfl rfl rfl hm fun _ hb => by cases hb
        before := fun hs => by cases hs
        all := fun hs => by cases hs
        flight := fun _ _ _ hs => by cases hs
        after := fun _ => ⟨hn, c, hclean, fun hc => hsweep (hT.cond_tail hc)⟩
        stuck := fun hs => by cases hs
        finished := fun hs => by cases hs
        good := hT.good_note rfl h.inv.good }
  · obtain ⟨k, hk, hclean, hmid⟩ := h.inv.before hopen
    rw [hst]
    exact
      { rows := h.inv.rows.release (by simp) rfl rfl rfl trivial fun hk _ => hK hk
        before := fun _ => ⟨k, hk, hclean, fun hc => hmid (hT.cond_tail hc)⟩
        all := fun _ hm => ⟨(h.inv.all hopen hm).1,
          fun hc => (h.inv.all hopen hm).2 (hT.cond_tail hc)⟩
        flight := fun _ _ _ hs => by cases hs
        after := fun hs => by cases hs
        stuck := fun hs => by cases hs
        finished := fun hs => by cases hs
        good := hT.good_note rfl h.inv.good }

theorem triple_retryStorageMutation :
    Triple (Caught T m K lease) (retryStorageMutation lease) (fun _ => Inv T m K)
      (fun _ => Inv T m K) := by
  unfold retryStorageMutation
  refine Triple.bind (Q := fun row w => Caught T m K lease w ∧ ReadBefore K row w) ?_ fun row => ?_
  · refine ((triple_readCall (Caught.stable hT)).post fun row w h => ⟨h.1, ?_⟩).exits
      fun _ h => h.inv
    obtain rfl := Except.ok.inj h.2
    exact Or.inl ⟨rfl, rfl⟩
  · refine triple_updateCall (stable_of_drift fun w w' h hd =>
      ⟨h.1.drift hT hd, h.2.drift h.1 hd⟩) (fun _ h => h.1.inv) (fun _ h => h) ?_
    rintro w row' ⟨h, hread⟩ hf
    unfold Row.retry at hf
    split_ifs at hf with hc
    obtain rfl := Option.some.inj hf
    exact h.retry hT hread (Row.heldBy_owner hc) _

theorem triple_persistExecutionFailure (e : Err) :
    Triple (Caught T m K lease) (persistExecutionFailure e lease) (fun _ => Inv T m K)
      (fun _ => Inv T m K) := by
  unfold persistExecutionFailure
  split
  · exact (triple_requireStorageMutationRecovery hT).ignoreErrors
  · exact (triple_requireStorageMutationRecovery hT).ignoreErrors
  · exact (triple_retryStorageMutation hT).ignoreErrors

theorem triple_tryAbortBeforeCommit {claimed : Claimed} (e : Err) (hl : claimed.lease = lease) :
    Triple (Caught T m K lease) (tryAbortBeforeCommit H m claimed e)
      (fun _ => Caught T m K lease) (fun _ => Inv T m K) := by
  unfold tryAbortBeforeCommit
  rw [hl]
  split
  · exact triple_pure fun _ h => h
  · rename_i rejection _
    refine Triple.handle (M := fun _ => Caught T m K lease) ?_ (fun _ h => h.inv) fun e' => ?_
    · refine Triple.bind (triple_rollBackAndAbort hT) fun aborted => ?_
      exact triple_pure fun _ h => h
    · exact Triple.seq (triple_persistExecutionFailure hT e') (triple_throw fun _ h => h)

theorem triple_executeClaimedStorageMutation {claimed : Claimed} (hl : claimed.lease = lease) :
    Triple (fun w => ∃ k, Forward T m K lease k w) (executeClaimedStorageMutation H m claimed)
      (fun _ => Inv T m K) (fun _ => Inv T m K) := by
  unfold executeClaimedStorageMutation
  rw [hl]
  refine Triple.seq (Q := fun _ w => ∃ k, Forward T m K lease k w) (triple_modify ?_) ?_
  · rintro w ⟨k, h⟩
    exact ⟨k, { h with rows := h.rows.recall }⟩
  refine Triple.handle ((triple_executeStorageMutationPhases hT).post fun _ _ h => h.inv)
    (fun _ h => h) fun e => ?_
  refine (triple_tryAbortBeforeCommit hT e hl).bind fun r => ?_
  cases r with
  | some rejection => exact triple_throw fun _ h => h.inv
  | none => exact Triple.seq (triple_persistExecutionFailure hT e) (triple_throw fun _ h => h)

/-! ## Claims -/

omit hT in
theorem Rows.claim {w : World} (h : Rows K w) {status : Status} {owner : Text} {e : Event}
    (he : e ≠ .committed) (hs : status = .running ∨ status = .finalizing)
    (hm : status = .finalizing → w.row.metadataCommittedAt ≠ none)
    (hb : status = .running → w.row.status.isBefore = true) :
    Rows K ({ w with row := w.row.claim status owner w.now }.emit e) where
  held _ := hs.imp_right Or.inr
  legal := by
    rcases hs with rfl | rfl
    · trivial
    · exact hm rfl
  logged hc := h.logged ((committed_cons he).symm.trans hc)
  flight l hl := Nat.le_succ_of_le (h.flight l hl)
  crashOnly := h.crashOnly
  once hK hst := by
    rcases hs with hs | hs
    · exact h.once hK (hb hs)
    · have hfin : status.isBefore = true := hst
      rw [hs] at hfin
      cases hfin
  count hK := (commits_cons he).trans (h.count hK)

omit hT in
/-- A new claim makes every commit in flight an older one. -/
theorem Rows.older_claim {w : World} (h : Rows K w) {status : Status} {owner : Text} {e : Event} :
    Older ({ w with row := w.row.claim status owner w.now }.emit e) :=
  fun l hl => Nat.lt_succ_of_le (h.flight l hl)

/-- The mutation is claimed and not read yet. -/
structure Fresh (T : Account) (m : Mutation) (K : Prop) (status : Status) (w : World) : Prop where
  inv : Inv T m K w
  status : w.row.status = status
  older : Older w

theorem Fresh.stable (status : Status) : Stable (Fresh T m K status) := by
  refine stable_of_drift fun w w' h hd => ?_
  have hinv := h.inv.drift hT hd
  have holder := h.older.drift hd
  cases hd with
  | time => exact ⟨hinv, h.status, holder⟩
  | renewed => exact ⟨hinv, h.status, holder⟩
  | failure => exact ⟨hinv, h.status, holder⟩
  | synced => exact ⟨hinv, h.status, holder⟩
  | lost => exact ⟨hinv, h.status, holder⟩
  | commit l now hl ht hs => exact absurd ht (Nat.ne_of_lt (h.older l hl))

theorem triple_findClaimed {owner : Text} {status : Status}
    {Q : Claimed → World → Prop} (hQ : ∀ c w, Q c w → Inv T m K w)
    (hfound : ∀ w c, Fresh T m K status w → c.lease.token = w.row.leaseToken →
      Q c { w with memory := w.applied }) :
    Triple (Fresh T m K status) (findClaimed owner)
      (fun r w => match r with
        | none => Inv T m K w
        | some c => Q c w) (fun _ => Inv T m K) := by
  refine (Fresh.stable hT status).call ?_ ?_ fun _ h => h.inv
  · intro w hw
    dsimp only
    split_ifs with hc
    · exact hfound w _ hw rfl
    · exact hw.inv
  · intro r w h
    cases r with
    | none => exact h
    | some c => exact hQ c w h

theorem triple_claimStorageMutation {owner : Text} :
    Triple (Inv T m K) (claimStorageMutation owner)
      (fun r w => match r with
        | none => Inv T m K w
        | some c => ∃ k, Forward T m K c.lease k w) (fun _ => Inv T m K) := by
  have hstable : Stable (Inv T m K) := stable_of_drift fun _ _ h hd => h.drift hT hd
  unfold claimStorageMutation
  refine Triple.bind (triple_claimCall (Q := Fresh T m K .running) hstable (fun _ h => h.inv)
    fun w row hw hrow => ?_) fun b => ?_
  · unfold Row.claimForward at hrow
    split_ifs at hrow with hc
    obtain rfl := Option.some.inj hrow
    have hbefore : w.row.status.isBefore = true := by
      simp only [Bool.or_eq_true, Bool.and_eq_true, decide_eq_true_eq] at hc
      rcases hc with ⟨⟨hs | hs, -⟩, -⟩ | ⟨hs, -⟩ <;> rw [hs] <;> rfl
    have hopen : w.row.status.isOpen = true := by
      cases hs : w.row.status <;> rw [hs] at hbefore <;> first | rfl | cases hbefore
    obtain ⟨k, hk, hclean, hmid⟩ := hw.before hopen
    refine ⟨?_, rfl, hw.rows.older_claim⟩
    exact
      { rows := hw.rows.claim (by simp) (Or.inl rfl) (by simp) fun _ => hbefore
        before := fun _ => ⟨k, hk, hclean, fun hc => hmid (hT.cond_tail hc)⟩
        all := fun _ hm => ⟨(hw.all hopen hm).1,
          fun hc => (hw.all hopen hm).2 (hT.cond_tail hc)⟩
        flight := fun l hl ht _ => absurd ht (Nat.ne_of_lt (hw.rows.older_claim l hl))
        after := fun hs => by cases hs
        stuck := fun hs => by cases hs
        finished := fun hs => by cases hs
        good := hT.good_note rfl hw.good }
  · cases b with
    | false => exact triple_pure fun _ h => h
    | true =>
      refine triple_findClaimed hT (Q := fun c w => ∃ k, Forward T m K c.lease k w) ?_ ?_
      · rintro c w ⟨k, h⟩
        exact h.inv
      · intro w c h ht
        obtain ⟨k, hk, hclean, hmid⟩ := h.inv.before (by rw [h.status]; rfl)
        exact ⟨k,
          { rows := h.inv.rows.recall
            token := ht.symm
            running := h.status
            older := h.older
            memory := hk
            applied := hk
            memoryClean := hclean
            appliedClean := hclean
            tree := hmid
            all := fun hm => by
              obtain ⟨hn, hsettled⟩ := h.inv.all (by rw [h.status]; rfl) hm
              exact ⟨hk.unique hn, hsettled⟩
            good := h.inv.good }⟩

theorem triple_claimStorageMutationFinalization {owner : Text} :
    Triple (Inv T m K) (claimStorageMutationFinalization owner)
      (fun r w => match r with
        | none => Inv T m K w
        | some c => ∃ n, Cleaning T m K c.lease n w) (fun _ => Inv T m K) := by
  have hstable : Stable (Inv T m K) := stable_of_drift fun _ _ h hd => h.drift hT hd
  unfold claimStorageMutationFinalization
  refine Triple.bind (triple_claimCall (Q := Fresh T m K .finalizing) hstable (fun _ h => h.inv)
    fun w row hw hrow => ?_) fun b => ?_
  · unfold Row.claimFinalization at hrow
    split_ifs at hrow with hc
    obtain rfl := Option.some.inj hrow
    simp only [Bool.or_eq_true, Bool.and_eq_true, decide_eq_true_eq] at hc
    have hstamp := hw.rows.stamped hc.1.1
    have hsweep : Marked m.forward m.forward.length w.applied ∧
        ∃ c, Marked m.cleanup c w.applied ∧ (T.cond w.log → T.sweeping c w.fs) := by
      rcases hc.1.1 with hs | hs
      · have hopen : w.row.status.isOpen = true := by
          rw [hs]
          rfl
        obtain ⟨k, -, hclean, -⟩ := hw.before hopen
        obtain ⟨hn, hsettled⟩ := hw.all hopen hstamp
        exact ⟨hn, 0, hclean, fun hc => hT.sweep_start (hsettled hc)⟩
      · exact hw.after hs
    obtain ⟨hn, c, hclean, htree⟩ := hsweep
    refine ⟨?_, rfl, hw.rows.older_claim⟩
    exact
      { rows := hw.rows.claim (by simp) (Or.inr rfl) (fun _ => hstamp) (by simp)
        before := fun hs => by cases hs
        all := fun hs => by cases hs
        flight := fun l hl ht _ => absurd ht (Nat.ne_of_lt (hw.rows.older_claim l hl))
        after := fun _ => ⟨hn, c, hclean, fun hc => htree (hT.cond_tail hc)⟩
        stuck := fun hs => by cases hs
        finished := fun hs => by cases hs
        good := hT.good_note rfl hw.good }
  · cases b with
    | false => exact triple_pure fun _ h => h
    | true =>
      refine triple_findClaimed hT (Q := fun c w => ∃ n, Cleaning T m K c.lease n w) ?_ ?_
      · rintro c w ⟨n, h⟩
        exact h.inv
      · intro w c h ht
        obtain ⟨hn, n, hclean, hsweep⟩ := h.inv.after h.status
        exact ⟨n,
          { rows := h.inv.rows.recall
            token := ht.symm
            finalizing := h.status
            older := h.older
            memory := hn
            applied := hn
            memoryClean := hclean
            appliedClean := hclean
            tree := hsweep
            good := h.inv.good }⟩

/-! ## Attempts and runs -/

theorem triple_claimAndExecuteStorageMutation {owner : Text} :
    Triple (Inv T m K) (claimAndExecuteStorageMutation H m owner) (fun _ => Inv T m K)
      (fun _ => Inv T m K) := by
  unfold claimAndExecuteStorageMutation
  refine (triple_claimStorageMutation hT).bind fun r => ?_
  cases r with
  | none => exact triple_throw fun _ h => h
  | some c => exact triple_executeClaimedStorageMutation hT rfl

theorem triple_recoverStorageMutationCleanup {owner : Text} :
    Triple (Inv T m K) (recoverStorageMutationCleanup H m owner) (fun _ => Inv T m K)
      (fun _ => Inv T m K) := by
  unfold recoverStorageMutationCleanup
  refine (triple_claimStorageMutationFinalization hT).bind fun r => ?_
  cases r with
  | none => exact triple_pure fun _ h => h
  | some c =>
    refine Triple.handle (M := fun _ => Caught T m K c.lease) ?_ (fun _ h => h.inv) fun e => ?_
    · refine Triple.seq (triple_cleanupSteps hT) (Triple.seq (triple_completeStorageMutation hT) ?_)
      exact triple_pure fun _ h => h.inv
    · exact Triple.seq (triple_persistExecutionFailure hT e) (triple_throw fun _ h => h)

omit hT in
theorem Inv.begin {w : World} (h : Inv T m K w) (a : Attempt)
    (ha : K → ∀ f ∈ a.schedule, f.crashOnly = true) : Inv T m K (w.begin a) where
  rows := { h.rows with crashOnly := ha }
  before := h.before
  all := h.all
  flight := h.flight
  after := h.after
  stuck := h.stuck
  finished := h.finished
  good := h.good

theorem Inv.runAttempt {w : World} (h : Inv T m K w) (a : Attempt)
    (ha : K → ∀ f ∈ a.schedule, f.crashOnly = true) : Inv T m K (runAttempt H m w a) := by
  have hprogram : Triple (Inv T m K) (a.program H m) (fun _ => Inv T m K) fun _ => Inv T m K := by
    unfold Attempt.program
    refine triple_ite (fun _ => ?_) fun _ => triple_claimAndExecuteStorageMutation hT
    exact (triple_recoverStorageMutationCleanup hT).bind fun _ => triple_pure fun _ h => h
  exact hprogram.after (h.begin a ha)

/-- Every state of every run satisfies the invariant. -/
theorem Inv.run {w : World} (h : Inv T m K w) (attempts : List Attempt)
    (ha : K → ∀ a ∈ attempts, ∀ f ∈ a.schedule, f.crashOnly = true) :
    Inv T m K (run H m w attempts) := by
  induction attempts generalizing w with
  | nil => exact h
  | cons a attempts ih =>
    refine ih (h.runAttempt hT a fun hK => ha hK a (by simp)) fun hK b hb => ?_
    exact ha hK b (by simp [hb])

theorem inv_prepared {fs : Fs} (hfs : T.settled 0 fs) (hgood : T.good []) :
    Inv T m K (prepared fs) where
  rows :=
    { held := fun h => absurd rfl h
      legal := trivial
      logged := fun h => by cases h
      flight := fun _ h => by cases h
      crashOnly := fun _ f hf => by cases hf
      once := fun _ _ => rfl
      count := fun _ => rfl }
  before _ := ⟨0, marked_nil _, marked_nil _, fun _ => hT.mid_of_settled hfs⟩
  all _ h := absurd rfl h
  flight _ h := by cases h
  after h := by cases h
  stuck h := by cases h
  finished h := by cases h
  good := hgood

end Laws

end Staaash.Journal

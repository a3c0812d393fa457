import Staaash.Journal.Proofs.InvariantProofs

/-!
# Proofs: the two phases of an attempt

What an attempt knows while it applies the forward steps, commits, and applies the cleanup steps;
and what it knows when one of its calls throws.
-/

namespace Staaash.Journal

open Staaash.Library (Proc Stop)
open Staaash.Library.Proc

variable {T : Account} {H : Host} {m : Mutation} {K : Prop} {lease : Lease}

/-! ## Assertions -/

/-- A commit in flight belongs to an earlier attempt. -/
def Older (w : World) : Prop := ∀ l, w.inFlight = some l → l.token < w.row.leaseToken

/-- The attempt that holds `lease` has recorded `k` forward steps and is about to go on. -/
structure Forward (T : Account) (m : Mutation) (K : Prop) (lease : Lease) (k : Nat) (w : World) :
    Prop where
  rows : Rows K w
  token : w.row.leaseToken = lease.token
  running : w.row.status = .running
  older : Older w
  memory : Marked m.forward k w.memory
  applied : Marked m.forward k w.applied
  memoryClean : Marked m.cleanup 0 w.memory
  appliedClean : Marked m.cleanup 0 w.applied
  tree : T.cond w.log → T.mid k w.fs
  all : w.row.metadataCommittedAt ≠ none → k = m.forward.length ∧
    (T.cond w.log → T.settled m.forward.length w.fs)
  good : T.good w.log

/-- What an attempt can rely on after an error. -/
structure Caught (T : Account) (m : Mutation) (K : Prop) (lease : Lease) (w : World) : Prop where
  inv : Inv T m K w
  token : w.row.leaseToken = lease.token
  older : K → Older w
  known : w.row.status = .running → ∃ k j, k ≤ j ∧ Marked m.forward k w.memory ∧
    Marked m.forward j w.applied ∧ (T.cond w.log → T.mid k w.fs)

/-- After a crash the invariant holds, after an error more is known. -/
def Exit (T : Account) (m : Mutation) (K : Prop) (lease : Lease) : Stop Err → World → Prop
  | .crash => Inv T m K
  | .thrown _ => Caught T m K lease

/-- The attempt that holds `lease` has recorded `c` cleanup steps and is about to go on. -/
structure Cleaning (T : Account) (m : Mutation) (K : Prop) (lease : Lease) (c : Nat) (w : World) :
    Prop where
  rows : Rows K w
  token : w.row.leaseToken = lease.token
  finalizing : w.row.status = .finalizing
  older : Older w
  memory : Marked m.forward m.forward.length w.memory
  applied : Marked m.forward m.forward.length w.applied
  memoryClean : Marked m.cleanup c w.memory
  appliedClean : Marked m.cleanup c w.applied
  tree : T.cond w.log → T.sweeping c w.fs
  good : T.good w.log

theorem Caught.exit {w : World} (h : Caught T m K lease w) (s : Stop Err) :
    Exit T m K lease s w := by
  cases s with
  | crash => exact h.inv
  | thrown e => exact h

theorem Forward.inv {k : Nat} {w : World} (h : Forward T m K lease k w) : Inv T m K w where
  rows := h.rows
  before _ := ⟨k, h.applied, h.appliedClean, h.tree⟩
  all _ hm := ⟨(h.all hm).1 ▸ h.applied, (h.all hm).2⟩
  flight l hl ht _ := absurd ht (Nat.ne_of_lt (h.older l hl))
  after hf := by
    rw [h.running] at hf
    cases hf
  stuck hf := by
    rw [h.running] at hf
    cases hf
  finished hf := by
    rw [h.running] at hf
    cases hf
  good := h.good

theorem Forward.caught {k : Nat} {w : World} (h : Forward T m K lease k w) :
    Caught T m K lease w where
  inv := h.inv
  token := h.token
  older _ := h.older
  known _ := ⟨k, k, Nat.le_refl k, h.memory, h.applied, h.tree⟩

theorem Cleaning.inv {c : Nat} {w : World} (h : Cleaning T m K lease c w) : Inv T m K w where
  rows := h.rows
  before hf := by
    rw [h.finalizing] at hf
    cases hf
  all hf := by
    rw [h.finalizing] at hf
    cases hf
  flight l hl ht _ := absurd ht (Nat.ne_of_lt (h.older l hl))
  after _ := ⟨h.applied, c, h.appliedClean, h.tree⟩
  stuck hf := by
    rw [h.finalizing] at hf
    cases hf
  finished hf := by
    rw [h.finalizing] at hf
    cases hf
  good := h.good

theorem Cleaning.caught {c : Nat} {w : World} (h : Cleaning T m K lease c w) :
    Caught T m K lease w where
  inv := h.inv
  token := h.token
  older _ := h.older
  known hf := by
    rw [h.finalizing] at hf
    cases hf

/-! ## Between two calls -/

theorem Older.drift {w w' : World} (h : Older w) (hd : Drift w w') : Older w' := by
  cases hd with
  | time => exact h
  | renewed => exact h
  | failure => exact h
  | synced => exact h
  | lost => exact fun l hl => by cases hl
  | commit => exact fun l hl => by cases hl

/-- The changes of the log that come with passing time only take conditions away. -/
theorem Account.Laws.cond_drift (hT : T.Laws H m) {w w' : World} (hd : Drift w w')
    (h : T.cond w'.log) : T.cond w.log := by
  cases hd with
  | time => exact h
  | renewed => exact h
  | failure => exact h
  | synced => exact hT.cond_tail h
  | lost => exact h
  | commit => exact hT.cond_tail h

theorem lt_of_getElem?_eq_some {l : List Step} {k : Nat} {s : Step} (h : l[k]? = some s) :
    k < l.length :=
  (List.getElem?_eq_some_iff.mp h).1

theorem Drift.fs {w w' : World} (hd : Drift w w') : w'.fs = w.fs := by
  cases hd <;> rfl

section Laws

variable (hT : T.Laws H m)

include hT

theorem Forward.drift {k : Nat} {w w' : World} (h : Forward T m K lease k w) (hd : Drift w w') :
    Forward T m K lease k w' := by
  have hrows := h.rows.drift hd
  have holder := h.older.drift hd
  cases hd with
  | time => exact { h with rows := hrows, older := holder }
  | renewed => exact { h with rows := hrows, older := holder }
  | failure => exact { h with rows := hrows, older := holder }
  | lost => exact { h with rows := hrows, older := holder }
  | synced =>
    exact { h with
      rows := hrows
      older := holder
      tree := fun hc => h.tree (hT.cond_tail hc)
      all := fun hm => ⟨(h.all hm).1, fun hc => (h.all hm).2 (hT.cond_tail hc)⟩
      good := hT.good_note rfl h.good }
  | commit l now hl ht hs => exact absurd ht (Nat.ne_of_lt (h.older l hl))

theorem Cleaning.drift {c : Nat} {w w' : World} (h : Cleaning T m K lease c w)
    (hd : Drift w w') : Cleaning T m K lease c w' := by
  have hrows := h.rows.drift hd
  have holder := h.older.drift hd
  cases hd with
  | time => exact { h with rows := hrows, older := holder }
  | renewed => exact { h with rows := hrows, older := holder }
  | failure => exact { h with rows := hrows, older := holder }
  | lost => exact { h with rows := hrows, older := holder }
  | synced =>
    exact { h with
      rows := hrows
      older := holder
      tree := fun hc => h.tree (hT.cond_tail hc)
      good := hT.good_note rfl h.good }
  | commit l now hl ht hs => exact absurd ht (Nat.ne_of_lt (h.older l hl))

theorem Caught.drift {w w' : World} (h : Caught T m K lease w) (hd : Drift w w') :
    Caught T m K lease w' := by
  have hinv := h.inv.drift hT hd
  have holder := fun hK => (h.older hK).drift hd
  cases hd with
  | time => exact ⟨hinv, h.token, holder, h.known⟩
  | renewed => exact ⟨hinv, h.token, holder, h.known⟩
  | failure => exact ⟨hinv, h.token, holder, h.known⟩
  | lost => exact ⟨hinv, h.token, holder, h.known⟩
  | synced =>
    refine ⟨hinv, h.token, holder, fun hr => ?_⟩
    obtain ⟨k, j, hkj, hk, hj, hmid⟩ := h.known hr
    exact ⟨k, j, hkj, hk, hj, fun hc => hmid (hT.cond_tail hc)⟩
  | commit => exact ⟨hinv, h.token, holder, fun hr => by cases hr⟩

theorem Forward.stable (k : Nat) : Stable (Forward T m K lease k) :=
  stable_of_drift fun _ _ h hd => h.drift hT hd

theorem Cleaning.stable (c : Nat) : Stable (Cleaning T m K lease c) :=
  stable_of_drift fun _ _ h hd => h.drift hT hd

theorem Caught.stable : Stable (Caught T m K lease) :=
  stable_of_drift fun _ _ h hd => h.drift hT hd

/-- What is known of the tree under the condition stays known. -/
theorem stable_under {A : World → Prop} (hA : ∀ w w', A w → Drift w w' → A w')
    (p : Fs → Prop) : Stable fun w => A w ∧ (T.cond w.log → p w.fs) := by
  refine stable_of_drift fun w w' h hd => ⟨hA w w' h.1 hd, fun hc => ?_⟩
  rw [hd.fs]
  exact h.2 (hT.cond_drift hd hc)

/-! ## The loop over the steps -/

omit hT in
/-- The loop of either phase: `P k` is what holds when `k` of its steps are recorded. -/
theorem triple_applyStorageMutationSteps {cleanup : Bool} {p : Step → Bool}
    {P : Nat → World → Prop} {E : World → Prop}
    (hp : ∀ s, p s = true ↔ isCleanup s.action = cleanup)
    (hmem : ∀ k w, P k w → Marked (m.steps.filter p) k w.memory)
    (hstep : ∀ k s, (m.steps.filter p)[k]? = some s →
      Triple (P k) (applyStorageMutationStep H m lease s) (fun _ => P (k + 1)) fun _ => E)
    {before after : List Step} (hsplit : m.steps = before ++ after) :
    Triple (fun w => ∃ k, (before.filter p).length ≤ k ∧ P k w)
      (applyStorageMutationSteps H m lease cleanup after)
      (fun _ => P (m.steps.filter p).length) fun _ => E := by
  induction after generalizing before with
  | nil =>
    rw [List.append_nil] at hsplit
    subst hsplit
    refine triple_pure ?_
    rintro w ⟨k, hk, hP⟩
    rwa [← Nat.le_antisymm hk (hmem k w hP).1] at hP
  | cons s rest ih =>
    have hnext : m.steps = (before ++ [s]) ++ rest := by
      rw [hsplit, List.append_assoc]
      rfl
    have hcount : ((before ++ [s]).filter p).length =
        (before.filter p).length + if p s = true then 1 else 0 := by
      rw [List.filter_append, List.length_append, List.filter_singleton]
      cases p s <;> rfl
    have hget : p s = true → (m.steps.filter p)[(before.filter p).length]? = some s := by
      intro hs
      rw [hsplit, List.filter_append, List.filter_cons_of_pos hs,
        List.getElem?_append_right (Nat.le_refl _), Nat.sub_self]
      rfl
    unfold applyStorageMutationSteps
    refine (triple_get (Q := fun s' w => (∃ k, (before.filter p).length ≤ k ∧ P k w) ∧ s' = w)
      fun w h => ⟨h, rfl⟩).bind fun s' => ?_
    refine triple_ite (fun hc => ?_) fun hc => ?_
    · -- The step is the next one to apply.
      simp only [Bool.and_eq_true, Bool.not_eq_true', decide_eq_true_eq] at hc
      have hs : p s = true := (hp s).mpr hc.2
      refine Triple.seq ((hstep _ s (hget hs)).pre ?_) ((ih hnext).pre ?_)
      · rintro w ⟨⟨k, hk, hP⟩, rfl⟩
        have hlt : ¬ (before.filter p).length < k := by
          rw [← (hmem k s' hP).2 _ s (hget hs)]
          simpa using hc.1
        rwa [show k = (before.filter p).length by omega] at hP
      · intro w h
        refine ⟨_, Nat.le_of_eq ?_, h⟩
        rw [hcount, if_pos hs]
    · -- The step is recorded, or of the other phase.
      refine (ih hnext).pre ?_
      rintro w ⟨⟨k, hk, hP⟩, rfl⟩
      refine ⟨k, ?_, hP⟩
      rw [hcount]
      split_ifs with hs
      · have hcontains : s'.memory.contains s.id = true := by
          by_contra hnot
          rw [Bool.not_eq_true] at hnot
          exact hc (by simp only [hnot, (hp s).mp hs, Bool.not_false, Bool.true_and, decide_true])
        rw [List.contains_iff_mem] at hcontains
        exact ((hmem k s' hP).2 _ s (hget hs)).mp hcontains
      · exact hk

/-! ## One forward step -/

/-- A change of the tree by the next step. -/
theorem Forward.change {k : Nat} {w : World} {s : Step} {X fs : Fs} {op : FsOp}
    (h : Forward T m K lease k w) (hs : m.forward[k]? = some s)
    (hX : T.cond w.log → T.mid k X) (hb : Between H s X fs) :
    Forward T m K lease k ({ w with fs }.emit (.changed .forward op)) :=
  { h with
    rows := h.rows.emit (by simp)
    tree := fun hc => hT.mid_between hs (hX (hT.cond_tail hc)) hb
    all := fun hm => absurd (h.all hm).1 (Nat.ne_of_lt (lt_of_getElem?_eq_some hs))
    good := hT.good_note rfl h.good }

theorem triple_applyFilesystemStep_forward {k : Nat} {s : Step} (hs : m.forward[k]? = some s) :
    Triple (Forward T m K lease k) (applyFilesystemStep H m s (assertLease lease))
      (fun _ w => Forward T m K lease k w ∧ (T.cond w.log → T.settled (k + 1) w.fs))
      (fun _ => Forward T m K lease k) := by
  intro w hw
  -- The tree the step starts on is a parameter of the specifications.
  let A := fun w' => Forward T m K lease k w' ∧ (T.cond w'.log → T.mid k w.fs)
  have hA : Stable A := stable_under hT (fun _ _ h hd => h.drift hT hd) fun _ => T.mid k w.fs
  have hallow : Allows A .forward H s w.fs :=
    ⟨fun w' fs _ h hb => ⟨h.1.change hT hs h.2 hb, fun hc => h.2 (hT.cond_tail hc)⟩,
      fun w' fs _ _ h _ he =>
        ⟨h.1.change hT hs h.2 (Or.inr (Or.inr he)), fun hc => h.2 (hT.cond_tail hc)⟩⟩
  have hfin : ∀ x : M Unit, Triple (fun w' => A w' ∧ w'.fs = w.fs) x
      (fun _ w' => A w' ∧ effectOf H s w.fs = some w'.fs)
      (fun _ w' => A w' ∧ Between H s w.fs w'.fs) →
      Triple (fun w' => A w' ∧ w'.fs = w.fs) x
        (fun _ w' => Forward T m K lease k w' ∧ (T.cond w'.log → T.settled (k + 1) w'.fs))
        (fun _ => Forward T m K lease k) := fun x hx =>
    hx.weaken (fun _ h => h)
      (fun _ w' h => ⟨h.1.1, fun hc => hT.settled_effect hs (h.1.2 hc) h.2⟩) fun _ _ h => h.1.1
  have hstart : A w ∧ w.fs = w.fs := ⟨⟨hw, hw.tree⟩, rfl⟩
  have hforward := (List.mem_filter.mp (List.mem_of_getElem? hs)).2
  unfold applyFilesystemStep
  cases ha : s.action with
  | rename =>
    exact hfin _ (triple_applyRename ha hA (leaseCheck_assertLease lease) hallow) w hstart
  | mkdir =>
    exact hfin _ (triple_applyMkdir ha hA (leaseCheck_assertLease lease) hallow) w hstart
  | deleteFile => rw [ha] at hforward; cases hforward
  | deleteTree => rw [ha] at hforward; cases hforward
  | removeEmptyDirectory => rw [ha] at hforward; cases hforward

omit hT in
theorem triple_rowCall {A Q E : World → Prop} {event : Event} {f : World → Option World}
    (hA : Stable A) (hE : ∀ w, A w → E w) (hQ : ∀ w, Q w → E w)
    (hf : ∀ w w', A w → f w = some w' → Q (w'.emit event)) :
    Triple A (rowCall event f) (fun _ => Q) fun _ => E := by
  refine hA.call ?_ (fun _ => hQ) hE
  intro w hw
  cases hr : f w with
  | none =>
    simp only [hr]
    exact hE w hw
  | some w' =>
    simp only [hr]
    exact hf w w' hw hr

omit hT in
theorem triple_updateCall {A Q E : World → Prop} {event : Event} {update : Row → Nat → Option Row}
    (hA : Stable A) (hE : ∀ w, A w → E w) (hQ : ∀ w, Q w → E w)
    (hf : ∀ w row, A w → update w.row w.now = some row → Q ({ w with row }.emit event)) :
    Triple A (updateCall event update) (fun _ => Q) fun _ => E := by
  refine triple_rowCall hA hE hQ fun w w' hw hw' => ?_
  obtain ⟨row, hrow, rfl⟩ := Option.map_eq_some_iff.1 hw'
  exact hf w row hw hrow

omit hT in
theorem triple_claimCall {A Q : World → Prop} {event : Nat → Event} {update : Row → Nat → Option Row}
    (hA : Stable A) (hQ : ∀ w, Q w → A w)
    (hf : ∀ w row, A w → update w.row w.now = some row →
      Q ({ w with row }.emit (event row.leaseToken))) :
    Triple A (claimCall event update) (fun claimed w => if claimed = true then Q w else A w)
      fun _ => A := by
  refine hA.call ?_ ?_ fun _ h => h
  · intro w hw
    cases hrow : update w.row w.now with
    | none =>
      simp only [hrow]
      exact hw
    | some row =>
      simp only [hrow]
      exact hf w row hw hrow
  · intro claimed w h
    cases claimed with
    | true => exact hQ w h
    | false => exact h

/-- The step is recorded in the database, and not yet in the attempt's own copy. -/
structure Recorded (T : Account) (m : Mutation) (K : Prop) (lease : Lease) (k : Nat) (s : Step)
    (w : World) : Prop where
  forward : Forward T m K lease (k + 1) { w with memory := s.id :: w.memory }
  memory : Marked m.forward k w.memory
  tree : T.cond w.log → T.mid k w.fs

omit hT in
theorem Recorded.caught {k : Nat} {s : Step} {w : World} (h : Recorded T m K lease k s w) :
    Caught T m K lease w where
  inv :=
    { rows := h.forward.rows.recall
      before := h.forward.inv.before
      all := h.forward.inv.all
      flight := h.forward.inv.flight
      after := h.forward.inv.after
      stuck := h.forward.inv.stuck
      finished := h.forward.inv.finished
      good := h.forward.good }
  token := h.forward.token
  older _ := h.forward.older
  known _ := ⟨k, k + 1, Nat.le_succ k, h.memory, h.forward.applied, h.tree⟩

theorem triple_markStorageMutationStepApplied_forward {k : Nat} {s : Step}
    (hs : m.forward[k]? = some s) :
    Triple (fun w => Forward T m K lease k w ∧ (T.cond w.log → T.settled (k + 1) w.fs))
      (markStorageMutationStepApplied s.id lease)
      (fun _ => Recorded T m K lease k s) (fun _ => Caught T m K lease) := by
  refine triple_rowCall (stable_under hT (fun _ _ h hd => h.drift hT hd) _)
    (fun w h => h.1.caught) (fun _ h => h.caught) ?_
  rintro w w' ⟨h, hsettled⟩ hf
  split_ifs at hf
  obtain rfl := Option.some.inj hf
  have hmem := List.mem_of_getElem? hs
  refine ⟨{ h with
      rows := h.rows.emit (by simp)
      memory := h.memory.cons nodup_forward hs
      applied := h.applied.cons nodup_forward hs
      memoryClean := h.memoryClean.cons_other (id_not_mem_cleanup hmem)
      appliedClean := h.appliedClean.cons_other (id_not_mem_cleanup hmem)
      tree := fun hc => hT.mid_of_settled (hsettled (hT.cond_tail hc))
      all := fun hm => absurd (h.all hm).1 (Nat.ne_of_lt (lt_of_getElem?_eq_some hs))
      good := hT.good_note rfl h.good }, h.memory, fun hc => h.tree (hT.cond_tail hc)⟩

theorem triple_applyStorageMutationStep_forward {k : Nat} {s : Step}
    (hs : m.forward[k]? = some s) :
    Triple (Forward T m K lease k) (applyStorageMutationStep H m lease s)
      (fun _ => Forward T m K lease (k + 1)) (fun _ => Caught T m K lease) := by
  have hstable : Stable (Forward T m K lease k) := Forward.stable hT k
  unfold applyStorageMutationStep
  refine Triple.seq ((leaseCheck_assertLease lease _ hstable).exits fun _ h => h.caught) ?_
  refine Triple.seq (Q := fun _ w => Forward T m K lease k w ∧
    (T.cond w.log → T.settled (k + 1) w.fs)) ?_
    (Triple.seq (triple_markStorageMutationStepApplied_forward hT hs)
      (triple_modify fun w h => h.forward))
  refine Triple.exits (I := Forward T m K lease k) ?_ fun _ h => h.caught
  refine (triple_applyFilesystemStep_forward hT hs).handle (fun _ h => h) fun e => ?_
  exact Triple.seq ((triple_readCall hstable).post fun _ _ h => h.1) (triple_throw fun _ h => h)

theorem triple_forwardSteps :
    Triple (fun w => ∃ k, Forward T m K lease k w)
      (applyStorageMutationSteps H m lease false m.steps)
      (fun _ => Forward T m K lease m.forward.length) (fun _ => Caught T m K lease) := by
  refine (triple_applyStorageMutationSteps (P := Forward T m K lease)
    (p := fun s => !isCleanup s.action) (fun s => by simp) (fun _ _ h => h.memory)
    (fun _ _ hs => triple_applyStorageMutationStep_forward hT hs) (List.nil_append _).symm).pre ?_
  rintro w ⟨k, h⟩
  exact ⟨k, Nat.zero_le k, h⟩

/-! ## One cleanup step -/

omit hT in
theorem isOwnedQuarantineTreeDelete_congr {memory : List Nat} {s : Step}
    (h : Marked m.forward m.forward.length memory) :
    isOwnedQuarantineTreeDelete m memory s =
      isOwnedQuarantineTreeDelete m (m.forward.map Step.id) s := by
  have hany : (m.steps.any fun candidate => candidate.action = .rename &&
        candidate.targetKey = s.targetKey && memory.contains candidate.id) =
      m.steps.any fun candidate => candidate.action = .rename &&
        candidate.targetKey = s.targetKey && (m.forward.map Step.id).contains candidate.id := by
    rw [Bool.eq_iff_iff, List.any_eq_true, List.any_eq_true]
    refine exists_congr fun t => and_congr_right fun ht => ?_
    simp only [Bool.and_eq_true, decide_eq_true_eq, List.contains_iff_mem]
    refine and_congr_right fun hr => ?_
    have hforward : t ∈ m.forward := List.mem_filter.mpr ⟨ht, by rw [hr.1]; rfl⟩
    obtain ⟨i, hi⟩ := List.getElem?_of_mem hforward
    exact iff_of_true ((h.2 i t hi).mpr (lt_of_getElem?_eq_some hi)) (List.mem_map_of_mem hforward)
  unfold isOwnedQuarantineTreeDelete
  rw [hany]

/-- A change of the tree by the next cleanup step. -/
theorem Cleaning.change {c : Nat} {w : World} {s : Step} {X fs : Fs} {op : FsOp}
    (h : Cleaning T m K lease c w) (hs : m.cleanup[c]? = some s)
    (hX : T.cond w.log → T.sweeping c X) (hb : Sweeping H s (ownedDelete m s) X fs) :
    Cleaning T m K lease c ({ w with fs }.emit (.changed .cleanup op)) :=
  { h with
    rows := h.rows.emit (by simp)
    tree := fun hc => hT.sweep_between hs (hX (hT.cond_tail hc)) hb
    good := hT.good_note rfl h.good }

theorem triple_applyFilesystemStep_cleanup {c : Nat} {s : Step} (hs : m.cleanup[c]? = some s) :
    Triple (Cleaning T m K lease c) (applyFilesystemStep H m s (assertLease lease))
      (fun _ w => Cleaning T m K lease c w ∧ (T.cond w.log → T.sweeping (c + 1) w.fs))
      (fun _ => Cleaning T m K lease c) := by
  have hcleanup := (List.mem_filter.mp (List.mem_of_getElem? hs)).2
  have hdelete : Triple (Cleaning T m K lease c)
      (do
        let owned ← check (isOwnedQuarantineTreeDelete m (← get).memory s)
        applyDelete H s (assertLease lease) owned)
      (fun _ w => Cleaning T m K lease c w ∧ (T.cond w.log → T.sweeping (c + 1) w.fs))
      (fun _ => Cleaning T m K lease c) := by
    refine (triple_get (Q := fun s' w => Cleaning T m K lease c w ∧ s' = w)
      fun w h => ⟨h, rfl⟩).bind fun s' => ?_
    refine ((triple_check (A := fun w => Cleaning T m K lease c w ∧ s' = w)).exits
      fun _ h => h.1).bind fun owned => ?_
    rintro w ⟨⟨hw, rfl⟩, hsame⟩
    obtain rfl : ownedDelete m s = owned := by
      rw [isOwnedQuarantineTreeDelete_congr hw.memory] at hsame
      unfold ownedDelete
      rw [hsame]
      rfl
    let A := fun w' => Cleaning T m K lease c w' ∧ (T.cond w'.log → T.sweeping c s'.fs)
    have hA : Stable A := stable_under hT (fun _ _ h hd => h.drift hT hd) fun _ => T.sweeping c s'.fs
    have hallow : AllowsSweep A H s (ownedDelete m s) s'.fs := fun w' fs _ h hb =>
      ⟨h.1.change hT hs h.2 hb, fun hc => h.2 (hT.cond_tail hc)⟩
    have hrun := (triple_applyDelete hcleanup hA (leaseCheck_assertLease lease) hallow).weaken
      (fun _ h => h) (fun _ w' h => (⟨h.1.1, fun hc => hT.sweep_done hs (h.1.2 hc) h.2⟩ :
        Cleaning T m K lease c w' ∧ (T.cond w'.log → T.sweeping (c + 1) w'.fs)))
      fun _ _ h => h.1.1
    exact hrun s' ⟨⟨hw, hw.tree⟩, rfl⟩
  unfold applyFilesystemStep
  cases ha : s.action with
  | rename => rw [ha] at hcleanup; cases hcleanup
  | mkdir => rw [ha] at hcleanup; cases hcleanup
  | deleteFile => exact hdelete
  | deleteTree => exact hdelete
  | removeEmptyDirectory => exact hdelete

omit hT in
theorem Cleaning.caught_of_memory {c : Nat} {w : World} {memory : List Nat}
    (h : Cleaning T m K lease c { w with memory }) : Caught T m K lease w where
  inv :=
    { rows := h.rows.recall
      before := h.inv.before
      all := h.inv.all
      flight := h.inv.flight
      after := h.inv.after
      stuck := h.inv.stuck
      finished := h.inv.finished
      good := h.good }
  token := h.token
  older _ := h.older
  known hf := absurd (hf.symm.trans h.finalizing) (by simp)

theorem triple_applyStorageMutationStep_cleanup {c : Nat} {s : Step}
    (hs : m.cleanup[c]? = some s) :
    Triple (Cleaning T m K lease c) (applyStorageMutationStep H m lease s)
      (fun _ => Cleaning T m K lease (c + 1)) (fun _ => Caught T m K lease) := by
  have hstable : Stable (Cleaning T m K lease c) := Cleaning.stable hT c
  unfold applyStorageMutationStep
  refine Triple.seq ((leaseCheck_assertLease lease _ hstable).exits fun _ h => h.caught) ?_
  refine Triple.seq (Q := fun _ w => Cleaning T m K lease c w ∧
    (T.cond w.log → T.sweeping (c + 1) w.fs)) ?_ ?_
  · refine Triple.exits (I := Cleaning T m K lease c) ?_ fun _ h => h.caught
    refine (triple_applyFilesystemStep_cleanup hT hs).handle (fun _ h => h) fun e => ?_
    exact Triple.seq ((triple_readCall hstable).post fun _ _ h => h.1) (triple_throw fun _ h => h)
  · refine Triple.seq (Q := fun _ w => Cleaning T m K lease (c + 1)
      { w with memory := s.id :: w.memory }) ?_ (triple_modify fun w h => h)
    refine triple_rowCall (stable_under hT (fun _ _ h hd => h.drift hT hd) _)
      (fun w h => h.1.caught) (fun _ h => h.caught_of_memory) ?_
    rintro w w' ⟨h, hswept⟩ hf
    split_ifs at hf
    obtain rfl := Option.some.inj hf
    have hmem := List.mem_of_getElem? hs
    exact { h with
      rows := h.rows.emit (by simp)
      memory := h.memory.cons_other (id_not_mem_forward hmem)
      applied := h.applied.cons_other (id_not_mem_forward hmem)
      memoryClean := h.memoryClean.cons nodup_cleanup hs
      appliedClean := h.appliedClean.cons nodup_cleanup hs
      tree := fun hc => hswept (hT.cond_tail hc)
      good := hT.good_note rfl h.good }

theorem triple_cleanupSteps :
    Triple (fun w => ∃ c, Cleaning T m K lease c w)
      (applyStorageMutationSteps H m lease true m.steps)
      (fun _ => Cleaning T m K lease m.cleanup.length) (fun _ => Caught T m K lease) := by
  refine (triple_applyStorageMutationSteps (P := Cleaning T m K lease)
    (p := fun s => isCleanup s.action) (fun s => Iff.rfl) (fun _ _ h => h.memoryClean)
    (fun _ _ hs => triple_applyStorageMutationStep_cleanup hT hs) (List.nil_append _).symm).pre ?_
  rintro w ⟨c, h⟩
  exact ⟨c, Nat.zero_le c, h⟩

end Laws

end Staaash.Journal

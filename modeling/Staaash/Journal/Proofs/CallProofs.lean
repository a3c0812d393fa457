import Staaash.Journal.Proofs.EffectsProofs

/-!
# Proofs: calls

The rules for the calls a computation is made of. An assertion is stable when the time between two
calls, a renewed lease and a synced folder do not change it.
-/

namespace Staaash.Journal

open Staaash.Library (Proc Stop)
open Staaash.Library.Proc

structure Stable (A : World → Prop) : Prop where
  tick : ∀ w, A w → A w.tick.2
  renewed : ∀ w t, A w → A { w with row := { w.row with leaseExpiresAt := some t } }
  synced : ∀ w k, A w → A (w.emit (.synced k))

variable {A : World → Prop} {α : Type}

/-! ## What passing time leaves alone -/

theorem timerFires_frame (w : World) (r : Renewal) :
    (w.timerFires r).fs = w.fs ∧ (w.timerFires r).applied = w.applied ∧
      (w.timerFires r).memory = w.memory ∧ (w.timerFires r).log = w.log := by
  cases r with
  | idle => exact ⟨rfl, rfl, rfl, rfl⟩
  | due =>
    unfold World.timerFires
    cases w.timer with
    | none => exact ⟨rfl, rfl, rfl, rfl⟩
    | some lease =>
      dsimp only
      cases w.row.renew lease w.now with
      | none => exact ⟨rfl, rfl, rfl, rfl⟩
      | some row => exact ⟨rfl, rfl, rfl, rfl⟩
  | fails e =>
    unfold World.timerFires
    dsimp only
    split_ifs <;> exact ⟨rfl, rfl, rfl, rfl⟩

theorem delivered_frame (w : World) :
    w.delivered.fs = w.fs ∧ w.delivered.applied = w.applied ∧ w.delivered.memory = w.memory := by
  unfold World.delivered
  cases w.inFlight with
  | none => exact ⟨rfl, rfl, rfl⟩
  | some lease =>
    dsimp only
    cases w.row.commit lease w.now with
    | none => exact ⟨rfl, rfl, rfl⟩
    | some row => exact ⟨rfl, rfl, rfl⟩

/-- Passing time changes neither the tree nor the record of applied steps. -/
theorem tick_frame (w : World) :
    w.tick.2.fs = w.fs ∧ w.tick.2.applied = w.applied ∧ w.tick.2.memory = w.memory := by
  unfold World.tick
  cases w.schedule with
  | nil => exact ⟨rfl, rfl, rfl⟩
  | cons f rest =>
    dsimp only
    obtain ⟨h1, h2, h3, -⟩ :=
      timerFires_frame { w with now := w.now + f.delay, schedule := rest } f.renewal
    split_ifs
    · obtain ⟨g1, g2, g3⟩ := delivered_frame
        ({ w with now := w.now + f.delay, schedule := rest }.timerFires f.renewal)
      exact ⟨g1.trans h1, g2.trans h2, g3.trans h3⟩
    · exact ⟨h1, h2, h3⟩

/-- A fact about the tree is stable. -/
theorem Stable.tree (hA : Stable A) (p : Fs → Prop) : Stable fun w => A w ∧ p w.fs where
  tick w h := ⟨hA.tick w h.1, by rw [(tick_frame w).1]; exact h.2⟩
  renewed w t h := ⟨hA.renewed w t h.1, h.2⟩
  synced w k h := ⟨hA.synced w k h.1, h.2⟩

theorem Stable.withFs (hA : Stable A) (X : Fs) : Stable fun w => A w ∧ w.fs = X := hA.tree (· = X)

/-! ## Rules -/

theorem triple_callWith {P R : World → Prop} {early : Took → World → World} {effect : M α}
    {Q : α → World → Prop} {E : Stop Err → World → Prop} (htick : ∀ w, P w → R w.tick.2)
    (heffect : Triple R effect Q E) (hQ : ∀ a w, Q a w → ∀ s, E s w)
    (hcrash : ∀ s w, E s w → E .crash w) (hearly : ∀ took w, R w → ∀ s, E s (early took w)) :
    Triple P (callWith early effect) Q E := by
  intro w hw
  have hw' := htick w hw
  have hrun := heffect _ hw'
  unfold callWith
  dsimp only
  cases w.tick.1.outcome with
  | done => exact hrun
  | failed took e =>
    cases took with
    | yes =>
      dsimp only
      revert hrun
      cases effect w.tick.2 with
      | ok a s => exact fun h => hQ a s h _
      | error e s => exact fun h => h
    | no => exact hearly _ _ hw' _
    | later => exact hearly _ _ hw' _
    | partly left => exact hearly _ _ hw' _
  | crashed took =>
    cases took with
    | yes =>
      dsimp only
      revert hrun
      cases effect w.tick.2 with
      | ok a s => exact fun h => hQ a s h _
      | error e s => exact hcrash e s
    | no => exact hearly _ _ hw' _
    | later => exact hearly _ _ hw' _
    | partly left => exact hearly _ _ hw' _

/-- The rule for a call whose exits all satisfy the same condition. -/
theorem triple_call {P R : World → Prop} {effect : M α} {Q : α → World → Prop}
    {E : World → Prop} (htick : ∀ w, P w → R w.tick.2) (heffect : Triple R effect Q fun _ => E)
    (hQ : ∀ a w, Q a w → E w) (hP : ∀ w, R w → E w) : Triple P (call effect) Q fun _ => E :=
  triple_callWith htick heffect (fun a w h _ => hQ a w h) (fun _ _ h => h) fun _ w h _ => hP w h

theorem Stable.call {effect : M α} {Q : α → World → Prop} {E : World → Prop} (hA : Stable A)
    (heffect : Triple A effect Q fun _ => E) (hQ : ∀ a w, Q a w → E w) (hE : ∀ w, A w → E w) :
    Triple A (call effect) Q fun _ => E :=
  triple_call hA.tick heffect hQ hE

theorem triple_readCall {f : World → Except Err α} (hA : Stable A) :
    Triple A (readCall f) (fun a w => A w ∧ f w = .ok a) fun _ => A := by
  refine hA.call ?_ (fun _ _ h => h.1) fun _ h => h
  intro w hw
  cases hf : f w with
  | ok a => simpa [hf] using hw
  | error e => simpa [hf] using hw

theorem triple_check {x : Except Err α} :
    Triple A (check x) (fun a w => A w ∧ x = .ok a) fun _ => A := by
  intro w hw
  unfold check
  cases x with
  | ok a => exact ⟨hw, rfl⟩
  | error e => exact hw

/-- A synced folder is there. -/
theorem triple_syncDirectory_exists {k : Key} (hA : Stable A) :
    Triple A (syncDirectory k) (fun _ w => A w ∧ w.fs.IsDirectory k) fun _ => A := by
  refine hA.call ?_ (fun _ _ h => h.1) fun _ h => h
  intro w hw
  by_cases hk : w.fs.IsDirectory k
  · simp only [if_pos hk]
    exact ⟨hA.synced w k hw, hk⟩
  · simp only [if_neg hk]
    exact hw

theorem triple_syncDirectory {k : Key} (hA : Stable A) :
    Triple A (syncDirectory k) (fun _ => A) fun _ => A :=
  (triple_syncDirectory_exists hA).post fun _ _ h => h.1

theorem triple_syncFile {k : Key} (hA : Stable A) : Triple A (syncFile k) (fun _ => A) fun _ => A := by
  refine hA.call ?_ (fun _ _ h => h) fun _ h => h
  intro w hw
  by_cases hk : w.fs.get k ≠ none
  · simp only [if_pos hk]
    exact hA.synced w k hw
  · simp only [if_neg hk]
    exact hw

theorem triple_syncAll {ks : List Key} (hA : Stable A) : Triple A (syncAll ks) (fun _ => A) fun _ => A := by
  induction ks with
  | nil => exact triple_pure fun _ h => h
  | cons k ks ih => exact (triple_syncDirectory hA).seq ih

theorem triple_syncParents {items : List Key} (hA : Stable A) :
    Triple A (syncParents items) (fun _ => A) fun _ => A :=
  triple_syncAll hA

theorem triple_syncRenameSource {k : Key} {n : Node} (hA : Stable A) :
    Triple A (syncRenameSource k n) (fun _ => A) fun _ => A := by
  cases n with
  | file bytes => exact triple_syncFile hA
  | directory => exact triple_syncDirectory hA
  | other => exact triple_pure fun _ h => h

theorem triple_pathState {k : Key} (hA : Stable A) :
    Triple A (pathState k) (fun n w => A w ∧ w.fs.get k = n) fun _ => A :=
  (triple_readCall hA).post fun _ _ h => ⟨h.1, Except.ok.inj h.2⟩

theorem triple_assertSafeStorageAncestors {k : Key} (hA : Stable A) :
    Triple A (assertSafeStorageAncestors k)
      (fun _ w => A w ∧ safeAncestors w.fs (prefixes (dirname k)) = true) fun _ => A := by
  refine (triple_readCall hA).post fun _ w h => ⟨h.1, ?_⟩
  have := h.2
  split_ifs at this with hs
  exact hs

/-- A change of the tree: it takes place or is refused. -/
theorem triple_fsCall {phase : Phase} {op : FsOp} {f : Fs → Except Err Fs} {E : World → Prop}
    (hA : Stable A) (hE : ∀ w, A w → E w)
    (hchange : ∀ w fs, A w → f w.fs = .ok fs → E ({ w with fs }.emit (.changed phase op))) :
    Triple A (fsCall phase op f)
      (fun _ w => E w ∧ ∃ before, A before ∧ f before.fs = .ok w.fs ∧
        w = { before with fs := w.fs }.emit (.changed phase op)) fun _ => E := by
  refine hA.call ?_ (fun _ _ h => h.1) hE
  intro w hw
  cases hf : f w.fs with
  | ok fs =>
    simp only [hf]
    exact ⟨hchange w fs hw hf, w, hw, hf, rfl⟩
  | error e =>
    simp only [hf]
    exact hE w hw

/-! ## Leases -/

/-- A lease check keeps every stable assertion. -/
def LeaseCheck (lease : M Unit) : Prop := ∀ A, Stable A → Triple A lease (fun _ => A) fun _ => A

theorem leaseCheck_renew (lease : Lease) : LeaseCheck (renewStorageMutationLease lease) := by
  intro A hA
  refine hA.call ?_ (fun _ _ h => h) fun _ h => h
  intro w hw
  cases hr : w.row.renew lease w.now with
  | none =>
    simp only [hr]
    exact hw
  | some row =>
    simp only [hr]
    unfold Row.renew at hr
    split_ifs at hr
    obtain rfl := Option.some.inj hr
    exact hA.renewed w _ hw

theorem leaseCheck_assertLease (lease : Lease) : LeaseCheck (assertLease lease) := by
  intro A hA
  refine (triple_get (Q := fun s w => A w ∧ s = w) fun _ h => ⟨h, rfl⟩).bind fun s => ?_
  cases s.leaseFailure with
  | some e => exact triple_throw fun _ h => h.1
  | none => exact (leaseCheck_renew lease A hA).pre fun _ h => h.1

end Staaash.Journal

import Mathlib.Data.Option.Basic
import Mathlib.Order.Basic

/-!
# Computations that take fuel

A computation that may go on for ever is a function of its fuel, with `none` for "not ended yet". It
ends when enough fuel gives a result and no amount of fuel gives another.
-/

namespace Staaash.Library

variable {α β : Type} {P : α → Prop} {Q : β → Prop} {f : Nat → Option α}

/-- Enough fuel gives a result, always the same one, and `P` holds of it. -/
def Ends (f : Nat → Option α) (P : α → Prop) : Prop :=
  ∃ n a, P a ∧ (∀ fuel ≥ n, f fuel = some a) ∧ ∀ fuel b, f fuel = some b → b = a

theorem Ends.of_eq_some (h : Ends f P) {fuel : Nat} {a : α} (ha : f fuel = some a) : P a := by
  obtain ⟨n, b, hb, -, hall⟩ := h
  rw [hall fuel a ha]
  exact hb

theorem Ends.exists_eq_some (h : Ends f P) : ∃ fuel a, f fuel = some a := by
  obtain ⟨n, a, -, hfuel, -⟩ := h
  exact ⟨n, a, hfuel n (Nat.le_refl n)⟩

theorem Ends.unique (h : Ends f P) {fuel fuel' : Nat} {a b : α} (ha : f fuel = some a)
    (hb : f fuel' = some b) : a = b := by
  obtain ⟨n, c, -, -, hall⟩ := h
  rw [hall fuel a ha, hall fuel' b hb]

theorem ends_some {a : α} (h : P a) : Ends (fun _ => some a) P :=
  ⟨0, a, h, fun _ _ => rfl, fun _ _ hb => (Option.some.inj hb).symm⟩

/-- A computation that gives the same with more fuel, once it has given something. -/
theorem ends_of_mono (hmono : ∀ {fuel fuel' a}, fuel ≤ fuel' → f fuel = some a → f fuel' = some a)
    (hends : ∃ fuel a, f fuel = some a) (hP : ∀ {fuel a}, f fuel = some a → P a) : Ends f P := by
  obtain ⟨n, a, ha⟩ := hends
  refine ⟨n, a, hP ha, fun fuel hfuel => hmono hfuel ha, ?_⟩
  intro fuel b hb
  have hb' := hmono (Nat.le_max_left fuel n) hb
  have ha' := hmono (Nat.le_max_right fuel n) ha
  rw [ha'] at hb'
  exact (Option.some.inj hb').symm

theorem Ends.bind {g : α → Nat → Option β} (hf : Ends f P) (hg : ∀ a, P a → Ends (g a) Q) :
    Ends (fun fuel => (f fuel).bind fun a => g a fuel) Q := by
  obtain ⟨n, a, ha, hfuel, hall⟩ := hf
  obtain ⟨m, b, hb, hfuel', hall'⟩ := hg a ha
  refine ⟨max n m, b, hb, ?_, ?_⟩
  · intro fuel hle
    show (f fuel).bind (fun a => g a fuel) = some b
    rw [hfuel fuel (by omega), Option.bind_some, hfuel' fuel (by omega)]
  · intro fuel c hc
    obtain ⟨a', ha', hc⟩ := Option.bind_eq_some_iff.1 hc
    rw [hall fuel a' ha'] at hc
    exact hall' fuel c hc

theorem Ends.map {g : α → β} (hf : Ends f P) (hg : ∀ a, P a → Q (g a)) :
    Ends (fun fuel => (f fuel).map g) Q := by
  have heq : (fun fuel => (f fuel).map g) = fun fuel => (f fuel).bind fun a => some (g a) := by
    funext fuel
    cases f fuel <;> rfl
  rw [heq]
  exact hf.bind fun a ha => ends_some (hg a ha)

/-- A loop keeps what each of its rounds keeps. -/
theorem ends_foldlM {γ : Type} {step : Nat → α → γ → Option α} {l : List γ}
    (h : ∀ a, P a → ∀ c ∈ l, Ends (fun fuel => step fuel a c) P) {a : α} (ha : P a) :
    Ends (fun fuel => l.foldlM (step fuel) a) P := by
  induction l generalizing a with
  | nil => exact ends_some ha
  | cons c l ih =>
    exact (h a ha c List.mem_cons_self).bind fun b hb =>
      ih (fun a ha c hc => h a ha c (List.mem_cons_of_mem _ hc)) hb

end Staaash.Library

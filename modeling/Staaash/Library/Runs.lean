import Mathlib.Data.List.Basic

/-!
# Runs

A run applies a step function to the events of a list, one after the other. What a step keeps, under a
condition on the state before it and the event, a run keeps whose steps all meet the condition.
-/

namespace Staaash.Library

variable {σ ε : Type} {step : σ → ε → σ} {ok : σ → ε → Prop} {s : σ}

/-- Every event of a run meets a condition on the state before it. -/
def RunMeets (step : σ → ε → σ) (ok : σ → ε → Prop) : σ → List ε → Prop
  | _, [] => True
  | s, e :: rest => ok s e ∧ RunMeets step ok (step s e) rest

instance decidableRunMeets (step : σ → ε → σ) (ok : σ → ε → Prop) [∀ s e, Decidable (ok s e)] :
    (s : σ) → (events : List ε) → Decidable (RunMeets step ok s events)
  | _, [] => isTrue trivial
  | s, e :: rest =>
    haveI := decidableRunMeets step ok (step s e) rest
    inferInstanceAs (Decidable (ok s e ∧ _))

theorem runMeets_append {older newer : List ε} :
    RunMeets step ok s (older ++ newer) ↔
      RunMeets step ok s older ∧ RunMeets step ok (older.foldl step s) newer := by
  induction older generalizing s with
  | nil => exact ⟨fun h => ⟨trivial, h⟩, fun h => h.2⟩
  | cons e older ih =>
    show ok s e ∧ RunMeets step ok (step s e) (older ++ newer) ↔ _
    rw [ih]
    exact ⟨fun h => ⟨⟨h.1, h.2.1⟩, h.2.2⟩, fun h => ⟨h.1.1, h.1.2, h.2⟩⟩

theorem RunMeets.mono {ok' : σ → ε → Prop} (himp : ∀ s e, ok s e → ok' s e) {events : List ε}
    (h : RunMeets step ok s events) : RunMeets step ok' s events := by
  induction events generalizing s with
  | nil => trivial
  | cons e events ih => exact ⟨himp s e h.1, ih h.2⟩

/-- The rule of invariants. -/
theorem RunMeets.keeps {I : σ → Prop} (hstep : ∀ s e, ok s e → I s → I (step s e)) {events : List ε}
    (h : RunMeets step ok s events) (hinit : I s) : I (events.foldl step s) := by
  induction events generalizing s with
  | nil => exact hinit
  | cons e events ih => exact ih h.2 (hstep s e h.1 hinit)

/-- An invariant holds before every event. -/
theorem RunMeets.invariant {I : σ → Prop} (hstep : ∀ s e, ok s e → I s → I (step s e))
    {events : List ε} (h : RunMeets step ok s events) (hinit : I s) :
    RunMeets step (fun s e => ok s e ∧ I s) s events := by
  induction events generalizing s with
  | nil => trivial
  | cons e events ih => exact ⟨⟨h.1, hinit⟩, ih h.2 (hstep s e h.1 hinit)⟩

/-- A condition on the events alone. -/
theorem RunMeets.and_forall {p : ε → Prop} {events : List ε} (h : RunMeets step ok s events)
    (hall : ∀ e ∈ events, p e) : RunMeets step (fun s e => ok s e ∧ p e) s events := by
  induction events generalizing s with
  | nil => trivial
  | cons e events ih =>
    exact ⟨⟨h.1, hall e List.mem_cons_self⟩,
      ih h.2 fun e' he' => hall e' (List.mem_cons_of_mem e he')⟩

theorem runMeets_of_forall {p : ε → Prop} {events : List ε} (hall : ∀ e ∈ events, p e) :
    RunMeets step (fun _ e => p e) s events := by
  induction events generalizing s with
  | nil => trivial
  | cons e events ih =>
    exact ⟨hall e List.mem_cons_self, ih fun e' he' => hall e' (List.mem_cons_of_mem e he')⟩

/-- The rule for runs without a condition. -/
theorem run_keeps {I : σ → Prop} (hstep : ∀ s e, I s → I (step s e)) (events : List ε) (hinit : I s) :
    I (events.foldl step s) := by
  induction events generalizing s with
  | nil => exact hinit
  | cons e events ih => exact ih (hstep s e hinit)

/-- What an invariant says of the next event holds at every event of a run. -/
theorem run_meets {I : σ → Prop} (hstep : ∀ s e, I s → I (step s e)) (hok : ∀ s e, I s → ok s e)
    {events : List ε} (hinit : I s) : RunMeets step ok s events := by
  induction events generalizing s with
  | nil => trivial
  | cons e events ih => exact ⟨hok s e hinit, ih (hstep s e hinit)⟩

/-! ## Tallies

How many events of a run count, since the last one that starts the tally over. An invariant may relate the
state of the run to the tally.
-/

variable {counts startsOver : σ → ε → Bool} {n : Nat}

/-- The tally after one event. -/
def tallied (counts startsOver : σ → ε → Bool) (s : σ) (n : Nat) (e : ε) : Nat :=
  if startsOver s e then 0 else if counts s e then n + 1 else n

/-- The tally after a run. -/
def tally (step : σ → ε → σ) (counts startsOver : σ → ε → Bool) : σ → Nat → List ε → Nat
  | _, n, [] => n
  | s, n, e :: rest =>
    tally step counts startsOver (step s e) (tallied counts startsOver s n e) rest

theorem tally_append (older newer : List ε) :
    tally step counts startsOver s n (older ++ newer) =
      tally step counts startsOver (older.foldl step s) (tally step counts startsOver s n older)
        newer := by
  induction older generalizing s n with
  | nil => rfl
  | cons e older ih => exact ih

theorem tallied_of_neither {e : ε} (hcounts : counts s e = false) (hover : startsOver s e = false) :
    tallied counts startsOver s n e = n := by
  unfold tallied
  simp [hcounts, hover]

/-- The rule of invariants that speak of the tally. -/
theorem RunMeets.tally_keeps {I : σ → Nat → Prop}
    (hstep : ∀ s n e, ok s e → I s n → I (step s e) (tallied counts startsOver s n e))
    {events : List ε} (h : RunMeets step ok s events) (hinit : I s n) :
    I (events.foldl step s) (tally step counts startsOver s n events) := by
  induction events generalizing s n with
  | nil => exact hinit
  | cons e events ih => exact ih h.2 (hstep s n e h.1 hinit)

end Staaash.Library

import Mathlib.Data.List.Basic

/-!
# Computations that can be interrupted

A computation over a state either returns, throws an error that a handler can see, or is cut off
by a crash that no handler sees. What it has done to the state stays in every case. `Triple` is
partial correctness with a condition for the ways of not returning: what holds at every point where
the computation can be left, and how it was left there.
-/

namespace Staaash.Library

/-- The two ways a computation ends without a result. -/
inductive Stop (ε : Type)
  | crash
  | thrown (e : ε)
deriving DecidableEq, Repr

/-- A computation over the state `σ` with errors `ε`. -/
abbrev Proc (σ ε α : Type) := EStateM (Stop ε) σ α

namespace Proc

variable {σ ε α β : Type}

/-- Throw an error. -/
def throw (e : ε) : Proc σ ε α := fun s => .error (.thrown e) s

/-- Handle the errors of `x`; a crash passes through. -/
def handle (x : Proc σ ε α) (h : ε → Proc σ ε α) : Proc σ ε α := fun s =>
  match x s with
  | .error (.thrown e) s' => h e s'
  | r => r

/-- `x` with its errors ignored. -/
def ignoreErrors (x : Proc σ ε Unit) : Proc σ ε Unit := handle x fun _ => pure ()

/-- The state `x` leaves, however it ends. -/
def after (x : Proc σ ε α) (s : σ) : σ :=
  match x s with
  | .ok _ s' => s'
  | .error _ s' => s'

/-- Started where `P` holds, `x` returns where `Q` holds or ends early where `E` holds. -/
def Triple (P : σ → Prop) (x : Proc σ ε α) (Q : α → σ → Prop) (E : Stop ε → σ → Prop) : Prop :=
  ∀ s, P s → match x s with
    | .ok a s' => Q a s'
    | .error e s' => E e s'

variable {P P' : σ → Prop} {Q Q' : α → σ → Prop} {E E' : Stop ε → σ → Prop}

theorem Triple.weaken {x : Proc σ ε α} (h : Triple P x Q E) (hp : ∀ s, P' s → P s)
    (hq : ∀ a s, Q a s → Q' a s) (he : ∀ e s, E e s → E' e s) : Triple P' x Q' E' := by
  intro s hs
  have := h s (hp s hs)
  revert this
  cases x s with
  | ok a s' => exact hq a s'
  | error e s' => exact he e s'

theorem Triple.pre {x : Proc σ ε α} (h : Triple P x Q E) (hp : ∀ s, P' s → P s) :
    Triple P' x Q E :=
  h.weaken hp (fun _ _ h => h) fun _ _ h => h

theorem Triple.post {x : Proc σ ε α} (h : Triple P x Q E) (hq : ∀ a s, Q a s → Q' a s) :
    Triple P x Q' E :=
  h.weaken (fun _ h => h) hq fun _ _ h => h

/-- Weaken what holds where the computation is left, in whatever way. -/
theorem Triple.exits {x : Proc σ ε α} {I J : σ → Prop} (h : Triple P x Q fun _ => I)
    (hij : ∀ s, I s → J s) : Triple P x Q fun _ => J :=
  h.weaken (fun _ h => h) (fun _ _ h => h) fun _ => hij

/-- A fact that does not depend on the state is an assumption. -/
theorem Triple.assume {p : Prop} {x : Proc σ ε α} (h : p → Triple P x Q E) :
    Triple (fun s => P s ∧ p) x Q E :=
  fun s hs => h hs.2 s hs.1

theorem triple_pure {a : α} (h : ∀ s, P s → Q a s) : Triple P (pure a : Proc σ ε α) Q E := h

theorem triple_throw {e : ε} (h : ∀ s, P s → E (.thrown e) s) : Triple P (throw e : Proc σ ε α) Q E := h

theorem triple_get {Q : σ → σ → Prop} (h : ∀ s, P s → Q s s) :
    Triple P (get : Proc σ ε σ) Q E := h

theorem triple_modify {f : σ → σ} {Q : Unit → σ → Prop} (h : ∀ s, P s → Q () (f s)) :
    Triple P (modify f : Proc σ ε Unit) Q E := h

theorem Triple.bind {x : Proc σ ε α} {f : α → Proc σ ε β} {R : β → σ → Prop}
    (hx : Triple P x Q E) (hf : ∀ a, Triple (Q a) (f a) R E) : Triple P (x >>= f) R E := by
  intro s hs
  have hxs := hx s hs
  show match EStateM.bind x f s with
    | .ok a s' => R a s'
    | .error e s' => E e s'
  unfold EStateM.bind
  revert hxs
  cases x s with
  | ok a s' => exact hf a s'
  | error _ s' => exact fun h => h

theorem Triple.seq {x : Proc σ ε Unit} {y : Proc σ ε β} {Q : Unit → σ → Prop} {R : β → σ → Prop}
    (hx : Triple P x Q E) (hy : Triple (Q ()) y R E) : Triple P (x >>= fun _ => y) R E :=
  hx.bind fun _ => hy

/-- A handler starts where the computation was left, and only a crash gets past it. -/
theorem Triple.handle {x : Proc σ ε α} {h : ε → Proc σ ε α} {M : Stop ε → σ → Prop}
    (hx : Triple P x Q M) (hm : ∀ s, M .crash s → E .crash s)
    (hh : ∀ e, Triple (M (.thrown e)) (h e) Q E) :
    Triple P (x.handle h) Q E := by
  intro s hs
  have hxs := hx s hs
  show match (match x s with
      | .error (.thrown e) s' => h e s'
      | r => r : EStateM.Result (Stop ε) σ α) with
    | .ok a s' => Q a s'
    | .error e s' => E e s'
  revert hxs
  cases x s with
  | ok a s' => exact fun h => h
  | error e s' =>
    intro hs'
    cases e with
    | crash => exact hm s' hs'
    | thrown e => exact hh e s' hs'

theorem Triple.ignoreErrors {x : Proc σ ε Unit} {I : σ → Prop}
    (hx : Triple P x (fun _ => I) fun _ => I) :
    Triple P x.ignoreErrors (fun _ => I) fun _ => I :=
  hx.handle (fun _ h => h) fun _ => triple_pure fun _ h => h

/-- The rule for a branch. -/
theorem triple_ite {c : Prop} [Decidable c] {x y : Proc σ ε α}
    (hx : c → Triple P x Q E) (hy : ¬ c → Triple P y Q E) :
    Triple P (if c then x else y) Q E := by
  split_ifs with h
  · exact hx h
  · exact hy h

/-- What a run of `x` from a state with `P` leaves behind. -/
theorem Triple.after {x : Proc σ ε α} {I : σ → Prop} (h : Triple P x (fun _ => I) fun _ => I)
    {s : σ} (hs : P s) : I (x.after s) := by
  have hrun := h s hs
  unfold Proc.after
  revert hrun
  cases x s with
  | ok a s' => exact fun h => h
  | error _ s' => exact fun h => h

end Proc

end Staaash.Library

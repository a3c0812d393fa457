import Mathlib.Logic.Function.Basic
import Mathlib.Logic.Relation
import Mathlib.Order.WellFoundedSet

/-!
# Parent pointers

Things that name their parent, if they have one. When no thing lies above itself and only finitely
many name a parent, every walk ends: upwards from parent to parent, and downwards through the
children, breadth first or depth first.
-/

namespace Staaash.Library

open Relation

variable {α : Type} {up up' : α → Option α}

/-- Going up from `x`, one step or more, comes to `y`. -/
def Above (up : α → Option α) : α → α → Prop := TransGen fun x y => up x = some y

/-- `y` is `x` or lies above it. -/
def AtOrAbove (up : α → Option α) : α → α → Prop := ReflTransGen fun x y => up x = some y

/-- Nothing lies above itself. -/
def Acyclic (up : α → Option α) : Prop := ∀ x, ¬ Above up x x

theorem Above.mono (h : ∀ x y, up x = some y → up' x = some y) {x y : α} (ha : Above up x y) :
    Above up' x y := by
  induction ha with
  | single hs => exact .single (h _ _ hs)
  | tail _ hs ih => exact .tail ih (h _ _ hs)

theorem Acyclic.mono (h : ∀ x y, up' x = some y → up x = some y) (ha : Acyclic up) :
    Acyclic up' :=
  fun x hx => ha x (Above.mono h hx)

/-- A way up starts with a step, if it leads anywhere else. -/
theorem AtOrAbove.eq_of_up_eq_none {x y : α} (h : AtOrAbove up x y) (hx : up x = none) : x = y := by
  rcases ReflTransGen.cases_head h with rfl | ⟨z, hz, -⟩
  · rfl
  · rw [hx] at hz
    cases hz

/-- A parent from acyclic pointers that agree on everything below `x` does not lie below `x` itself. -/
theorem not_atOrAbove_of_agree {now : α → Option α} {x p : α} (hnow : Acyclic now)
    (hx : now x = some p) (hagree : ∀ y, Above up y x → now y = up y) : ¬ AtOrAbove up p x := by
  have hway : ∀ {y}, AtOrAbove up y x → AtOrAbove now y x := by
    intro y hy
    induction hy using ReflTransGen.head_induction_on with
    | refl => exact .refl
    | head hs hrest ih => exact ih.head ((hagree _ (.head' hs hrest)).trans hs)
  exact fun hp => hnow x (.head' hx (hway hp))

/-- Parents that are numbered below their children. -/
theorem acyclic_of_rank (rank : α → Nat) (h : ∀ x y, up x = some y → rank y < rank x) :
    Acyclic up := by
  have habove : ∀ {x y}, Above up x y → rank y < rank x := by
    intro x y hxy
    induction hxy with
    | single hs => exact h _ _ hs
    | tail _ hs ih => exact lt_trans (h _ _ hs) ih
  intro x hx
  exact lt_irrefl _ (habove hx)

/-! ## Giving a thing another parent -/

section Update

variable [DecidableEq α] {x p : α}

/-- A way up either was there before, or leads to `x` and on from its new parent. -/
theorem above_update (hp : ¬ AtOrAbove up p x) {y z : α}
    (h : Above (Function.update up x (some p)) y z) :
    Above up y z ∨ (AtOrAbove up y x ∧ AtOrAbove up p z) := by
  induction h with
  | @single z h =>
    by_cases hy : y = x
    · rw [hy, Function.update_self] at h
      exact .inr ⟨hy ▸ .refl, Option.some.inj h ▸ .refl⟩
    · rw [Function.update_of_ne hy] at h
      exact .inl (.single h)
  | @tail w z _ h ih =>
    rcases ih with ih | ⟨hyx, hpw⟩
    · by_cases hw : w = x
      · rw [hw, Function.update_self] at h
        exact .inr ⟨(hw ▸ ih).to_reflTransGen, Option.some.inj h ▸ .refl⟩
      · rw [Function.update_of_ne hw] at h
        exact .inl (.tail ih h)
    · have hw : w ≠ x := fun hw => hp (hw ▸ hpw)
      rw [Function.update_of_ne hw] at h
      exact .inr ⟨hyx, hpw.tail h⟩

/-- The way up to `x` does not lead through its parent. -/
theorem atOrAbove_update {y : α} (h : AtOrAbove up y x) :
    AtOrAbove (Function.update up x (some p)) y x := by
  induction h using ReflTransGen.head_induction_on with
  | refl => exact .refl
  | @head y z h _ ih =>
    by_cases hy : y = x
    · exact hy ▸ .refl
    · exact .head (by rwa [Function.update_of_ne hy]) ih

/-- A new parent closes a cycle just when it is the thing itself or lies below it. -/
theorem acyclic_update_iff (hup : Acyclic up) :
    Acyclic (Function.update up x (some p)) ↔ ¬ AtOrAbove up p x := by
  constructor
  · intro h hp
    exact h x (TransGen.head' (Function.update_self ..) (atOrAbove_update hp))
  · intro hp y h
    rcases above_update hp h with h | ⟨hyx, hpy⟩
    · exact hup y h
    · exact hp (hpy.trans hyx)

end Update

/-! ## Walks end -/

section Ends

variable (hup : Acyclic up) (hfin : {x | (up x).isSome}.Finite)

include hup in
theorem isStrictOrder_above : IsStrictOrder α (Above up) where
  irrefl := hup
  trans := fun _ _ _ => TransGen.trans

include hup in
theorem isStrictOrder_below : IsStrictOrder α fun x y => Above up y x where
  irrefl := hup
  trans := fun _ _ _ h h' => TransGen.trans h' h

include hup hfin

/-- Going down from child to child ends. -/
theorem acc_child (x : α) : Acc (fun c x => up c = some x) x := by
  have := isStrictOrder_above hup
  have hwf : {x | (up x).isSome}.WellFoundedOn (Above up) := hfin.wellFoundedOn
  refine ⟨x, fun c hc => hwf.induction (x := c) (by simp [hc]) ?_⟩
  intro y _ ih
  exact ⟨y, fun c hc => ih c (by simp [hc]) (.single hc)⟩

/-- Going up from parent to parent ends. -/
theorem acc_parent (x : α) : Acc (fun y x => up x = some y) x := by
  have := isStrictOrder_below hup
  have hwf : {x | (up x).isSome}.WellFoundedOn fun x y => Above up y x := hfin.wellFoundedOn
  have hacc : ∀ x, (up x).isSome → Acc (fun y x => up x = some y) x := by
    intro x hx
    refine hwf.induction (x := x) hx ?_
    intro y _ ih
    refine ⟨y, fun z hz => ?_⟩
    by_cases hz' : (up z).isSome
    · exact ih z hz' (.single hz)
    · exact ⟨z, fun w hw => absurd (by simp [hw]) hz'⟩
  by_cases hx : (up x).isSome
  · exact hacc x hx
  · exact ⟨x, fun y hy => absurd (by simp [hy]) hx⟩

end Ends

/-! ## A breadth-first walk -/

variable {down : α → List α}

/-- Visit what is queued, and queue the children of what is visited; `none` when that takes more than
`fuel` visits. -/
def walk (down : α → List α) : Nat → List α → Option (List α)
  | _, [] => some []
  | 0, _ :: _ => none
  | fuel + 1, x :: queue => (walk down fuel (queue ++ down x)).map (x :: ·)

/-- More visits allowed change nothing about a walk that ended. -/
theorem walk_mono {fuel fuel' : Nat} (h : fuel ≤ fuel') {queue ids : List α}
    (hw : walk down fuel queue = some ids) : walk down fuel' queue = some ids := by
  induction fuel generalizing fuel' queue ids with
  | zero =>
    cases queue with
    | nil => cases fuel' <;> exact hw
    | cons x queue => cases hw
  | succ fuel ih =>
    cases queue with
    | nil => cases fuel' <;> exact hw
    | cons x queue =>
      obtain ⟨fuel', rfl⟩ : ∃ n, fuel' = n + 1 := ⟨fuel' - 1, by omega⟩
      rw [walk, Option.map_eq_some_iff] at hw
      obtain ⟨rest, hrest, rfl⟩ := hw
      rw [walk, ih (by omega) hrest, Option.map_some]

/-- A walk visits what can be reached from the queue. -/
theorem mem_walk {fuel : Nat} {queue ids : List α} (hw : walk down fuel queue = some ids) {y : α} :
    y ∈ ids ↔ ∃ x ∈ queue, ReflTransGen (fun x c => c ∈ down x) x y := by
  induction fuel generalizing queue ids with
  | zero =>
    cases queue with
    | nil => cases hw; simp
    | cons x queue => cases hw
  | succ fuel ih =>
    cases queue with
    | nil => cases hw; simp
    | cons x queue =>
      rw [walk, Option.map_eq_some_iff] at hw
      obtain ⟨rest, hrest, rfl⟩ := hw
      rw [List.mem_cons, ih hrest]
      constructor
      · rintro (rfl | ⟨z, hz, hzy⟩)
        · exact ⟨y, List.mem_cons_self, .refl⟩
        · rcases List.mem_append.1 hz with hz | hz
          · exact ⟨z, List.mem_cons_of_mem _ hz, hzy⟩
          · exact ⟨x, List.mem_cons_self, .head hz hzy⟩
      · rintro ⟨z, hz, hzy⟩
        rcases List.mem_cons.1 hz with rfl | hz
        · rcases ReflTransGen.cases_head hzy with rfl | ⟨c, hc, hcy⟩
          · exact .inl rfl
          · exact .inr ⟨c, List.mem_append_right _ hc, hcy⟩
        · exact .inr ⟨z, List.mem_append_left _ hz, hzy⟩

/-- How many visits a queue takes. -/
inductive Weighs (down : α → List α) : List α → Nat → Prop
  | nil : Weighs down [] 0
  | cons {x : α} {queue : List α} {m n : Nat} :
    Weighs down (down x) m → Weighs down queue n → Weighs down (x :: queue) (m + n + 1)

theorem Weighs.append {q q' : List α} {m n : Nat} (h : Weighs down q m) (h' : Weighs down q' n) :
    Weighs down (q ++ q') (m + n) := by
  induction h with
  | nil => simpa using h'
  | @cons x q k l hx _ _ ih =>
    have hlen : k + l + 1 + n = k + (l + n) + 1 := by omega
    rw [hlen]
    exact .cons hx ih

theorem Weighs.walk_eq_some {queue : List α} {n : Nat} (h : Weighs down queue n) :
    ∃ ids, walk down n queue = some ids := by
  induction n using Nat.strong_induction_on generalizing queue with
  | _ n ih =>
    cases h with
    | nil => exact ⟨[], rfl⟩
    | @cons x queue k l hx hq =>
      obtain ⟨ids, hids⟩ := ih (l + k) (by omega) (hq.append hx)
      refine ⟨x :: ids, ?_⟩
      rw [walk, Nat.add_comm k l, hids, Option.map_some]

theorem weighs_of_forall {queue : List α} (h : ∀ x ∈ queue, ∃ n, Weighs down (down x) n) :
    ∃ n, Weighs down queue n := by
  induction queue with
  | nil => exact ⟨0, .nil⟩
  | cons x queue ih =>
    obtain ⟨m, hm⟩ := h x List.mem_cons_self
    obtain ⟨n, hn⟩ := ih fun y hy => h y (List.mem_cons_of_mem _ hy)
    exact ⟨m + n + 1, .cons hm hn⟩

/-- The children have the parent that they are listed under. -/
theorem walk_ends (hup : Acyclic up) (hfin : {x | (up x).isSome}.Finite)
    (hdown : ∀ x, ∀ c ∈ down x, up c = some x) (x : α) :
    ∃ fuel ids, walk down fuel [x] = some ids := by
  have hweighs : ∀ x, ∃ n, Weighs down (down x) n := by
    intro x
    induction acc_child hup hfin x with
    | intro x _ ih => exact weighs_of_forall fun c hc => ih c (hdown x c hc)
  obtain ⟨n, hn⟩ : ∃ n, Weighs down [x] n := weighs_of_forall fun y _ => hweighs y
  exact ⟨n, hn.walk_eq_some⟩

end Staaash.Library

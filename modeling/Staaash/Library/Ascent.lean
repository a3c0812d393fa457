import Mathlib.Data.Finset.Card
import Mathlib.Data.List.Dedup
import Mathlib.Data.List.Perm.Subperm
import Staaash.Library.ParentPointers

/-!
# Going up, with what was seen

The loop that goes from a thing to the one above it while there is one that it has not seen. What was
seen is kept by a key. When the things on the way are told apart by their keys, and there are no more
keys than rounds, the loop visits all that lies above.

How many things lie at or above a thing bounds how far a walk up or down can go.
-/

namespace Staaash.Library

open Relation

variable {α κ : Type} [DecidableEq κ] {key : α → κ} {up : α → Option α}

/-- What the loop visits. -/
def ascent (key : α → κ) (up : α → Option α) : Nat → List κ → α → List α
  | 0, _, _ => []
  | fuel + 1, seen, x =>
    if key x ∈ seen then []
    else x :: ((up x).map (ascent key up fuel (key x :: seen))).getD []

theorem AtOrAbove.keeps {P : α → Prop} (hup : ∀ x y, P x → up x = some y → P y) {x y : α}
    (h : AtOrAbove up x y) (hx : P x) : P y := by
  induction h with
  | refl => exact hx
  | tail _ hs ih => exact hup _ _ ih hs

/-- A way up over things whose step up is the same. -/
theorem AtOrAbove.transfer {up' : α → Option α} {P : α → Prop}
    (hup : ∀ x y, P x → up x = some y → up' x = some y ∧ P y) {x y : α} (h : AtOrAbove up x y) (hx : P x) :
    AtOrAbove up' x y := by
  have hkeeps := fun {z} (hz : AtOrAbove up x z) => hz.keeps (fun a b ha hb => (hup a b ha hb).2) hx
  induction h with
  | refl => exact .refl
  | tail hy hs ih => exact ih.tail (hup _ _ (hkeeps hy) hs).1

theorem atOrAbove_of_mem_ascent {fuel : Nat} {seen : List κ} {x y : α}
    (h : y ∈ ascent key up fuel seen x) : AtOrAbove up x y := by
  induction fuel generalizing seen x with
  | zero => cases h
  | succ fuel ih =>
    rw [ascent] at h
    split at h
    · cases h
    · rcases List.mem_cons.1 h with rfl | h
      · exact .refl
      · cases hup : up x with
        | none => rw [hup] at h; cases h
        | some z =>
          rw [hup] at h
          exact .head hup (ih h)

section Complete

variable {P : α → Prop} {dom : List κ} (hup : ∀ x y, P x → up x = some y → P y)
  (hinj : ∀ x y, P x → P y → key x = key y → x = y) (hdom : ∀ x, P x → key x ∈ dom)

include hdom in
/-- There is a round left for what is not seen. -/
theorem mem_ascent_self {fuel : Nat} {seen : List κ} {x : α} (hx : P x) (hnew : key x ∉ seen)
    (hnodup : seen.Nodup) (hsub : seen ⊆ dom) (hfuel : dom.length ≤ fuel + seen.length) :
    x ∈ ascent key up fuel seen x := by
  cases fuel with
  | zero =>
    have hcons : (key x :: seen).Nodup := List.nodup_cons.2 ⟨hnew, hnodup⟩
    have hle : (key x :: seen).length ≤ dom.length :=
      (hcons.subperm (List.cons_subset.2 ⟨hdom x hx, hsub⟩)).length_le
    rw [List.length_cons] at hle
    omega
  | succ fuel =>
    rw [ascent, if_neg hnew]
    exact List.mem_cons_self

include hup hinj hdom in
/-- What lies above something visited is visited, unless it was seen. -/
theorem ascent_closed {fuel : Nat} {seen : List κ} {x y z : α} (hx : P x) (hnodup : seen.Nodup)
    (hsub : seen ⊆ dom) (hfuel : dom.length ≤ fuel + seen.length)
    (hy : y ∈ ascent key up fuel seen x) (hz : up y = some z) :
    z ∈ ascent key up fuel seen x ∨ key z ∈ seen := by
  induction fuel generalizing seen x with
  | zero => cases hy
  | succ fuel ih =>
    rw [ascent] at hy ⊢
    split at hy
    · cases hy
    · rename_i hnew
      have hnodup' : (key x :: seen).Nodup := List.nodup_cons.2 ⟨hnew, hnodup⟩
      have hsub' : key x :: seen ⊆ dom := List.cons_subset.2 ⟨hdom x hx, hsub⟩
      have hfuel' : dom.length ≤ fuel + (key x :: seen).length := by
        rw [List.length_cons]
        omega
      rw [if_neg hnew]
      -- a thing with the key of `x` is `x`
      have hback : ∀ {w : α}, P w → key w ∈ key x :: seen →
          w ∈ x :: ((up x).map (ascent key up fuel (key x :: seen))).getD [] ∨ key w ∈ seen := by
        intro w hw hmem
        rcases List.mem_cons.1 hmem with heq | hmem
        · exact .inl (hinj w x hw hx heq ▸ List.mem_cons_self)
        · exact .inr hmem
      rcases List.mem_cons.1 hy with rfl | hy
      · have hPz : P z := hup y z hx hz
        by_cases hseen : key z ∈ key y :: seen
        · exact hback hPz hseen
        · refine .inl (List.mem_cons_of_mem _ ?_)
          rw [hz]
          exact mem_ascent_self hdom hPz hseen hnodup' hsub' hfuel'
      · cases hupx : up x with
        | none => rw [hupx] at hy; cases hy
        | some w =>
          have hPw : P w := hup x w hx hupx
          rw [hupx] at hy hback
          have hPy : P y := (atOrAbove_of_mem_ascent hy).keeps hup hPw
          rcases ih hPw hnodup' hsub' hfuel' hy with hin | hseen
          · exact .inl (List.mem_cons_of_mem _ hin)
          · exact hback (hup y z hPy hz) hseen

include hup hinj hdom in
theorem mem_ascent {fuel : Nat} {x y : α} (hx : P x) (hfuel : dom.length ≤ fuel) :
    y ∈ ascent key up fuel [] x ↔ AtOrAbove up x y := by
  refine ⟨atOrAbove_of_mem_ascent, fun h => ?_⟩
  induction h with
  | refl => exact mem_ascent_self hdom hx List.not_mem_nil List.nodup_nil (List.nil_subset dom) hfuel
  | tail _ hs ih =>
    have hclosed := ascent_closed hup hinj hdom hx List.nodup_nil (List.nil_subset dom) hfuel ih hs
    exact hclosed.resolve_right List.not_mem_nil

end Complete

/-! ## Heights in a forest -/

theorem Acyclic.not_atOrAbove (hup : Acyclic up) {x y : α} (hy : up x = some y) : ¬ AtOrAbove up y x :=
  fun h => hup x (TransGen.head' hy h)

open Classical in
/-- How many of these lie at or above a thing. -/
noncomputable def heightIn (up : α → Option α) (dom : List α) (x : α) : Nat :=
  (dom.toFinset.filter fun z => AtOrAbove up x z).card

theorem heightIn_le (dom : List α) (x : α) : heightIn up dom x ≤ dom.length := by
  classical
  exact (Finset.card_filter_le _ _).trans (List.toFinset_card_le dom)

section Forest

variable (hup : Acyclic up) {dom : List α} (hdom : ∀ x, (up x).isSome → x ∈ dom)

include hup hdom

theorem heightIn_step {x y : α} (hy : up x = some y) : heightIn up dom y < heightIn up dom x := by
  classical
  have hx : x ∈ dom := hdom x (by rw [hy]; rfl)
  refine Finset.card_lt_card (Finset.ssubset_iff_subset_ne.2 ⟨fun z hz => ?_, fun heq => ?_⟩)
  · obtain ⟨hmem, hz⟩ := Finset.mem_filter.1 hz
    exact Finset.mem_filter.2 ⟨hmem, .head hy hz⟩
  · have hself : x ∈ dom.toFinset.filter fun z => AtOrAbove up x z :=
      Finset.mem_filter.2 ⟨List.mem_toFinset.2 hx, .refl⟩
    rw [← heq] at hself
    exact hup.not_atOrAbove hy (Finset.mem_filter.1 hself).2

theorem heightIn_above {x y : α} (hxy : Above up x y) : heightIn up dom y < heightIn up dom x := by
  induction hxy with
  | single hs => exact heightIn_step hup hdom hs
  | tail _ hs ih => exact Nat.lt_trans (heightIn_step hup hdom hs) ih

end Forest

section Ascent

variable [DecidableEq α] (hup : Acyclic up)

include hup in
/-- What was seen elsewhere makes no difference. -/
theorem ascent_seen {fuel : Nat} {seen : List α} {x : α} (hseen : ∀ z, AtOrAbove up x z → z ∉ seen) :
    ascent (·) up fuel seen x = ascent (·) up fuel [] x := by
  induction fuel generalizing seen x with
  | zero => rfl
  | succ fuel ih =>
    rw [ascent, ascent, if_neg (hseen x .refl), if_neg List.not_mem_nil]
    rcases hy : up x with _ | y
    · rfl
    · have hfresh : ∀ z, AtOrAbove up y z → z ≠ x := by
        rintro z hz rfl
        exact hup.not_atOrAbove hy hz
      have hempty : ascent (·) up fuel [x] y = ascent (·) up fuel [] y :=
        ih fun z hz hmem => hfresh z hz (List.mem_singleton.1 hmem)
      have hcons : ascent (·) up fuel (x :: seen) y = ascent (·) up fuel [] y := by
        refine ih fun z hz hmem => ?_
        rcases List.mem_cons.1 hmem with rfl | hmem
        · exact hfresh z hz rfl
        · exact hseen z (.head hy hz) hmem
      rw [Option.map_some, Option.map_some, Option.getD_some, Option.getD_some, hempty, hcons]

variable {dom : List α} (hdom : ∀ x, (up x).isSome → x ∈ dom)

include hup

theorem ascent_step (fuel : Nat) (x : α) :
    ascent (·) up (fuel + 1) [] x = x :: ((up x).map (ascent (·) up fuel [])).getD [] := by
  rw [ascent, if_neg List.not_mem_nil]
  rcases hy : up x with _ | y
  · rfl
  · rw [Option.map_some, Option.map_some, Option.getD_some, Option.getD_some, ascent_seen hup]
    rintro z hz hmem
    rw [List.mem_singleton.1 hmem] at hz
    exact hup.not_atOrAbove hy hz

include hdom

/-- More rounds than the height make no difference. -/
theorem ascent_more {fuel : Nat} {x : α} (hfuel : heightIn up dom x < fuel) :
    ascent (·) up (fuel + 1) [] x = ascent (·) up fuel [] x := by
  induction fuel generalizing x with
  | zero => exact absurd hfuel (Nat.not_lt_zero _)
  | succ fuel ih =>
    rw [ascent_step hup (fuel + 1), ascent_step hup fuel]
    rcases hy : up x with _ | y
    · rfl
    · have hlt := heightIn_step hup hdom hy
      rw [Option.map_some, Option.map_some, ih (by omega)]

/-- What the loop visits, given enough rounds. -/
theorem ascent_eq {x : α} :
    ascent (·) up (dom.length + 1) [] x =
      x :: ((up x).map (ascent (·) up (dom.length + 1) [])).getD [] := by
  rw [ascent_step hup]
  rcases hy : up x with _ | y
  · rfl
  · have hlt := heightIn_step hup hdom hy
    have hle := @heightIn_le _ up dom x
    rw [Option.map_some, Option.map_some, ascent_more hup hdom (by omega)]

end Ascent

end Staaash.Library

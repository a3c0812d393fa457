import Staaash.Library.ParentPointers

/-!
# Marks on a forest

Things are marked as included or as skipped, and a thing is held by the nearest mark at or above it, if
that one includes.
-/

namespace Staaash.Library

open Relation

variable {α : Type} {up : α → Option α} {included skipped included' skipped' : α → Prop}
  {H H' : α → Option α} {x y p top : α}

/-- `H` names the thing that holds each thing. -/
structure Holding (up : α → Option α) (included skipped : α → Prop) (H : α → Option α) : Prop where
  skip : ∀ x, skipped x → H x = none
  pick : ∀ x, ¬ skipped x → included x → H x = some x
  pass : ∀ x, ¬ skipped x → ¬ included x → H x = (up x).bind H

/-- Marks stand where they change what is held: nothing holds what is above an included thing, and
something holds what is above a skipped one. -/
structure Placement (up : α → Option α) (included skipped : α → Prop) (H : α → Option α) : Prop where
  picks : ∀ x, included x → (up x).bind H = none
  skips : ∀ x, skipped x → (up x).bind H ≠ none

theorem Placement.not_both (h : Placement up included skipped H) (hi : included x) : ¬ skipped x :=
  fun hs => h.skips x hs (h.picks x hi)

/-- In a forest, what passes from things to those under them holds of all. -/
theorem Acyclic.induct_up (hup : Acyclic up) (hfin : {x | (up x).isSome}.Finite) {P : α → Prop}
    (h : ∀ x, (∀ y, up x = some y → P y) → P x) (x : α) : P x := by
  induction acc_parent hup hfin x with
  | intro x _ ih => exact h x ih

theorem AtOrAbove.step (hxy : AtOrAbove up x y) (hne : x ≠ y) :
    ∃ z, up x = some z ∧ AtOrAbove up z y := by
  rcases ReflTransGen.cases_head hxy with heq | ⟨z, hz, hzy⟩
  · exact absurd heq hne
  · exact ⟨z, hz, hzy⟩

section Forest

variable (hup : Acyclic up) (hfin : {x | (up x).isSome}.Finite)

include hup hfin

/-- A thing is held by an included one at or above it. -/
theorem Holding.of_eq_some (h : Holding up included skipped H) (hx : H x = some p) :
    AtOrAbove up x p ∧ included p ∧ ¬ skipped p := by
  induction x using hup.induct_up hfin with
  | h x ih =>
    by_cases hs : skipped x
    · rw [h.skip x hs] at hx
      exact absurd hx (by simp)
    · by_cases hi : included x
      · rw [h.pick x hs hi, Option.some.injEq] at hx
        exact hx ▸ ⟨.refl, hi, hs⟩
      · rw [h.pass x hs hi] at hx
        obtain ⟨y, hy, hyp⟩ := Option.bind_eq_some_iff.1 hx
        obtain ⟨habove, hp⟩ := ih y hy hyp
        exact ⟨.head hy habove, hp⟩

/-- Marks elsewhere make no difference. -/
theorem Holding.congr (h : Holding up included skipped H) (h' : Holding up included' skipped' H')
    (hsame : ∀ y, AtOrAbove up x y → (included y ↔ included' y) ∧ (skipped y ↔ skipped' y)) :
    H x = H' x := by
  induction x using hup.induct_up hfin with
  | h x ih =>
    obtain ⟨hincluded, hskipped⟩ := hsame x .refl
    by_cases hs : skipped x
    · rw [h.skip x hs, h'.skip x (hskipped.1 hs)]
    · have hs' : ¬ skipped' x := fun hbad => hs (hskipped.2 hbad)
      by_cases hi : included x
      · rw [h.pick x hs hi, h'.pick x hs' (hincluded.1 hi)]
      · rw [h.pass x hs hi, h'.pass x hs' fun hbad => hi (hincluded.2 hbad)]
        rcases hy : up x with _ | y
        · rfl
        · exact ih y hy fun z hz => hsame z (.head hy hz)

/-- Below a thing with nothing marked under it, all is held as the thing is. -/
theorem Holding.eq_top (h : Holding up included skipped H) (hx : AtOrAbove up x top)
    (hclear : ∀ y, Above up y top → ¬ included y ∧ ¬ skipped y) : H x = H top := by
  induction x using hup.induct_up hfin with
  | h x ih =>
    by_cases heq : x = top
    · rw [heq]
    · obtain ⟨y, hy, hytop⟩ := hx.step heq
      obtain ⟨hi, hs⟩ := hclear x (TransGen.head' hy hytop)
      rw [h.pass x hs hi, hy]
      exact ih y hy hytop

/-- Below a held thing with nothing skipped under it, all is held. -/
theorem Holding.held_of_no_skips (h : Holding up included skipped H) (hx : AtOrAbove up x top)
    (htop : H top ≠ none) (hnone : ∀ y, Above up y top → ¬ skipped y) : H x ≠ none := by
  induction x using hup.induct_up hfin with
  | h x ih =>
    by_cases heq : x = top
    · rw [heq]
      exact htop
    · obtain ⟨y, hy, hytop⟩ := hx.step heq
      have hs := hnone x (TransGen.head' hy hytop)
      by_cases hi : included x
      · rw [h.pick x hs hi]
        exact Option.some_ne_none x
      · rw [h.pass x hs hi, hy]
        exact ih y hy hytop

/-- Below a thing that is not held, with nothing included under it, nothing is held. -/
theorem Holding.free_of_no_picks (h : Holding up included skipped H) (hx : AtOrAbove up x top)
    (htop : H top = none) (hnone : ∀ y, Above up y top → ¬ included y) : H x = none := by
  induction x using hup.induct_up hfin with
  | h x ih =>
    by_cases heq : x = top
    · rw [heq]
      exact htop
    · obtain ⟨y, hy, hytop⟩ := hx.step heq
      by_cases hs : skipped x
      · exact h.skip x hs
      · rw [h.pass x hs (hnone x (TransGen.head' hy hytop)), hy]
        exact ih y hy hytop

/-- What an included thing holds lies below it and not below a skip that it holds from above. -/
theorem Holding.eq_some_iff (h : Holding up included skipped H) (hplaced : Placement up included skipped H) :
    H x = some p ↔ included p ∧ AtOrAbove up x p ∧
      ∀ s, skipped s → (up s).bind H = some p → ¬ AtOrAbove up x s := by
  constructor
  · intro hx
    obtain ⟨habove, hi, -⟩ := h.of_eq_some hup hfin hx
    refine ⟨hi, habove, fun s hs hheld hxs => ?_⟩
    -- between the skip and its holder, `x` would be held by something else
    clear habove
    induction x using hup.induct_up hfin with
    | h x ih =>
      by_cases hsx : skipped x
      · rw [h.skip x hsx] at hx
        exact absurd hx (by simp)
      · have hne : x ≠ s := fun heq => hsx (heq ▸ hs)
        obtain ⟨y, hy, hys⟩ := hxs.step hne
        by_cases hix : included x
        · rw [h.pick x hsx hix, Option.some.injEq] at hx
          subst hx
          obtain ⟨z, hz, hzx⟩ := Option.bind_eq_some_iff.1 hheld
          have hsx' := (h.of_eq_some hup hfin hzx).1
          exact hup x (TransGen.head' hy (hys.trans (.head hz hsx')))
        · rw [h.pass x hsx hix, hy] at hx
          exact ih y hy hx hys
  · rintro ⟨hi, habove, hfree⟩
    have hsp := hplaced.not_both hi
    induction x using hup.induct_up hfin with
    | h x ih =>
      by_cases heq : x = p
      · rw [heq]
        exact h.pick p hsp hi
      · obtain ⟨y, hy, hyp⟩ := habove.step heq
        have hheld : (up x).bind H = some p := by
          rw [hy]
          exact ih y hy hyp fun s hs hsheld hys => hfree s hs hsheld (.head hy hys)
        have hsx : ¬ skipped x := fun hs => hfree x hs hheld .refl
        have hix : ¬ included x := fun hix => by
          rw [hplaced.picks x hix] at hheld
          exact absurd hheld (by simp)
        rw [h.pass x hsx hix, hheld]

/-- Marks change at one thing and nowhere else, but that all marks under it are gone. Those that are left
stand where they did. -/
theorem Placement.of_change (h : Holding up included skipped H) (h' : Holding up included' skipped' H')
    (hplaced : Placement up included skipped H)
    (hclear : ∀ y, Above up y top → ¬ included' y ∧ ¬ skipped' y)
    (hsame : ∀ y, ¬ AtOrAbove up y top → (included y ↔ included' y) ∧ (skipped y ↔ skipped' y))
    (hpick : included' top → (up top).bind H = none) (hskip : skipped' top → (up top).bind H ≠ none) :
    Placement up included' skipped' H' ∧ ∀ y, ¬ AtOrAbove up y top → H y = H' y := by
  have houtside : ∀ y, ¬ AtOrAbove up y top → H y = H' y := fun y hy =>
    h.congr hup hfin h' fun z hz => hsame z fun hbad => hy (hz.trans hbad)
  -- what is above a marked thing is outside
  have hparent : ∀ y, (included' y ∨ skipped' y) → (up y).bind H = (up y).bind H' := by
    intro y hmarked
    rcases hz : up y with _ | z
    · rfl
    · refine houtside z fun hbad => ?_
      have hcleared := hclear y (TransGen.head' hz hbad)
      rcases hmarked with hi | hs
      · exact hcleared.1 hi
      · exact hcleared.2 hs
  have hold : ∀ y, (included' y ∨ skipped' y) → y = top ∨ ¬ AtOrAbove up y top := by
    intro y hmarked
    by_cases hy : AtOrAbove up y top
    · by_cases heq : y = top
      · exact .inl heq
      · obtain ⟨z, hz, hztop⟩ := hy.step heq
        have hcleared := hclear y (TransGen.head' hz hztop)
        rcases hmarked with hi | hs
        · exact absurd hi hcleared.1
        · exact absurd hs hcleared.2
    · exact .inr hy
  refine ⟨⟨fun y hi => ?_, fun y hs => ?_⟩, houtside⟩
  · rw [← hparent y (.inl hi)]
    rcases hold y (.inl hi) with rfl | hout
    · exact hpick hi
    · exact hplaced.picks y ((hsame y hout).1.2 hi)
  · rw [← hparent y (.inr hs)]
    rcases hold y (.inr hs) with rfl | hout
    · exact hskip hs
    · exact hplaced.skips y ((hsame y hout).2.2 hs)

end Forest

end Staaash.Library

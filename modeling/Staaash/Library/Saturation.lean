import Mathlib.Data.Finset.Card
import Mathlib.Data.Finset.Union
import Mathlib.Logic.Relation

/-!
# Saturation

What a set of seeds leads to, found in rounds: each round adds the successors of what is known. When
all successors lie in one finite set, as many rounds as that set has members find everything.
-/

namespace Staaash.Library

open Relation

variable {α : Type} [DecidableEq α] {next : α → Finset α} {s dom : Finset α}

/-- One more round. -/
def spread (next : α → Finset α) (s : Finset α) : Finset α := s ∪ s.biUnion next

/-- What is known after a number of rounds. -/
def saturate (next : α → Finset α) : Nat → Finset α → Finset α
  | 0, s => s
  | n + 1, s => saturate next n (spread next s)

theorem mem_spread {y : α} : y ∈ spread next s ↔ y ∈ s ∨ ∃ x ∈ s, y ∈ next x := by
  unfold spread
  rw [Finset.mem_union, Finset.mem_biUnion]

theorem saturate_succ (n : Nat) (s : Finset α) :
    saturate next (n + 1) s = spread next (saturate next n s) := by
  induction n generalizing s with
  | zero => rfl
  | succ n ih => exact ih (spread next s)

theorem subset_saturate (n : Nat) (s : Finset α) : s ⊆ saturate next n s := by
  induction n with
  | zero => exact fun _ hx => hx
  | succ n ih =>
    rw [saturate_succ]
    exact fun x hx => mem_spread.2 (.inl (ih hx))

/-- Nothing is found that the seeds do not lead to. -/
theorem reaches_of_mem_saturate {n : Nat} {y : α} (h : y ∈ saturate next n s) :
    ∃ x ∈ s, ReflTransGen (fun x y => y ∈ next x) x y := by
  induction n generalizing y with
  | zero => exact ⟨y, h, .refl⟩
  | succ n ih =>
    rw [saturate_succ] at h
    rcases mem_spread.1 h with h | ⟨z, hz, hy⟩
    · exact ih h
    · obtain ⟨x, hx, hxz⟩ := ih hz
      exact ⟨x, hx, hxz.tail hy⟩

/-- Everything found so far leads to nothing new, or each round has found something. -/
theorem saturated_or_le_card (n : Nat) :
    spread next (saturate next n s) = saturate next n s ∨ n ≤ (saturate next n s \ s).card := by
  induction n with
  | zero => exact .inr (Nat.zero_le _)
  | succ n ih =>
    rw [saturate_succ]
    by_cases hstable : spread next (saturate next n s) = saturate next n s
    · exact .inl (by rw [hstable, hstable])
    · refine .inr ?_
      have hle := ih.resolve_left hstable
      have hsub : saturate next n s ⊆ spread next (saturate next n s) :=
        fun x hx => mem_spread.2 (.inl hx)
      obtain ⟨y, hy, hnew⟩ := Finset.exists_of_ssubset (hsub.ssubset_of_ne (Ne.symm hstable))
      have hseed : y ∉ s := fun hys => hnew (subset_saturate n s hys)
      have hlt : (saturate next n s \ s).card < (spread next (saturate next n s) \ s).card := by
        refine Finset.card_lt_card ((Finset.ssubset_iff_of_subset ?_).2 ⟨y, ?_, ?_⟩)
        · exact Finset.sdiff_subset_sdiff hsub fun _ hx => hx
        · exact Finset.mem_sdiff.2 ⟨hy, hseed⟩
        · exact fun hmem => hnew (Finset.mem_sdiff.1 hmem).1
      omega

/-- Enough rounds find everything. -/
theorem mem_saturate (hdom : ∀ x, next x ⊆ dom) {n : Nat} (hn : dom.card ≤ n) {y : α} :
    y ∈ saturate next n s ↔ ∃ x ∈ s, ReflTransGen (fun x y => y ∈ next x) x y := by
  refine ⟨reaches_of_mem_saturate, ?_⟩
  have hclosed : ∀ {x y}, x ∈ saturate next n s → y ∈ next x → y ∈ saturate next n s := by
    intro x y hx hy
    have hrounds : spread next (saturate next n s) = saturate next n s ∨
        n ≤ (saturate next n s \ s).card := saturated_or_le_card n
    rcases hrounds with hstable | hle
    · rw [← hstable]
      exact mem_spread.2 (.inr ⟨x, hx, hy⟩)
    · have hsub : saturate next n s \ s ⊆ dom := by
        intro z hz
        obtain ⟨hz, hseed⟩ := Finset.mem_sdiff.1 hz
        obtain ⟨x', hx', hpath⟩ := reaches_of_mem_saturate hz
        rcases ReflTransGen.cases_tail hpath with rfl | ⟨w, -, hw⟩
        · exact absurd hx' hseed
        · exact hdom w hw
      have hall := Finset.eq_of_subset_of_card_le hsub (hn.trans hle)
      exact (Finset.mem_sdiff.1 (hall ▸ hdom x hy)).1
  rintro ⟨x, hx, hxy⟩
  induction hxy with
  | refl => exact subset_saturate n s hx
  | tail _ hy ih => exact hclosed ih hy

end Staaash.Library

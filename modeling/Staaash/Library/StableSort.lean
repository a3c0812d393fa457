import Mathlib.Data.List.Sort
import Mathlib.Data.List.Perm.Basic

/-!
# Stable sorting

Insertion sort by a number leaves what has the same number in the order it had. Where an element stood is kept
beside it, since a list may hold it twice.
-/

namespace Staaash.Library

variable {α : Type} (key : α → Nat)

/-- Of two elements with their places, the one that is sorted before the other. -/
def ComesBefore (a b : α × Nat) : Prop := key a.1 < key b.1 ∨ key a.1 = key b.1 ∧ a.2 < b.2

variable {key}

theorem ComesBefore.asymm {a b : α × Nat} (h : ComesBefore key a b) : ¬ ComesBefore key b a := by
  rintro (hlt | ⟨heq, hlt⟩)
  · obtain hlt' | ⟨heq', -⟩ := h
    · omega
    · omega
  · obtain hlt' | ⟨-, hlt'⟩ := h
    · omega
    · omega

/-- An element that stood before all the others is inserted before those that have its number. -/
theorem pairwise_orderedInsert {a : α × Nat} {sorted : List (α × Nat)} (hlater : ∀ b ∈ sorted, a.2 < b.2)
    (h : sorted.Pairwise (ComesBefore key)) :
    (sorted.orderedInsert (fun a b => key a.1 ≤ key b.1) a).Pairwise (ComesBefore key) := by
  induction sorted with
  | nil => exact List.pairwise_singleton _ _
  | cons b sorted ih =>
    obtain ⟨hb, hsorted⟩ := List.pairwise_cons.mp h
    rw [List.orderedInsert_cons]
    split_ifs with hle
    · refine List.pairwise_cons.mpr ⟨fun c hc => ?_, h⟩
      have hkey : key a.1 ≤ key c.1 := by
        obtain rfl | hc := List.mem_cons.mp hc
        · exact hle
        · obtain hlt | ⟨heq, -⟩ := hb c hc
          · omega
          · omega
      obtain hlt | heq := Nat.lt_or_eq_of_le hkey
      · exact .inl hlt
      · exact .inr ⟨heq, hlater c hc⟩
    · refine List.pairwise_cons.mpr ⟨fun c hc => ?_, ih (fun c hc => hlater c (.tail _ hc)) hsorted⟩
      obtain rfl | hc := (List.mem_orderedInsert _).mp hc
      · exact .inl (Nat.lt_of_not_le hle)
      · exact hb c hc

variable (key) in
theorem exists_sorted_zipIdx (l : List α) (n : Nat) :
    ∃ sorted : List (α × Nat), sorted.map Prod.fst = l.insertionSort (fun a b => key a ≤ key b) ∧
      sorted.Perm (l.zipIdx n) ∧ sorted.Pairwise (ComesBefore key) := by
  induction l generalizing n with
  | nil => exact ⟨[], rfl, .refl _, .nil⟩
  | cons a l ih =>
    obtain ⟨sorted, hmap, hperm, hsorted⟩ := ih (n + 1)
    refine ⟨sorted.orderedInsert (fun a b => key a.1 ≤ key b.1) (a, n), ?_, ?_, ?_⟩
    · rw [List.map_orderedInsert _ (fun a b => key a ≤ key b) _ _ _ (fun _ _ => .rfl) (fun _ _ => .rfl), hmap]
      rfl
    · exact (List.perm_orderedInsert _ _ _).trans (hperm.cons _)
    · refine pairwise_orderedInsert (fun b hb => ?_) hsorted
      exact Nat.lt_of_succ_le (List.le_snd_of_mem_zipIdx (hperm.mem_iff.mp hb))

end Staaash.Library

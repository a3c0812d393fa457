import Mathlib.Algebra.BigOperators.Group.List.Basic
import Mathlib.Algebra.Ring.Nat
import Staaash.Library.OrderedMap

/-!
# Sums over ordered maps

The total of a measure over the values of a map, and how it changes when a value is written or a set
of keys is removed.
-/

namespace Staaash.Library.OrderedMap

variable {α β : Type} [DecidableEq α] {m : OrderedMap α β} {k : α} {b b₀ : β} {f g : β → Nat}

/-- The sum of a measure over the values of a map. -/
def sum (m : OrderedMap α β) (f : β → Nat) : Nat := (m.entries.map fun e => f e.2).sum

theorem sum_setEntries {es : List (α × β)} (hnd : (es.map Prod.fst).Nodup)
    (hmem : (k, b₀) ∈ es) :
    ((setEntries k b es).map fun e => f e.2).sum + f b₀ = (es.map fun e => f e.2).sum + f b := by
  induction es with
  | nil => cases hmem
  | cons e es ih =>
    obtain ⟨k', b'⟩ := e
    rw [List.map_cons, List.nodup_cons] at hnd
    by_cases hk : k' = k
    · subst hk
      have hb : b' = b₀ := by
        rcases List.mem_cons.1 hmem with heq | hin
        · exact (Prod.mk.inj heq).2.symm
        · exact absurd (List.mem_map.2 ⟨_, hin, rfl⟩) hnd.1
      subst hb
      rw [setEntries, if_pos rfl]
      simp only [List.map_cons, List.sum_cons]
      omega
    · have hin : (k, b₀) ∈ es := by
        rcases List.mem_cons.1 hmem with heq | hin
        · exact absurd (Prod.mk.inj heq).1.symm hk
        · exact hin
      have hsum := ih hnd.2 hin
      rw [setEntries, if_neg hk]
      simp only [List.map_cons, List.sum_cons]
      omega

/-- Writing another value under a key that is there. -/
theorem sum_set_of_get_eq_some (h : m.get k = some b₀) :
    (m.set k b).sum f + f b₀ = m.sum f + f b :=
  sum_setEntries m.nodup ((get_eq_some_iff m k b₀).1 h)

theorem sum_set_of_get_eq_none (h : m.get k = none) : (m.set k b).sum f = m.sum f + f b := by
  unfold sum
  rw [entries_set_of_get_eq_none b h]
  simp

omit [DecidableEq α] in
/-- The keys that pass a test and the others. -/
theorem sum_filterKeys (p : α → Bool) :
    (m.filterKeys p).sum f + (m.filterKeys fun k => !p k).sum f = m.sum f := by
  unfold sum filterKeys
  dsimp only
  induction m.entries with
  | nil => rfl
  | cons e es ih =>
    cases hp : p e.1 with
    | true =>
      simp only [List.filter_cons, hp, if_true, Bool.not_true, Bool.false_eq_true, if_false,
        List.map_cons, List.sum_cons]
      omega
    | false =>
      simp only [List.filter_cons, hp, if_true, Bool.not_false, Bool.false_eq_true, if_false,
        List.map_cons, List.sum_cons]
      omega

omit [DecidableEq α] in
theorem sum_le_sum (h : ∀ b, f b ≤ g b) : m.sum f ≤ m.sum g := by
  unfold sum
  induction m.entries with
  | nil => exact Nat.le_refl 0
  | cons e es ih =>
    simp only [List.map_cons, List.sum_cons]
    exact Nat.add_le_add (h e.2) ih

theorem sum_writeAll {n : OrderedMap α β} (h : ∀ k, n.has k = true → m.get k = none) :
    (m.writeAll n).sum f = m.sum f + n.sum f := by
  unfold sum
  rw [entries_writeAll h, List.map_append, List.sum_append]

/-- Values that are changed without a change of what is measured. -/
theorem sum_mapValues {h : α → β → β} (heq : ∀ k b, m.get k = some b → f (h k b) = g b) :
    (m.mapValues h).sum f = m.sum g := by
  unfold sum mapValues
  rw [List.map_map]
  congr 1
  exact List.map_congr_left fun e he => heq e.1 e.2 ((get_eq_some_iff m e.1 e.2).2 he)

omit [DecidableEq α] in
/-- Values that are changed only under other keys. -/
theorem sum_filterKeys_mapValues {p : α → Bool} {h : α → β → β} (heq : ∀ k b, p k = true → h k b = b) :
    ((m.mapValues h).filterKeys p).sum f = (m.filterKeys p).sum f := by
  unfold sum filterKeys mapValues
  dsimp only
  rw [List.filter_map, List.map_map]
  congr 1
  refine List.map_congr_left fun e he => ?_
  exact congrArg f (heq e.1 e.2 (List.mem_filter.1 he).2)

theorem sum_eq_zero (h : ∀ k b, m.get k = some b → f b = 0) : m.sum f = 0 := by
  unfold sum
  refine List.sum_eq_zero fun n hn => ?_
  obtain ⟨e, he, rfl⟩ := List.mem_map.1 hn
  exact h e.1 e.2 ((get_eq_some_iff m e.1 e.2).2 he)

end Staaash.Library.OrderedMap

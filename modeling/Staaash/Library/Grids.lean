import Mathlib.Data.List.Basic
import Mathlib.Data.List.Perm.Basic
import Mathlib.Data.List.Sort
import Mathlib.Algebra.Ring.Nat

/-!
# Grids

The numbers below `n` are cut into cells of width `w`; the last cell may be narrower. The cell `i`
starts at `i * w`. Every number lies in one cell, and the cells one after the other are everything.
-/

namespace Staaash.Library

variable {n w i k : Nat}

/-- The number of cells. -/
def cells (n w : Nat) : Nat := (n + w - 1) / w

/-- Where the cell stops. -/
def cellStop (n w i : Nat) : Nat := min (i * w + w) n

theorem lt_cells_iff (hw : 0 < w) : i < cells n w ↔ i * w < n := by
  unfold cells
  rw [Nat.lt_iff_add_one_le, Nat.le_div_iff_mul_le hw, Nat.add_mul, Nat.one_mul]
  omega

theorem le_cells_mul (hw : 0 < w) : n ≤ cells n w * w := by
  by_contra hlt
  have hcell : cells n w < cells n w := (lt_cells_iff hw).2 (by omega)
  exact Nat.lt_irrefl _ hcell

theorem start_lt_cellStop (hw : 0 < w) (hi : i * w < n) : i * w < cellStop n w i := by
  unfold cellStop
  omega

/-- Every number lies in the cell that division finds, and in no other. -/
theorem mem_cell_iff (hw : 0 < w) {b : Nat} (hb : b < n) :
    i * w ≤ b ∧ b < cellStop n w i ↔ i = b / w := by
  have hmod : b / w * w + b % w = b := by
    rw [Nat.mul_comm]
    exact Nat.div_add_mod b w
  have hlt : b % w < w := Nat.mod_lt b hw
  unfold cellStop
  constructor
  · rintro ⟨hstart, hstop⟩
    refine le_antisymm ((Nat.le_div_iff_mul_le hw).2 hstart) ?_
    have hnext : b < (i + 1) * w := by
      rw [Nat.add_mul, Nat.one_mul]
      omega
    exact Nat.lt_succ_iff.1 ((Nat.div_lt_iff_lt_mul hw).2 hnext)
  · rintro rfl
    omega

/-- The widths of the first cells add up. -/
theorem sum_widths (hw : 0 < w) (hk : k ≤ cells n w) :
    ((List.range k).map fun i => cellStop n w i - i * w).sum = min (k * w) n := by
  induction k with
  | zero => simp
  | succ k ih =>
    have hstart : k * w < n := (lt_cells_iff hw).1 hk
    have hsucc : (k + 1) * w = k * w + w := Nat.succ_mul k w
    rw [List.range_succ, List.map_append, List.sum_append, ih (Nat.le_of_succ_le hk), hsucc]
    simp only [List.map_cons, List.map_nil, List.sum_cons, List.sum_nil]
    unfold cellStop
    omega

theorem sum_all_widths (hw : 0 < w) :
    ((List.range (cells n w)).map fun i => cellStop n w i - i * w).sum = n := by
  have hall := le_cells_mul (n := n) hw
  rw [sum_widths hw le_rfl]
  omega

section Pieces

variable {α : Type}

/-- What a list has in a cell. -/
def piece (l : List α) (w i : Nat) : List α := (l.drop (i * w)).take (cellStop l.length w i - i * w)

/-- The first cells one after the other are the beginning of the list. -/
theorem flatMap_pieces (hw : 0 < w) (l : List α) (hk : k ≤ cells l.length w) :
    (List.range k).flatMap (piece l w) = l.take (k * w) := by
  induction k with
  | zero => simp
  | succ k ih =>
    have hstart : k * w < l.length := (lt_cells_iff hw).1 hk
    have hsucc : (k + 1) * w = k * w + w := Nat.succ_mul k w
    rw [List.range_succ, List.flatMap_append, ih (Nat.le_of_succ_le hk), List.flatMap_singleton, hsucc]
    unfold piece
    rw [← List.take_add]
    have hstop : k * w + (cellStop l.length w k - k * w) = min (k * w + w) l.length := by
      unfold cellStop
      omega
    rw [hstop, ← List.take_eq_take_min]

theorem flatMap_all_pieces (hw : 0 < w) (l : List α) :
    (List.range (cells l.length w)).flatMap (piece l w) = l := by
  rw [flatMap_pieces hw l le_rfl]
  exact List.take_of_length_le (le_cells_mul hw)

end Pieces

/-- An increasing list of all the numbers below a bound. -/
theorem eq_range_of_increasing {l : List Nat} (hlt : l.Pairwise (· < ·))
    (hmem : ∀ i, i ∈ l ↔ i < k) : l = List.range k := by
  have hnodup : l.Nodup := hlt.imp fun h => Nat.ne_of_lt h
  have hperm : l.Perm (List.range k) := by
    rw [List.perm_ext_iff_of_nodup hnodup List.nodup_range]
    intro i
    rw [hmem, List.mem_range]
  exact hperm.eq_of_pairwise (fun a b _ _ hab hba => absurd hab (Nat.lt_asymm hba)) hlt
    List.pairwise_lt_range

end Staaash.Library

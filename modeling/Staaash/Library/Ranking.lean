import Mathlib.Data.List.Sort
import Mathlib.Order.Basic

/-!
# Rankings

Comparisons as `ORDER BY` puts them together, and the list that a comparison ranks. Where a comparison
tells the members of a list apart there is one ranking of them, so whatever is in order and has the same
members is the ranking.
-/

namespace Staaash.Library

variable {α β : Type}

/-- A comparison that a list can be ranked by. -/
structure Comparison (α : Type) where
  compare : α → α → Ordering
  trans : Std.TransCmp compare

namespace Comparison

variable (c d : Comparison α) {l l' : List α} {a b x : α} {p : α → Bool} {n : Nat}

/-! ## Putting comparisons together -/

def ofOrd [Ord α] [Std.TransOrd α] : Comparison α := ⟨Ord.compare, inferInstance⟩

/-- `DESC` -/
def reverse : Comparison α :=
  ⟨fun a b => c.compare b a, haveI := c.trans; inferInstance⟩

def directed (ascending : Bool) : Comparison α := if ascending then c else c.reverse

/-- The second one decides where the first does not. -/
def andThen : Comparison α :=
  ⟨compareLex c.compare d.compare, haveI := c.trans; haveI := d.trans; inferInstance⟩

/-- By a column. -/
def on (f : β → α) : Comparison β where
  compare a b := c.compare (f a) (f b)
  trans :=
    haveI := c.trans
    { eq_swap := Std.OrientedCmp.eq_swap
      isLE_trans := Std.TransCmp.isLE_trans }

/-- `NULL` comes after every value. -/
def compareNullable (compare : α → α → Ordering) : Option α → Option α → Ordering
  | none, none => .eq
  | none, some _ => .gt
  | some _, none => .lt
  | some a, some b => compare a b

def nullable : Comparison (Option α) where
  compare := compareNullable c.compare
  trans :=
    haveI := c.trans
    { eq_swap := by
        rintro (_ | a) (_ | b)
        · rfl
        · rfl
        · rfl
        · show c.compare a b = (c.compare b a).swap
          exact Std.OrientedCmp.eq_swap
      isLE_trans := by
        rintro (_ | a) (_ | b) (_ | x) hab hbx
        · rfl
        · cases hbx
        · cases hab
        · cases hab
        · rfl
        · cases hbx
        · rfl
        · show (c.compare a x).isLE = true
          exact Std.TransCmp.isLE_trans (show (c.compare a b).isLE = true from hab) hbx }

/-- The comparison says that `a` comes before `b`, or that they are alike. -/
def le (a b : α) : Prop := (c.compare a b).isLE = true

instance : DecidableRel c.le := fun _ _ => inferInstanceAs (Decidable (_ = true))

theorem le_trans' {a b x : α} (hab : c.le a b) (hbx : c.le b x) : c.le a x :=
  have := c.trans
  Std.TransCmp.isLE_trans hab hbx

theorem le_total' (a b : α) : c.le a b ∨ c.le b a := by
  have := c.trans
  have hswap : c.compare b a = (c.compare a b).swap := Std.OrientedCmp.eq_swap
  unfold le
  rw [hswap]
  cases c.compare a b <;> simp [Ordering.isLE, Ordering.swap]

theorem eq_of_le_of_le (hab : c.le a b) (hba : c.le b a) : c.compare a b = .eq := by
  have := c.trans
  have hswap : c.compare b a = (c.compare a b).swap := Std.OrientedCmp.eq_swap
  unfold le at hab hba
  rw [hswap] at hba
  revert hab hba
  cases c.compare a b <;> simp [Ordering.isLE, Ordering.swap]

/-- What is in order by both comparisons is in order by the first. -/
theorem le_of_andThen (h : (c.andThen d).le a b) : c.le a b := by
  unfold le andThen at h
  simp only [compareLex, Ordering.isLE_then_iff_and] at h
  exact h.1

/-! ## The ranking -/

/-- The comparison tells the members of a list apart. -/
def Separates (l : List α) : Prop := ∀ a ∈ l, ∀ b ∈ l, c.compare a b = .eq → a = b

def rank (l : List α) : List α := l.insertionSort c.le

theorem rank_perm (l : List α) : (c.rank l).Perm l := List.perm_insertionSort c.le l

theorem mem_rank : x ∈ c.rank l ↔ x ∈ l := (c.rank_perm l).mem_iff

theorem length_rank (l : List α) : (c.rank l).length = l.length := (c.rank_perm l).length_eq

theorem pairwise_rank (l : List α) : (c.rank l).Pairwise c.le := by
  have : Std.Total c.le := ⟨c.le_total'⟩
  have : IsTrans α c.le := ⟨fun _ _ _ => c.le_trans'⟩
  exact List.pairwise_insertionSort c.le l

variable {c d}

/-- There is one ranking. -/
theorem eq_rank (hsep : c.Separates l) (hperm : l'.Perm l) (hpairwise : l'.Pairwise c.le) :
    l' = c.rank l := by
  refine List.Perm.eq_of_pairwise (fun a b ha hb hab hba => ?_) hpairwise (c.pairwise_rank l)
    (hperm.trans (c.rank_perm l).symm)
  exact hsep a (hperm.subset ha) b (c.mem_rank.1 hb) (c.eq_of_le_of_le hab hba)

theorem Separates.filter (hsep : c.Separates l) : c.Separates (l.filter p) := fun a ha b hb =>
  hsep a (List.mem_of_mem_filter ha) b (List.mem_of_mem_filter hb)

theorem rank_filter (hsep : c.Separates l) : c.rank (l.filter p) = (c.rank l).filter p :=
  (eq_rank hsep.filter ((c.rank_perm l).filter p) ((c.pairwise_rank l).filter p)).symm

/-- What only leaves out later members keeps the beginning of a list. -/
theorem take_filter (h : ∀ x ∈ l.take n, p x = true) (hle : n ≤ l.length ∨ ∀ x ∈ l, p x = true) :
    (l.filter p).take n = l.take n := by
  obtain hle | hall := hle
  · conv_lhs => rw [← List.take_append_drop n l, List.filter_append, List.filter_eq_self.2 h]
    refine List.take_left' ?_
    rw [List.length_take]
    omega
  · rw [List.filter_eq_self.2 hall]

/-- The ranks of a column, greatest first. -/
theorem rank_map {κ : Type} {k : Comparison κ} {key : α → κ} (hk : k.Separates (l.map key))
    (hkey : ∀ a b, c.le a b → k.le (key a) (key b)) :
    k.rank (l.map key) = (c.rank l).map key := by
  refine (eq_rank hk ((c.rank_perm l).map key) ?_).symm
  rw [List.pairwise_map]
  exact (c.pairwise_rank l).imp (hkey _ _)

end Comparison

end Staaash.Library

import Mathlib.Data.List.Lex
import Staaash.Journal.Manifests

/-!
# Proofs: the two orders of a tree's paths

Strings are compared by their UTF-16 code units, which tell characters apart, so the comparison of
strings is a linear order. The comparison of whole relative keys then is the one of their names.
-/

namespace Staaash.Journal

open Staaash.Library

variable {a b c : Text}

/-! ## Code units -/

theorem utf16Units_append_inj {x y : Char} {r s : List Nat} (h : utf16Units x ++ r = utf16Units y ++ s) :
    x = y ∧ r = s := by
  have hvalid : ∀ z : Char, z.toNat < 0xD800 ∨ (0xDFFF < z.toNat ∧ z.toNat < 0x110000) := fun z => z.valid
  have hext : x.toNat = y.toNat → x = y := Char.toNat_inj.1
  have hx := hvalid x
  have hy := hvalid y
  unfold utf16Units at h
  by_cases hx0 : x.toNat < 0x10000
  · by_cases hy0 : y.toNat < 0x10000
    · simp only [hx0, hy0, if_true, List.singleton_append, List.cons.injEq] at h
      exact ⟨hext h.1, h.2⟩
    · simp only [hx0, hy0, if_true, if_false, List.cons_append, List.cons.injEq] at h
      omega
  · by_cases hy0 : y.toNat < 0x10000
    · simp only [hx0, hy0, if_true, if_false, List.cons_append, List.cons.injEq] at h
      omega
    · simp only [hx0, hy0, if_false, List.cons_append, List.nil_append, List.cons.injEq] at h
      exact ⟨hext (by omega), h.2.2⟩

theorem flatMap_utf16Units_injective : Function.Injective fun t : Text => t.flatMap utf16Units := by
  have hne : ∀ (z : Char) (r : List Nat), utf16Units z ++ r ≠ [] := by
    intro z r
    by_cases hz : z.toNat < 0x10000 <;> simp [utf16Units, hz]
  intro a
  induction a with
  | nil =>
    intro b h
    cases b with
    | nil => rfl
    | cons y b => exact absurd h.symm (hne y _)
  | cons x a ih =>
    intro b h
    cases b with
    | nil => exact absurd h (hne x _)
    | cons y b =>
      obtain ⟨rfl, hrest⟩ := utf16Units_append_inj h
      rw [ih hrest]

theorem textLt_iff : textLt a b = true ↔ a.flatMap utf16Units < b.flatMap utf16Units := by
  rw [textLt, decide_eq_true_iff]

theorem textLe_iff : textLe a b = true ↔ ¬ textLt b a = true := by
  rw [textLt_iff, textLe, decide_eq_true_iff]
  exact not_lt.symm

theorem textLt_irrefl (a : Text) : ¬ textLt a a = true := fun h => lt_irrefl _ (textLt_iff.1 h)

theorem textLt_trans (hab : textLt a b = true) (hbc : textLt b c = true) : textLt a c = true :=
  textLt_iff.2 (lt_trans (textLt_iff.1 hab) (textLt_iff.1 hbc))

theorem textLt_trichotomy (a b : Text) : textLt a b = true ∨ a = b ∨ textLt b a = true := by
  rw [textLt_iff, textLt_iff, ← flatMap_utf16Units_injective.eq_iff]
  exact lt_trichotomy _ _

theorem textLe_iff_lt_or_eq : textLe a b = true ↔ textLt a b = true ∨ a = b := by
  rw [textLe_iff]
  constructor
  · intro hnot
    rcases textLt_trichotomy a b with hlt | heq | hgt
    · exact .inl hlt
    · exact .inr heq
    · exact absurd hgt hnot
  · rintro (hlt | rfl) hgt
    · exact textLt_irrefl a (textLt_trans hlt hgt)
    · exact textLt_irrefl a hgt

theorem textLe_antisymm (hab : textLe a b = true) (hba : textLe b a = true) : a = b := by
  rcases textLe_iff_lt_or_eq.1 hab with hlt | heq
  · exact absurd hlt (textLe_iff.1 hba)
  · exact heq

theorem textLe_trans (hab : textLe a b = true) (hbc : textLe b c = true) : textLe a c = true := by
  rcases textLe_iff_lt_or_eq.1 hab with hab | rfl
  · rcases textLe_iff_lt_or_eq.1 hbc with hbc | rfl
    · exact textLe_iff_lt_or_eq.2 (.inl (textLt_trans hab hbc))
    · exact textLe_iff_lt_or_eq.2 (.inl hab)
  · exact hbc

theorem textLe_total (a b : Text) : (textLe a b || textLe b a) = true := by
  rw [Bool.or_eq_true, textLe_iff_lt_or_eq, textLe_iff_lt_or_eq]
  rcases textLt_trichotomy a b with hlt | heq | hgt
  · exact .inl (.inl hlt)
  · exact .inl (.inr heq)
  · exact .inr (.inl hgt)

/-! ## Keys -/

theorem keyLe_antisymm {j k : Key} (hjk : keyLe j k = true) (hkj : keyLe k j = true) : j = k := by
  induction j generalizing k with
  | nil =>
    cases k with
    | nil => rfl
    | cons b k => cases hkj
  | cons a j ih =>
    cases k with
    | nil => cases hjk
    | cons b k =>
      by_cases hab : a = b
      · subst hab
        rw [keyLe, if_pos rfl] at hjk hkj
        rw [ih hjk hkj]
      · rw [keyLe, if_neg hab] at hjk
        rw [keyLe, if_neg (Ne.symm hab)] at hkj
        exact absurd (textLe_antisymm hjk hkj) hab

theorem keyLe_trans {i j k : Key} (hij : keyLe i j = true) (hjk : keyLe j k = true) :
    keyLe i k = true := by
  induction i generalizing j k with
  | nil => rfl
  | cons a i ih =>
    cases j with
    | nil => cases hij
    | cons b j =>
      cases k with
      | nil => cases hjk
      | cons c k =>
        by_cases hab : a = b
        · subst hab
          by_cases hac : a = c
          · subst hac
            rw [keyLe, if_pos rfl] at hij hjk ⊢
            exact ih hij hjk
          · rw [keyLe, if_neg hac] at hjk ⊢
            exact hjk
        · rw [keyLe, if_neg hab] at hij
          by_cases hbc : b = c
          · subst hbc
            rw [keyLe, if_neg hab]
            exact hij
          · rw [keyLe, if_neg hbc] at hjk
            by_cases hac : a = c
            · subst hac
              exact absurd (textLe_antisymm hij hjk) hab
            · rw [keyLe, if_neg hac]
              exact textLe_trans hij hjk

theorem keyLe_total (j k : Key) : (keyLe j k || keyLe k j) = true := by
  induction j generalizing k with
  | nil => rfl
  | cons a j ih =>
    cases k with
    | nil => rfl
    | cons b k =>
      by_cases hab : a = b
      · subst hab
        rw [keyLe, keyLe, if_pos rfl, if_pos rfl]
        exact ih k
      · rw [keyLe, keyLe, if_neg hab, if_neg (Ne.symm hab)]
        exact textLe_total a b

/-- A folder comes before what it holds. -/
theorem keyLe_append (j k : Key) : keyLe j (j ++ k) = true := by
  induction j with
  | nil => rfl
  | cons a j ih => rw [List.cons_append, keyLe, if_pos rfl, ih]

/-- Below one folder it is the next name that counts. -/
theorem keyLe_of_next (i : Key) (hab : textLe a b = true) (hne : a ≠ b) (j k : Key) :
    keyLe (i ++ a :: j) (i ++ b :: k) = true := by
  induction i with
  | nil => rw [List.nil_append, List.nil_append, keyLe, if_neg hne, hab]
  | cons x i ih => rw [List.cons_append, List.cons_append, keyLe, if_pos rfl, ih]

theorem compareParts_le_zero (j k : Key) : compareParts j k ≤ 0 ↔ keyLe j k = true := by
  induction j generalizing k with
  | nil => simp [compareParts, keyLe]
  | cons a j ih =>
    cases k with
    | nil =>
      simp only [compareParts, keyLe, List.length_cons, List.length_nil, Bool.false_eq_true, iff_false]
      omega
    | cons b k =>
      rcases textLt_trichotomy a b with hlt | rfl | hgt
      · have hne : a ≠ b := fun heq => textLt_irrefl b (heq ▸ hlt)
        rw [compareParts, keyLe, if_neg hne, if_pos hlt, textLe_iff_lt_or_eq.2 (.inl hlt)]
        simp
      · rw [compareParts, keyLe, if_pos rfl, if_neg (textLt_irrefl a), if_neg (textLt_irrefl a)]
        exact ih k
      · have hne : a ≠ b := fun heq => textLt_irrefl b (heq ▸ hgt)
        have hnot : ¬ textLt a b = true := fun hlt => textLt_irrefl a (textLt_trans hlt hgt)
        have hle : ¬ textLe a b = true := fun h => (textLe_iff.1 h) hgt
        rw [compareParts, keyLe, if_neg hne, if_neg hnot, if_pos hgt]
        simp [hle]

end Staaash.Journal

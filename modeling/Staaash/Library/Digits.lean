import Mathlib.Data.List.Infix
import Mathlib.Algebra.Order.Ring.Nat

/-!
# Numbers by their digits

What a number's decimal digits are like, and numbers that are read from digits of a fixed number.
-/

namespace Staaash.Library

/-! ## Decimal digits -/

theorem toDigits_injective : Function.Injective (Nat.toDigits 10) := fun m n h => by
  rw [← Nat.ofDigitChars_ten_toDigits (n := m), h, Nat.ofDigitChars_ten_toDigits]

theorem not_mem_toDigits {c : Char} (hc : c.isDigit = false) (n : Nat) : c ∉ Nat.toDigits 10 n := by
  intro hmem
  rw [Nat.isDigit_of_mem_toDigits (by decide) (by decide) hmem] at hc
  cases hc

/-! ## Reading digits -/

section Reading

variable {α : Type} (base : Nat) (digitValue : α → Nat)

/-- The number that the digits stand for, after `n`. -/
def readDigits (n : Nat) (digits : List α) : Nat := digits.foldl (fun n c => base * n + digitValue c) n

variable {base digitValue} {digits digits' : List α} {m n : Nat}

theorem readDigits_lt (h : ∀ c ∈ digits, digitValue c < base) :
    readDigits base digitValue n digits < base ^ digits.length * (n + 1) := by
  induction digits generalizing n with
  | nil => simp [readDigits]
  | cons c digits ih =>
    have hc := h c List.mem_cons_self
    have hrest := ih (n := base * n + digitValue c) fun d hd => h d (List.mem_cons_of_mem _ hd)
    calc readDigits base digitValue n (c :: digits)
        < base ^ digits.length * (base * n + digitValue c + 1) := hrest
      _ ≤ base ^ digits.length * (base * (n + 1)) := Nat.mul_le_mul_left _ (by rw [Nat.mul_succ]; omega)
      _ = base ^ (c :: digits).length * (n + 1) := by rw [List.length_cons, Nat.pow_succ, Nat.mul_assoc]

/-- Digits of one number are told apart by what they stand for. -/
theorem readDigits_inj (hdigits : ∀ c ∈ digits, digitValue c < base) (hdigits' : ∀ c ∈ digits', digitValue c < base)
    (hinj : ∀ c ∈ digits, ∀ c' ∈ digits', digitValue c = digitValue c' → c = c')
    (hlength : digits.length = digits'.length)
    (h : readDigits base digitValue m digits = readDigits base digitValue n digits') :
    m = n ∧ digits = digits' := by
  induction digits generalizing m n digits' with
  | nil =>
    obtain rfl := List.length_eq_zero_iff.1 hlength.symm
    exact ⟨h, rfl⟩
  | cons c digits ih =>
    cases digits' with
    | nil => cases hlength
    | cons c' digits' =>
      have hc := hdigits c List.mem_cons_self
      have hc' := hdigits' c' List.mem_cons_self
      obtain ⟨hfirst, rfl⟩ := ih (fun d hd => hdigits d (List.mem_cons_of_mem _ hd))
        (fun d hd => hdigits' d (List.mem_cons_of_mem _ hd))
        (fun d hd d' hd' => hinj d (List.mem_cons_of_mem _ hd) d' (List.mem_cons_of_mem _ hd'))
        (Nat.succ.inj hlength) h
      have hvalue : digitValue c = digitValue c' := by
        have := congrArg (· % base) hfirst
        simpa [Nat.mod_eq_of_lt hc, Nat.mod_eq_of_lt hc'] using this
      have hmn : base * m = base * n := by
        have hsum : base * m + digitValue c = base * n + digitValue c' := hfirst
        omega
      rw [hinj c List.mem_cons_self c' List.mem_cons_self hvalue]
      exact ⟨Nat.eq_of_mul_eq_mul_left (by omega) hmn, rfl⟩

end Reading

/-! ## Groups of digits -/

section Groups

variable {α : Type}

/-- Without the separators, the pieces follow each other. -/
theorem flatten_splitOn [BEq α] {sep : α} (text : List α) : (text.splitOn sep).flatten = text.filter fun c => !(c == sep) := by
  induction text with
  | nil => rfl
  | cons c text ih =>
    rw [List.splitOn_cons_eq_if_modifyHead]
    split
    · rename_i hc
      simp [ih, hc]
    · rename_i hc
      obtain ⟨piece, pieces, hpieces⟩ := List.exists_cons_of_ne_nil (List.splitOn_ne_nil sep text)
      rw [hpieces] at ih ⊢
      simp [hc, ← ih]

/-- Pieces of known lengths can be told from one another's sequence. -/
theorem eq_of_flatten_eq {pieces pieces' : List (List α)}
    (hlengths : pieces.map List.length = pieces'.map List.length) (h : pieces.flatten = pieces'.flatten) :
    pieces = pieces' := by
  induction pieces generalizing pieces' with
  | nil =>
    cases pieces' with
    | nil => rfl
    | cons piece' pieces' => cases hlengths
  | cons piece pieces ih =>
    cases pieces' with
    | nil => cases hlengths
    | cons piece' pieces' =>
      obtain ⟨hlength, hrest⟩ := List.cons.inj hlengths
      obtain ⟨rfl, hflat⟩ := List.append_inj h hlength
      rw [ih hrest hflat]

end Groups

end Staaash.Library

import Staaash.Library.Substrings

/-!
# Strings of JavaScript

Strings as JavaScript has them, lists of UTF-16 code units, with what its library does to them.
-/

namespace Staaash.Library

abbrev JsString := List UInt16

instance : LawfulBEq JsString := inferInstanceAs (LawfulBEq (List UInt16))

def unit (c : Char) : UInt16 := UInt16.ofNat c.toNat

/-- The code units of a string of ASCII characters. -/
def units (s : String) : JsString := s.toList.map unit

def isDigit (c : UInt16) : Bool := unit '0' ≤ c && c ≤ unit '9'

/-- The number that digits stand for. -/
def decimal (digits : JsString) : Nat := digits.foldl (fun n c => 10 * n + (c.toNat - 48)) 0

/-! ## Digits -/

variable {digits digits' : JsString} {c : UInt16}

theorem isDigit_iff : isDigit c = true ↔ 48 ≤ c.toNat ∧ c.toNat ≤ 57 := by
  unfold isDigit
  rw [Bool.and_eq_true, decide_eq_true_iff, decide_eq_true_iff, UInt16.le_iff_toNat_le, UInt16.le_iff_toNat_le]
  exact Iff.rfl

theorem decimal_append (digits : JsString) (c : UInt16) :
    decimal (digits ++ [c]) = 10 * decimal digits + (c.toNat - 48) := by
  unfold decimal
  rw [List.foldl_append]
  rfl

/-- Digits that do not begin with a zero. -/
structure Canonical (digits : JsString) : Prop where
  digit : ∀ c ∈ digits, isDigit c = true
  head : digits.head? ≠ some (unit '0')

theorem Canonical.of_append (h : Canonical (digits ++ [c])) : Canonical digits ∧ isDigit c = true := by
  refine ⟨⟨fun d hd => h.digit d (List.mem_append_left _ hd), fun hhead => h.head ?_⟩,
    h.digit c (List.mem_append_right _ (List.mem_singleton_self c))⟩
  cases digits with
  | nil => cases hhead
  | cons d digits => exact hhead

theorem Canonical.decimal_pos (h : Canonical digits) (hne : digits ≠ []) : 0 < decimal digits := by
  induction digits using List.reverseRecOn with
  | nil => exact absurd rfl hne
  | append_singleton digits c ih =>
    obtain ⟨hdigits, hc⟩ := h.of_append
    rw [decimal_append]
    by_cases hnil : digits = []
    · subst hnil
      have hzero : c.toNat ≠ 48 := fun heq => h.head (congrArg some (UInt16.toNat_inj.1 heq))
      have := (isDigit_iff.1 hc).1
      omega
    · have := ih hdigits hnil
      omega

/-- A number is written in one way. -/
theorem Canonical.decimal_inj (h : Canonical digits) (h' : Canonical digits')
    (heq : decimal digits = decimal digits') : digits = digits' := by
  induction digits using List.reverseRecOn generalizing digits' with
  | nil =>
    by_contra hne
    have := h'.decimal_pos (Ne.symm hne)
    rw [← heq] at this
    exact absurd this (Nat.lt_irrefl _)
  | append_singleton digits c ih =>
    obtain ⟨hdigits, hc⟩ := h.of_append
    rcases List.eq_nil_or_concat digits' with rfl | ⟨init, c', rfl⟩
    · have := h.decimal_pos (by simp)
      rw [heq] at this
      exact absurd this (Nat.lt_irrefl _)
    · rw [List.concat_eq_append] at h' heq ⊢
      obtain ⟨hinit, hc'⟩ := h'.of_append
      rw [decimal_append, decimal_append] at heq
      have hlow := isDigit_iff.1 hc
      have hlow' := isDigit_iff.1 hc'
      rw [ih hdigits hinit (by omega), UInt16.toNat_inj.1 (show c.toNat = c'.toNat by omega)]

namespace JsString

/-- White space and line terminators, as `trim` takes them away. -/
def isWhiteSpace (c : UInt16) : Bool :=
  c ∈ ([9, 10, 11, 12, 13, 32, 0xA0, 0x1680, 0x2028, 0x2029, 0x202F, 0x205F, 0x3000, 0xFEFF] : List UInt16) ||
    (0x2000 ≤ c && c ≤ 0x200A)

def trimEnd (text : JsString) : JsString := (text.reverse.dropWhile isWhiteSpace).reverse

def trim (text : JsString) : JsString := trimEnd (text.dropWhile isWhiteSpace)

/-- What a replacement comes to where there are no groups; `dollar` says that a dollar has just been
read. -/
def getSubstitution (matched before after : JsString) (dollar : Bool) : JsString → JsString
  | [] => if dollar then [unit '$'] else []
  | c :: rest =>
    if dollar then
      if c = unit '$' then unit '$' :: getSubstitution matched before after false rest
      else if c = unit '&' then matched ++ getSubstitution matched before after false rest
      else if c = unit '`' then before ++ getSubstitution matched before after false rest
      else if c = unit '\'' then after ++ getSubstitution matched before after false rest
      else unit '$' :: c :: getSubstitution matched before after false rest
    else if c = unit '$' then getSubstitution matched before after true rest
    else c :: getSubstitution matched before after false rest

/-- `replace` with a string for a pattern. -/
def replace (text pattern replacement : JsString) : JsString :=
  match Substrings.indexOf pattern text with
  | none => text
  | some i =>
    let before := text.take i
    let after := text.drop (i + pattern.length)
    before ++ getSubstitution pattern before after false replacement ++ after

/-! ## Replacing -/

section Substitution

variable {matched before after text xs ys : JsString} {dollar : Bool} {c : UInt16}

/-- The units that a dollar before them makes into something else. -/
def special : List UInt16 := [unit '$', unit '&', unit '`', unit '\'']

theorem not_special_iff : c ∉ special ↔ c ≠ unit '$' ∧ c ≠ unit '&' ∧ c ≠ unit '`' ∧ c ≠ unit '\'' := by
  simp [special]

theorem getSubstitution_cons (hc : c ∉ special) : getSubstitution matched before after dollar (c :: text) =
    (if dollar then [unit '$'] else []) ++ c :: getSubstitution matched before after false text := by
  obtain ⟨h₁, h₂, h₃, h₄⟩ := not_special_iff.1 hc
  cases dollar with
  | false => simp [getSubstitution, h₁]
  | true => simp [getSubstitution, h₁, h₂, h₃, h₄]

/-- A unit that is not special keeps apart what is before it and after it. -/
theorem getSubstitution_append_cons (hc : c ∉ special) :
    getSubstitution matched before after dollar (xs ++ c :: ys) =
      getSubstitution matched before after dollar xs ++ c :: getSubstitution matched before after false ys := by
  induction xs generalizing dollar with
  | nil => rw [List.nil_append, getSubstitution_cons hc, getSubstitution]
  | cons x xs ih =>
    rw [List.cons_append]
    by_cases hx : x ∈ special
    · simp only [special, List.mem_cons, List.not_mem_nil, or_false] at hx
      rcases hx with rfl | rfl | rfl | rfl <;> cases dollar <;>
        simp only [getSubstitution, ih, if_true, if_false, Bool.false_eq_true] <;> simp [unit]
    · rw [getSubstitution_cons hx, getSubstitution_cons hx, ih]
      simp

/-- Without a dollar nothing is replaced. -/
theorem getSubstitution_append (hxs : unit '$' ∉ xs) : getSubstitution matched before after false (xs ++ ys) =
    xs ++ getSubstitution matched before after false ys := by
  induction xs with
  | nil => rfl
  | cons x xs ih =>
    rw [List.mem_cons, not_or] at hxs
    rw [List.cons_append, getSubstitution, if_neg (by simp), if_neg (Ne.symm hxs.1), ih hxs.2]
    rfl

theorem getSubstitution_eq_self (hxs : unit '$' ∉ xs) : getSubstitution matched before after false xs = xs := by
  have h : getSubstitution matched before after false (xs ++ []) = xs ++ [] := getSubstitution_append hxs
  rw [List.append_nil] at h
  exact h

/-- A dollar that is followed by nothing special stays. -/
theorem getSubstitution_of_forall_not_infix
    (h : ∀ c ∈ special, ¬ [unit '$', c] <:+: (if dollar then [unit '$'] else []) ++ text) :
    getSubstitution matched before after dollar text = (if dollar then [unit '$'] else []) ++ text := by
  induction text generalizing dollar with
  | nil => cases dollar <;> rfl
  | cons c text ih =>
    by_cases hc : c ∈ special
    · cases dollar with
      | true => exact absurd (List.prefix_append [unit '$', c] text).isInfix (h c hc)
      | false =>
        by_cases hdollar : c = unit '$'
        · subst hdollar
          rw [getSubstitution, if_neg (by simp), if_pos rfl, ih h]
          rfl
        · rw [getSubstitution, if_neg (by simp), if_neg hdollar,
            @ih false fun d hd hpart => h d hd (hpart.trans (List.suffix_cons c text).isInfix)]
          rfl
    · have hsuffix : text <:+: (if dollar then [unit '$'] else []) ++ c :: text :=
        (List.suffix_cons c text).isInfix.trans (List.suffix_append _ _).isInfix
      rw [getSubstitution_cons hc, @ih false fun d hd hpart => h d hd (hpart.trans hsuffix)]
      rfl

/-- What has been matched comes back, or it has no part in the result. -/
theorem infix_or_getSubstitution_eq : matched <:+: getSubstitution matched before after dollar text ∨
    getSubstitution matched before after dollar text = getSubstitution [] before after dollar text := by
  induction text generalizing dollar with
  | nil => exact .inr rfl
  | cons c text ih =>
    have hlater : ∀ front : JsString, ∀ dollar,
        matched <:+: front ++ getSubstitution matched before after dollar text ∨
          front ++ getSubstitution matched before after dollar text =
            front ++ getSubstitution [] before after dollar text := fun front dollar => by
      refine ih.imp (fun h => h.trans (List.suffix_append _ _).isInfix) fun h => by rw [h]
    unfold getSubstitution
    split_ifs with hdollar h₁ h₂ h₃ h₄ h₅
    · exact hlater [unit '$'] false
    · exact .inl (List.prefix_append _ _).isInfix
    · exact hlater before false
    · exact hlater after false
    · exact hlater [unit '$', c] false
    · exact hlater [] true
    · exact hlater [c] false

/-- With nothing to put in, a replacement gets shorter by what it says to put in. -/
theorem length_getSubstitution_le :
    (getSubstitution [] [] [] dollar text).length ≤ (if dollar then 1 else 0) + text.length := by
  induction text generalizing dollar with
  | nil => cases dollar <;> simp [getSubstitution]
  | cons c text ih =>
    have hfalse : (getSubstitution [] [] [] false text).length ≤ text.length := by
      simpa using @ih false
    have htrue : (getSubstitution [] [] [] true text).length ≤ 1 + text.length := @ih true
    unfold getSubstitution
    split_ifs with hdollar h₁ h₂ h₃ h₄ h₅ <;>
      simp only [List.nil_append, List.length_cons] <;> omega

theorem length_getSubstitution_lt {c : UInt16} (hc : c ∈ special)
    (h : [unit '$', c] <:+: (if dollar then [unit '$'] else []) ++ text) :
    (getSubstitution [] [] [] dollar text).length < (if dollar then 1 else 0) + text.length := by
  induction text generalizing dollar with
  | nil =>
    have := h.length_le
    cases dollar <;> simp at this
  | cons x text ih =>
    have hle : (getSubstitution [] [] [] false text).length ≤ 0 + text.length := length_getSubstitution_le
    by_cases hx : x ∈ special
    · cases dollar with
      | true =>
        simp only [special, List.mem_cons, List.not_mem_nil, or_false] at hx
        rcases hx with rfl | rfl | rfl | rfl <;>
          simp [getSubstitution, unit] at hle ⊢ <;> omega
      | false =>
        by_cases hdollar : x = unit '$'
        · subst hdollar
          have := @ih true h
          rw [getSubstitution, if_neg (by simp), if_pos rfl]
          simp only [if_true, if_false, Bool.false_eq_true, List.length_cons] at this ⊢
          omega
        · rcases List.infix_cons_iff.1 h with hstarts | hpart
          · exact absurd (List.cons_prefix_cons.1 hstarts).1.symm hdollar
          · have := @ih false hpart
            rw [getSubstitution, if_neg (by simp), if_neg hdollar]
            simp only [if_false, Bool.false_eq_true, List.length_cons] at this ⊢
            omega
    · have hne : c ≠ x := fun heq => hx (heq ▸ hc)
      have hxdollar : unit '$' ≠ x := (not_special_iff.1 hx).1.symm
      have hpart : [unit '$', c] <:+: text := by
        cases dollar <;> simpa [List.infix_cons_iff, List.cons_prefix_cons, hne, hxdollar] using h
      have := @ih false hpart
      rw [getSubstitution_cons hx]
      cases dollar <;> simp at this ⊢ <;> omega

end Substitution

/-! ## Trimming -/

theorem trim_append {front text back : JsString} {c d : UInt16} (hfront : ∀ x ∈ front, isWhiteSpace x = true)
    (hback : ∀ x ∈ back, isWhiteSpace x = true) (hc : isWhiteSpace c = false) (hd : isWhiteSpace d = false) :
    trim (front ++ (c :: text ++ [d]) ++ back) = c :: text ++ [d] := by
  unfold trim trimEnd
  rw [List.append_assoc, List.dropWhile_append_of_pos hfront, List.cons_append, List.cons_append,
    List.dropWhile_cons_of_neg (by simp [hc]), ← List.cons_append, ← List.cons_append, List.reverse_append,
    List.dropWhile_append_of_pos fun x hx => hback x (List.mem_reverse.1 hx), List.reverse_append,
    List.reverse_singleton, List.singleton_append, List.dropWhile_cons_of_neg (by simp [hd])]
  simp

end JsString

end Staaash.Library

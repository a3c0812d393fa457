import Staaash.Layout.Names
import Mathlib.Data.List.TakeWhile

/-!
# Proofs: checked names

What the check of a name asks for, and which names pass it again as they came out of it.
-/

namespace Staaash.Layout

open Staaash.Planner (ItemType)

variable {raw value : String} {kind : ItemType}

/-! ## The check -/

theorem validateSegment_eq_ok :
    validateSegment raw kind = .ok value ↔ trim raw = value ∧ findSegmentError raw value = none := by
  unfold validateSegment
  constructor
  · intro h
    dsimp only at h
    split at h
    · cases h
    · cases h
      exact ⟨rfl, by assumption⟩
  · rintro ⟨rfl, h⟩
    simp only [h]

structure Checked (raw value : String) : Prop where
  nonempty : value.toList ≠ []
  valid : ∀ c ∈ value.toList, c ∉ invalidSegmentCharacters
  bytes : value.utf8ByteSize ≤ maxFilesystemComponentBytes
  last : raw.toList.getLast?.any (· ∈ [' ', '.']) = false
  unreserved : reservedCandidate value ∉ reservedWindowsNames

theorem findSegmentError_eq_none : findSegmentError raw value = none ↔ Checked raw value := by
  unfold findSegmentError
  constructor
  · intro h
    split at h <;> try cases h
    rename_i hnil
    split at h <;> try cases h
    rename_i hinvalid
    split at h <;> try cases h
    rename_i hlong
    split at h <;> try cases h
    rename_i hlast
    split at h <;> try cases h
    rename_i hreserved
    refine ⟨hnil, fun c hc hmem => hinvalid ?_, Nat.le_of_not_gt hlong, Bool.eq_false_iff.2 hlast, hreserved⟩
    exact List.any_eq_true.2 ⟨c, hc, decide_eq_true hmem⟩
  · rintro ⟨hnil, hvalid, hbytes, hlast, hreserved⟩
    rw [if_neg hnil, if_neg, if_neg (Nat.not_lt.2 hbytes), if_neg (by rw [hlast]; decide), if_neg hreserved]
    intro hinvalid
    obtain ⟨c, hc, hmem⟩ := List.any_eq_true.1 hinvalid
    exact hvalid c hc (of_decide_eq_true hmem)

theorem checked_of_validateSegment (h : validateSegment raw kind = .ok value) :
    trim raw = value ∧ Checked raw value :=
  ⟨(validateSegment_eq_ok.1 h).1, findSegmentError_eq_none.1 (validateSegment_eq_ok.1 h).2⟩

/-! ## Trimming -/

/-- No white space at either end. -/
structure Trimmed (chars : List Char) : Prop where
  head : ∀ c ∈ chars.head?, isWhiteSpace c = false
  last : ∀ c ∈ chars.getLast?, isWhiteSpace c = false

theorem dropWhile_eq_self {chars : List Char} (h : ∀ c ∈ chars.head?, isWhiteSpace c = false) :
    chars.dropWhile isWhiteSpace = chars := by
  cases chars with
  | nil => rfl
  | cons c rest =>
    rw [List.dropWhile_cons_of_neg]
    rw [h c rfl]
    decide

theorem trim_eq_self (h : Trimmed value.toList) : trim value = value := by
  have hlast : ∀ c ∈ value.toList.reverse.head?, isWhiteSpace c = false := by
    rw [List.head?_reverse]
    exact h.last
  unfold trim
  rw [dropWhile_eq_self h.head, dropWhile_eq_self hlast, List.reverse_reverse, String.ofList_toList]

theorem trimmed_trim (raw : String) : Trimmed (trim raw).toList := by
  have hhead : ∀ (chars : List Char), ∀ c ∈ (chars.dropWhile isWhiteSpace).head?, isWhiteSpace c = false := by
    intro chars c hc
    have := List.head?_dropWhile_not isWhiteSpace chars
    rw [Option.mem_def.1 hc] at this
    exact this
  unfold trim
  rw [String.toList_ofList]
  refine ⟨?_, ?_⟩
  · -- What is left of the front after the end is cut begins where it began.
    intro c hc
    obtain ⟨back, hback⟩ := List.dropWhile_suffix isWhiteSpace (l := (raw.toList.dropWhile isWhiteSpace).reverse)
    refine hhead raw.toList c ?_
    have hfront := congrArg List.reverse hback
    rw [List.reverse_append, List.reverse_reverse] at hfront
    rw [← hfront]
    rcases hrev : ((raw.toList.dropWhile isWhiteSpace).reverse.dropWhile isWhiteSpace).reverse with _ | ⟨d, rest⟩
    · rw [hrev] at hc
      cases hc
    · rw [hrev] at hc
      exact hc
  · intro c hc
    rw [List.getLast?_reverse] at hc
    exact hhead _ c hc

/-- Only white space is taken away. -/
theorem exists_trim (raw : String) : ∃ before after : List Char,
    raw.toList = before ++ (trim raw).toList ++ after ∧ (∀ c ∈ before, isWhiteSpace c = true) ∧
      ∀ c ∈ after, isWhiteSpace c = true := by
  refine ⟨raw.toList.takeWhile isWhiteSpace,
    ((raw.toList.dropWhile isWhiteSpace).reverse.takeWhile isWhiteSpace).reverse, ?_, ?_, ?_⟩
  · unfold trim
    rw [String.toList_ofList, List.append_assoc, ← List.reverse_append, List.takeWhile_append_dropWhile,
      List.reverse_reverse, List.takeWhile_append_dropWhile]
  · intro c hc
    exact List.mem_takeWhile_imp hc
  · intro c hc
    exact List.mem_takeWhile_imp (List.mem_reverse.1 hc)

theorem trim_padded {before chars after : List Char} (h : Trimmed chars) (hne : chars ≠ [])
    (hbefore : ∀ c ∈ before, isWhiteSpace c = true) (hafter : ∀ c ∈ after, isWhiteSpace c = true) :
    (trim (String.ofList (before ++ chars ++ after))).toList = chars := by
  have hfront : (before ++ chars ++ after).dropWhile isWhiteSpace = chars ++ after := by
    obtain ⟨c, rest, rfl⟩ := List.exists_cons_of_ne_nil hne
    rw [List.append_assoc, List.dropWhile_append_of_pos hbefore, List.cons_append, List.dropWhile_cons_of_neg]
    rw [h.head c rfl]
    decide
  have hlast : ∀ c ∈ chars.reverse.head?, isWhiteSpace c = false := by
    rw [List.head?_reverse]
    exact h.last
  unfold trim
  rw [String.toList_ofList, String.toList_ofList, hfront, List.reverse_append, List.dropWhile_append_of_pos,
    dropWhile_eq_self hlast, List.reverse_reverse]
  intro c hc
  exact hafter c (List.mem_reverse.1 hc)

/-- A name that came out of the check passes it again unless it ends with a dot. -/
theorem validateSegment_self (h : validateSegment raw kind = .ok value) {kind' : ItemType} :
    validateSegment value kind' = .ok value ↔ value.toList.getLast? ≠ some '.' := by
  obtain ⟨rfl, hchecked⟩ := checked_of_validateSegment h
  have htrimmed := trimmed_trim raw
  rw [validateSegment_eq_ok, findSegmentError_eq_none]
  constructor
  · rintro ⟨-, hself⟩ hdot
    have hlast := hself.last
    rw [hdot] at hlast
    simp at hlast
  · intro hdot
    refine ⟨trim_eq_self htrimmed, hchecked.nonempty, hchecked.valid, hchecked.bytes, ?_, hchecked.unreserved⟩
    rw [Option.any_eq_false]
    intro c hc
    have hspace := htrimmed.last c hc
    rw [hc] at hdot
    refine decide_eq_false ?_
    simp only [List.mem_cons, List.not_mem_nil, or_false, not_or]
    refine ⟨?_, fun heq => hdot (congrArg some heq)⟩
    rintro rfl
    revert hspace
    decide

end Staaash.Layout

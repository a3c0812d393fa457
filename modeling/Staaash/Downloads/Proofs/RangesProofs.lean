import Mathlib.Data.Option.Basic
import Staaash.Downloads.Ranges
import Staaash.Layout.Proofs.NamesProofs

/-!
# Proofs: range headers

Both parsers read a header of one of the three forms as digits around the only dash, and the number that
digits stand for is the same to both. It is not rounded where it is below `2 ^ 53`.
-/

namespace Staaash.Downloads

open Staaash.Library
open Staaash.Layout (trim Trimmed isWhiteSpace trim_padded exists_trim trim_eq_self)

variable {rangeHeader : String} {size : Nat} {part s e : List Char} {asked : Asked} {range : ByteRange}

/-! ## Digits -/

theorem not_isDigit_of_isWhiteSpace {c : Char} (h : isWhiteSpace c = true) : isDigit c = false := by
  by_contra hdigit
  rw [Bool.not_eq_false] at hdigit
  unfold isDigit at hdigit
  unfold isWhiteSpace at h
  simp only [Bool.and_eq_true, decide_eq_true_eq] at hdigit
  simp only [Bool.or_eq_true, Bool.and_eq_true, decide_eq_true_eq, List.mem_cons, List.not_mem_nil,
    or_false] at h
  obtain ⟨hlow, hhigh⟩ := hdigit
  rcases h with (rfl | rfl | rfl | rfl | rfl | rfl | rfl | rfl | rfl | rfl | rfl | rfl | rfl | rfl) | ⟨hfrom, -⟩
  all_goals first
    | exact absurd hlow (by decide)
    | exact absurd hhigh (by decide)
    | exact absurd (Char.le_trans hfrom hhigh) (by decide)

theorem trimmed_of_digits {chars : List Char}
    (h : ∀ c ∈ chars, isDigit c = true ∨ c = '-') : Trimmed chars := by
  have hspace : ∀ c ∈ chars, isWhiteSpace c = false := by
    intro c hc
    by_contra hwhite
    rw [Bool.not_eq_false] at hwhite
    rcases h c hc with hdigit | rfl
    · rw [not_isDigit_of_isWhiteSpace hwhite] at hdigit
      cases hdigit
    · revert hwhite
      decide
  exact ⟨fun c hc => hspace c (List.mem_of_mem_head? hc), fun c hc => hspace c (List.mem_of_getLast? hc)⟩

/-- A number in digits. -/
theorem decimalNumber_digits {chars : List Char} (h : ∀ c ∈ chars, isDigit c = true) (hne : chars ≠ [])
    (hexact : decimalValue chars < 2 ^ 53) : decimalNumber chars = .whole (decimalValue chars) := by
  have hsign : takeSign chars = (false, chars) := by
    unfold takeSign
    split
    · exact absurd (h '-' (by simp)) (by decide)
    · exact absurd (h '+' (by simp)) (by decide)
    · rfl
  have hfinite : chars ≠ "Infinity".toList := by
    rintro rfl
    exact absurd (h 'I' (by decide)) (by decide)
  have htake : chars.takeWhile isDigit = chars := List.takeWhile_eq_self_iff.2 h
  have hdrop : chars.dropWhile isDigit = [] := List.dropWhile_eq_nil_iff.2 h
  have hvalue : double.nearest (decimalValue chars) 1 = .whole (decimalValue chars) :=
    FloatFormat.nearest_of_lt hexact
  unfold decimalNumber
  simp only [hsign, if_neg hfinite, htake, hdrop, hne, exponent, false_and, if_false, List.append_nil]
  show JsNumber.signed false (double.nearest (decimalValue chars * 1) 1) = _
  rw [Nat.mul_one, hvalue]
  rfl

theorem number_digits {chars : List Char} (h : ∀ c ∈ chars, isDigit c = true)
    (hexact : decimalValue chars < 2 ^ 53) : number chars = .whole (decimalValue chars) := by
  have htrim : (trim (String.ofList chars)).toList = chars := by
    rw [trim_eq_self, String.toList_ofList]
    rw [String.toList_ofList]
    exact trimmed_of_digits fun c hc => .inl (h c hc)
  unfold number
  rw [htrim]
  split
  · rfl
  · next c digits =>
    have hc := h c (by simp)
    have hnot : ∀ d : Char, isDigit d = false → c ≠ d := by
      rintro d hd rfl
      rw [hc] at hd
      cases hd
    rw [if_neg, if_neg, if_neg]
    · exact decimalNumber_digits h (by simp) hexact
    all_goals
      rintro (heq | heq)
      · exact hnot _ (by decide) heq
      · exact hnot _ (by decide) heq
  · next hnil _ => exact decimalNumber_digits h hnil hexact

theorem Digits.Exact.number_chars {d : Digits} (h : d.Exact) : number d.chars = .whole d.value :=
  number_digits d.digits h

/-! ## The parts of a header -/

theorem dash_not_mem (h : ∀ c ∈ s, isDigit c = true) : '-' ∉ s := by
  intro hmem
  have := h '-' hmem
  revert this
  decide

theorem splitRange_digits (hs : ∀ c ∈ s, isDigit c = true) (he : ∀ c ∈ e, isDigit c = true) :
    splitRange (s ++ '-' :: e) = some (s, e) := by
  unfold splitRange
  rw [List.splitOn_append_cons_self_of_not_mem (dash_not_mem hs), List.splitOn_eq_singleton (dash_not_mem he)]

theorem onlyDigits_iff : Download.onlyDigits part = true ↔
    ∃ s e, part = s ++ '-' :: e ∧ (∀ c ∈ s, isDigit c = true) ∧ ∀ c ∈ e, isDigit c = true := by
  unfold Download.onlyDigits
  constructor
  · intro h
    split at h
    · next digits hdrop =>
      refine ⟨part.takeWhile isDigit, digits, ?_, fun c hc => List.mem_takeWhile_imp hc, by simpa using h⟩
      rw [← hdrop, List.takeWhile_append_dropWhile]
    · cases h
  · rintro ⟨s, e, rfl, hs, he⟩
    rw [List.dropWhile_append_of_pos hs, List.dropWhile_cons_of_neg (by decide)]
    simpa using he

theorem requestedRange_eq_some : requestedRange rangeHeader = some part ↔
    ∃ rest, rangeHeader.toList = "bytes=".toList ++ rest ∧ (trim (String.ofList rest)).toList = part := by
  unfold requestedRange
  rw [Option.ite_none_right_eq_some]
  have hdrop : ∀ rest, rangeHeader.toList = "bytes=".toList ++ rest →
      rangeHeader.toList.drop "bytes=".length = rest := by
    intro rest hrest
    rw [hrest]
    rfl
  constructor
  · rintro ⟨⟨rest, hrest⟩, hpart⟩
    rw [hdrop rest hrest.symm] at hpart
    exact ⟨rest, hrest.symm, Option.some.inj hpart⟩
  · rintro ⟨rest, hrest, hpart⟩
    rw [hdrop rest hrest, hpart]
    exact ⟨⟨rest, hrest.symm⟩, rfl⟩

theorem Asked.mem_text {c : Char} (h : c ∈ asked.text) : isDigit c = true ∨ c = '-' := by
  cases asked <;> simp only [Asked.text, List.mem_append, List.mem_cons, List.not_mem_nil, or_false] at h
  · rcases h with hfirst | rfl | hlast
    · exact .inl (Digits.digits _ c hfirst)
    · exact .inr rfl
    · exact .inl (Digits.digits _ c hlast)
  · exact h.imp_left (Digits.digits _ c)
  · exact h.symm.imp_left (Digits.digits _ c)

theorem Asked.text_ne_nil (asked : Asked) : asked.text ≠ [] := by
  cases asked <;> simp [Asked.text]

theorem Asked.In.requestedRange (h : asked.In rangeHeader) :
    Downloads.requestedRange rangeHeader = some asked.text := by
  obtain ⟨before, after, hheader, hbefore, hafter⟩ := h
  exact requestedRange_eq_some.2 ⟨_, hheader,
    trim_padded (trimmed_of_digits fun c hc => asked.mem_text hc) asked.text_ne_nil hbefore hafter⟩

theorem Asked.in_of_requestedRange (h : Downloads.requestedRange rangeHeader = some asked.text) :
    asked.In rangeHeader := by
  obtain ⟨rest, hheader, htrim⟩ := requestedRange_eq_some.1 h
  obtain ⟨before, after, hrest, hbefore, hafter⟩ := exists_trim (String.ofList rest)
  rw [String.toList_ofList, htrim] at hrest
  exact ⟨before, after, by rw [hheader, hrest], hbefore, hafter⟩

theorem decimalValue_nil_lt : decimalValue [] < 2 ^ 53 := by decide

/-- Digits around the dash are what a header of one of the three forms asks for, or there are none. -/
theorem exact_of_requestedRange (hexact : ∀ asked : Asked, asked.In rangeHeader → asked.Exact)
    (h : requestedRange rangeHeader = some (s ++ '-' :: e)) (hs : ∀ c ∈ s, isDigit c = true)
    (he : ∀ c ∈ e, isDigit c = true) : decimalValue s < 2 ^ 53 ∧ decimalValue e < 2 ^ 53 := by
  have hasked : ∀ asked : Asked, asked.text = s ++ '-' :: e → asked.Exact := fun asked htext =>
    hexact asked (Asked.in_of_requestedRange (by rw [htext]; exact h))
  by_cases hstart : s = []
  · subst hstart
    refine ⟨decimalValue_nil_lt, ?_⟩
    by_cases hstop : e = []
    · rw [hstop]
      exact decimalValue_nil_lt
    · exact hasked (.suffix ⟨e, hstop, he⟩) rfl
  · by_cases hstop : e = []
    · subst hstop
      exact ⟨hasked (.from ⟨s, hstart, hs⟩) rfl, decimalValue_nil_lt⟩
    · exact hasked (.between ⟨s, hstart, hs⟩ ⟨e, hstop, he⟩) rfl

/-! ## Downloads -/

/-- What the digits around the dash stand for. -/
def digitsRange (size : Nat) (s e : List Char) : Option ByteRange :=
  if s = [] then
    if 0 < decimalValue e then some ⟨max ((size : Int) - decimalValue e) 0, size - 1⟩ else none
  else if decimalValue s < size then
    if e = [] then some ⟨decimalValue s, size - 1⟩
    else if decimalValue s ≤ decimalValue e then some ⟨decimalValue s, min (decimalValue e) ((size : Int) - 1)⟩
    else none
  else none

theorem guard_bind {α : Type} {p : Prop} [Decidable p] (o : Option α) :
    (guard p : Option Unit).bind (fun _ => o) = if p then o else none := by
  by_cases hp : p <;> simp [hp]

theorem download_digits (h : requestedRange rangeHeader = some (s ++ '-' :: e))
    (hs : ∀ c ∈ s, isDigit c = true) (he : ∀ c ∈ e, isDigit c = true) (hstart : decimalValue s < 2 ^ 53)
    (hstop : decimalValue e < 2 ^ 53) :
    Download.parseSingleByteRange rangeHeader size = digitsRange size s e := by
  have hpattern : Download.onlyDigits (s ++ '-' :: e) = true := onlyDigits_iff.2 ⟨s, e, rfl, hs, he⟩
  unfold Download.parseSingleByteRange digitsRange
  simp only [h, Option.bind_eq_bind, Option.bind_some, hpattern, splitRange_digits hs he,
    number_digits hs hstart, number_digits he hstop, JsNumber.integer, JsNumber.cutTo, Option.pure_def, guard_bind]
  have hpositive : (0 : Int) < decimalValue e ↔ 0 < decimalValue e := Int.natCast_pos
  have hinside : (0 : Int) ≤ decimalValue s ∧ (decimalValue s : Int) < size ↔ decimalValue s < size := by omega
  simp only [hpositive, hinside]
  by_cases hstart : decimalValue s < size
  · have hopen : (decimalValue s : Int) ≤ size - 1 := by omega
    have hclosed : (decimalValue s : Int) ≤ min (decimalValue e : Int) (size - 1) ↔
        decimalValue s ≤ decimalValue e := by omega
    simp only [hstart, hopen, hclosed, if_true]
  · simp [hstart]

/-- A range that is read was asked for in one of the three forms. -/
theorem digitsRange_selected (hs : ∀ c ∈ s, isDigit c = true) (he : ∀ c ∈ e, isDigit c = true)
    (h : digitsRange size s e = some range) (hsuffix : s = [] → 0 < size) :
    ∃ asked : Asked, asked.text = s ++ '-' :: e ∧ asked.selected size = some range := by
  unfold digitsRange at h
  by_cases hnil : s = []
  · rw [if_pos hnil] at h
    obtain ⟨hpos, hrange⟩ := Option.ite_none_right_eq_some.1 h
    have hne : e ≠ [] := by
      rintro rfl
      exact absurd hpos (by decide)
    refine ⟨.suffix ⟨e, hne, he⟩, ?_, ?_⟩
    · rw [hnil]
      rfl
    · rw [Asked.selected_suffix, if_pos ⟨hpos, hsuffix hnil⟩]
      exact hrange
  · rw [if_neg hnil] at h
    obtain ⟨hstart, h⟩ := Option.ite_none_right_eq_some.1 h
    by_cases hopen : e = []
    · rw [if_pos hopen] at h
      refine ⟨.from ⟨s, hnil, hs⟩, by rw [hopen]; rfl, ?_⟩
      rw [Asked.selected_from]
      exact (if_pos hstart).trans h
    · rw [if_neg hopen] at h
      obtain ⟨hle, hrange⟩ := Option.ite_none_right_eq_some.1 h
      refine ⟨.between ⟨s, hnil, hs⟩ ⟨e, hopen, he⟩, rfl, ?_⟩
      rw [Asked.selected_between]
      exact (if_pos ⟨hle, hstart⟩).trans hrange

/-- What is asked for in one of the three forms is read, except the end of an empty file. -/
theorem Asked.In.download (h : asked.In rangeHeader) (hexact : asked.Exact)
    (hempty : size = 0 → ∀ length, asked ≠ .suffix length) :
    Download.parseSingleByteRange rangeHeader size = asked.selected size := by
  have hrequested := h.requestedRange
  cases asked with
  | between first last =>
    have hsplit : digitsRange size first.chars last.chars = if first.value < size then
        if first.value ≤ last.value then some ⟨first.value, min last.value ((size : Int) - 1)⟩ else none
        else none := by
      unfold digitsRange
      rw [if_neg first.nonempty, if_neg last.nonempty]
      rfl
    rw [download_digits hrequested first.digits last.digits hexact.1 hexact.2, hsplit, selected_between]
    by_cases hstart : first.value < size <;> by_cases hle : first.value ≤ last.value <;> simp [hstart, hle]
  | «from» first =>
    rw [download_digits hrequested first.digits (by simp) hexact decimalValue_nil_lt, selected_from]
    unfold digitsRange
    rw [if_neg first.nonempty, if_pos rfl]
    rfl
  | suffix length =>
    have hsize : 0 < size := by
      by_contra hzero
      exact hempty (by omega) length rfl
    rw [download_digits (s := []) hrequested (by simp) length.digits decimalValue_nil_lt hexact, selected_suffix]
    unfold digitsRange
    simp only [if_true, hsize, and_true]
    rfl

theorem download_eq_some (hexact : ∀ asked : Asked, asked.In rangeHeader → asked.Exact)
    (hempty : size = 0 → ∀ length, ¬(Asked.suffix length).In rangeHeader) :
    Download.parseSingleByteRange rangeHeader size = some range ↔
      ∃ asked : Asked, asked.In rangeHeader ∧ asked.selected size = some range := by
  constructor
  · intro h
    obtain ⟨part, hpart, hdigits⟩ : ∃ part, requestedRange rangeHeader = some part ∧
        Download.onlyDigits part = true := by
      unfold Download.parseSingleByteRange at h
      rcases hpart : requestedRange rangeHeader with _ | part
      · simp [hpart] at h
      · refine ⟨part, rfl, ?_⟩
        by_contra hnot
        simp only [hpart, Option.bind_eq_bind, Option.bind_some, guard_bind, if_neg hnot] at h
        cases h
    obtain ⟨s, e, rfl, hs, he⟩ := onlyDigits_iff.1 hdigits
    obtain ⟨hstart, hstop⟩ := exact_of_requestedRange hexact hpart hs he
    rw [download_digits hpart hs he hstart hstop] at h
    obtain ⟨asked, htext, hselected⟩ : ∃ asked : Asked, asked.text = s ++ '-' :: e ∧
        asked.selected size = some range := by
      refine digitsRange_selected hs he h ?_
      rintro rfl
      by_contra hzero
      have hne : e ≠ [] := by
        rintro rfl
        revert h
        simp [digitsRange, decimalValue]
      exact hempty (by omega) ⟨e, hne, he⟩ (Asked.in_of_requestedRange hpart)
    exact ⟨asked, Asked.in_of_requestedRange (by rw [htext]; exact hpart), hselected⟩
  · rintro ⟨asked, hin, hselected⟩
    rw [hin.download (hexact asked hin), hselected]
    rintro hzero length rfl
    exact hempty hzero length hin

/-! ## Inline media -/

/-- A range that is open at the end may be cut, and the end of an empty file is read too. -/
def mediaRange (size : Nat) (cap : Option Nat) : Asked → Option ByteRange
  | .between first last => (Asked.between first last).selected size
  | .from first =>
    if first.value < size then some ⟨first.value, min (first.value + (cap.getD size : Nat) - 1) (size - 1)⟩
    else none
  | .suffix length => if 0 < length.value then some ⟨max (size - length.value) 0, size - 1⟩ else none

theorem Asked.In.media (h : asked.In rangeHeader) (hexact : asked.Exact) (cap : Option Nat) :
    (Media.parseSingleByteRange rangeHeader size cap).toOption = mediaRange size cap asked := by
  have hguard : ¬(asked.text = [] ∨ ',' ∈ asked.text) := by
    rintro (hnil | hmem)
    · exact asked.text_ne_nil hnil
    · rcases asked.mem_text hmem with hdigit | hdash
      · revert hdigit
        decide
      · revert hdash
        decide
  unfold Media.parseSingleByteRange
  rw [h.requestedRange]
  simp only [if_neg hguard]
  cases asked with
  | between first last =>
    have hstart : (first.value : Int) < 0 ∨ (size : Int) ≤ first.value ↔ ¬first.value < size := by omega
    have hend : (last.value : Int) < first.value ↔ ¬first.value ≤ last.value := by omega
    obtain ⟨c, rest, hfirst⟩ := List.exists_cons_of_ne_nil first.nonempty
    rw [show text (.between first last) = first.chars ++ '-' :: last.chars from rfl,
      splitRange_digits first.digits last.digits]
    show _ = (between first last).selected size
    rw [selected_between]
    simp only [hfirst]
    rw [← hfirst, hexact.1.number_chars, hexact.2.number_chars]
    simp only [JsNumber.integer, hstart, hend, if_neg last.nonempty]
    by_cases hlt : first.value < size <;> by_cases hle : first.value ≤ last.value <;>
      simp [hlt, hle, Media.refuse, Except.toOption]
  | «from» first =>
    have hstart : (first.value : Int) < 0 ∨ (size : Int) ≤ first.value ↔ ¬first.value < size := by omega
    obtain ⟨c, rest, hfirst⟩ := List.exists_cons_of_ne_nil first.nonempty
    rw [show text (.from first) = first.chars ++ '-' :: [] from rfl, splitRange_digits first.digits (by simp)]
    unfold mediaRange
    simp only [hfirst]
    rw [← hfirst, Digits.Exact.number_chars hexact]
    simp only [JsNumber.integer, hstart, if_true]
    by_cases hlt : first.value < size <;> simp [hlt, Media.refuse, Except.toOption]
  | suffix length =>
    have hpositive : (0 : Int) < length.value ↔ 0 < length.value := Int.natCast_pos
    rw [show text (.suffix length) = [] ++ '-' :: length.chars from rfl,
      splitRange_digits (by simp) length.digits]
    unfold mediaRange
    simp only
    rw [Digits.Exact.number_chars hexact]
    simp only [JsNumber.integer, hpositive]
    by_cases hlt : 0 < length.value <;> simp [hlt, Media.refuse, Except.toOption]

/-- Without a cap the inline media answer what the downloads do. -/
theorem mediaRange_none (asked : Asked) (hempty : size = 0 → ∀ length, asked ≠ .suffix length) :
    mediaRange size none asked = asked.selected size := by
  cases asked with
  | between first last => rfl
  | «from» first =>
    have hcap : min ((first.value : Int) + (size : Nat) - 1) (size - 1) = size - 1 := by omega
    rw [Asked.selected_from, ← hcap]
    rfl
  | suffix length =>
    have hsize : 0 < size := by
      by_contra hzero
      exact hempty (by omega) length rfl
    rw [Asked.selected_suffix]
    simp only [hsize, and_true]
    rfl

/-! ## Ranges of the file -/

theorem mediaRange_within {cap : Option Nat} (hcap : ∀ c ∈ cap, 0 < c)
    (hempty : size = 0 → ∀ length, asked ≠ .suffix length) (h : mediaRange size cap asked = some range) :
    range.Within size := by
  unfold ByteRange.Within
  cases asked with
  | between first last =>
    obtain ⟨⟨hle, hlt⟩, heq⟩ := Option.ite_none_right_eq_some.1 h
    obtain rfl := Option.some.inj heq
    simp only
    omega
  | «from» first =>
    obtain ⟨hlt, heq⟩ := Option.ite_none_right_eq_some.1 h
    obtain rfl := Option.some.inj heq
    have hpos : 0 < cap.getD size := by
      cases cap with
      | none => exact Nat.lt_of_le_of_lt (Nat.zero_le _) hlt
      | some c => exact hcap c rfl
    simp only
    omega
  | suffix length =>
    obtain ⟨hpos, heq⟩ := Option.ite_none_right_eq_some.1 h
    obtain rfl := Option.some.inj heq
    have hsize : 0 < size := by
      by_contra hzero
      exact hempty (by omega) length rfl
    simp only
    omega

/-- The headers are made of whole numbers. -/
theorem ByteRange.Within.headers (h : range.Within size) :
    ∃ first last : Nat, first ≤ last ∧ last < size ∧ range = ⟨first, last⟩ ∧
      respondWithFile size (some (some range)) = ⟨206, some (toString (last - first + 1)),
        some ("bytes " ++ toString first ++ "-" ++ toString last ++ "/" ++ toString size)⟩ := by
  obtain ⟨start, stop⟩ := range
  obtain ⟨hstart, hle, hlt⟩ := h
  simp only at hstart hle hlt
  obtain ⟨first, rfl⟩ := Int.eq_ofNat_of_zero_le hstart
  obtain ⟨last, rfl⟩ := Int.eq_ofNat_of_zero_le (Int.le_trans hstart hle)
  refine ⟨first, last, by omega, by omega, rfl, ?_⟩
  unfold respondWithFile
  have hlength : (last : Int) - first + 1 = ((last - first + 1 : Nat) : Int) := by omega
  simp only [hlength]
  rfl

/-- The parsers on the headers of the three forms, but for the end of an empty file. -/
theorem ranges_asked (rangeHeader : String) (size : Nat) (hsize : size < 2 ^ 53)
    (hexact : ∀ asked : Asked, asked.In rangeHeader → asked.Exact)
    (hempty : size = 0 → ∀ length, ¬(Asked.suffix length).In rangeHeader) :
    (∀ range, Download.parseSingleByteRange rangeHeader size = some range ↔
      ∃ asked : Asked, asked.In rangeHeader ∧ asked.selected size = some range) ∧
    ((∃ asked : Asked, asked.In rangeHeader) →
      (Media.parseSingleByteRange rangeHeader size none).toOption =
        Download.parseSingleByteRange rangeHeader size) ∧
    ∀ range, (Download.parseSingleByteRange rangeHeader size = some range ∨
        ∃ (asked : Asked) (cap : Option Nat), asked.In rangeHeader ∧ (∀ c ∈ cap, 0 < c) ∧
          Media.parseSingleByteRange rangeHeader size cap = .ok range) →
      range.Within size ∧ 0 < range.stop - range.start + 1 ∧ range.stop - range.start + 1 < 2 ^ 53 ∧
        ∃ first last : Nat, first ≤ last ∧ last < size ∧ range = ⟨first, last⟩ ∧
          respondWithFile size (some (some range)) = ⟨206, some (toString (last - first + 1)),
            some ("bytes " ++ toString first ++ "-" ++ toString last ++ "/" ++ toString size)⟩ := by
  have hnot : ∀ {asked : Asked}, asked.In rangeHeader → size = 0 → ∀ length, asked ≠ .suffix length := by
    rintro asked hin hzero length rfl
    exact hempty hzero length hin
  refine ⟨fun range => download_eq_some hexact hempty, ?_, ?_⟩
  · rintro ⟨asked, hin⟩
    rw [hin.media (hexact asked hin), hin.download (hexact asked hin) (hnot hin), mediaRange_none asked (hnot hin)]
  · intro range hrange
    have hwithin : range.Within size := by
      rcases hrange with hdownload | ⟨asked, cap, hin, hcap, hmedia⟩
      · obtain ⟨asked, hin, hselected⟩ := (download_eq_some hexact hempty).1 hdownload
        rw [← mediaRange_none asked (hnot hin)] at hselected
        exact mediaRange_within (by simp) (hnot hin) hselected
      · have hread : (Media.parseSingleByteRange rangeHeader size cap).toOption = mediaRange size cap asked :=
          hin.media (hexact asked hin) cap
        rw [hmedia] at hread
        exact mediaRange_within hcap (hnot hin) hread.symm
    have ⟨hstart, hle, hlt⟩ := hwithin
    exact ⟨hwithin, by omega, by omega, hwithin.headers⟩

theorem ranges_asked_of_ten : (Media.parseSingleByteRange "bytes=2-" 10 none).toOption =
    Download.parseSingleByteRange "bytes=2-" 10 := by
  have hin : (Asked.from ⟨['2'], by decide, List.forall_mem_singleton.2 (by decide)⟩).In "bytes=2-" :=
    ⟨[], [], by decide, by simp, by simp⟩
  have hexact : ∀ asked : Asked, asked.In "bytes=2-" → asked.Exact := by
    intro asked hasked
    have htext := Option.some.inj (hasked.requestedRange.symm.trans hin.requestedRange)
    have hsplit : splitRange asked.text = some (['2'], []) := by
      rw [htext]
      decide
    cases asked with
    | between first last =>
      have hparts := Option.some.inj ((splitRange_digits first.digits last.digits).symm.trans hsplit)
      exact absurd (Prod.mk.inj hparts).2 last.nonempty
    | «from» first =>
      have hparts := Option.some.inj ((splitRange_digits first.digits (by simp)).symm.trans hsplit)
      show decimalValue first.chars < 2 ^ 53
      rw [(Prod.mk.inj hparts).1]
      decide
    | suffix length =>
      have hparts := Option.some.inj ((splitRange_digits (s := []) (by simp) length.digits).symm.trans hsplit)
      exact nomatch (Prod.mk.inj hparts).1
  exact (ranges_asked "bytes=2-" 10 (by decide) hexact (by simp)).2.1 ⟨_, hin⟩

/-- White space before the range is no matter. -/
theorem blank_is_accepted : Download.parseSingleByteRange "bytes= 0-0" 1 = some ⟨0, 0⟩ ∧
    ∀ asked : Asked, "bytes= 0-0".toList ≠ "bytes=".toList ++ asked.text := by
  refine ⟨by decide +kernel, ?_⟩
  intro asked h
  have hblank : ' ' ∈ asked.text := by
    have htext : " 0-0".toList = asked.text := @List.append_cancel_left _ "bytes=".toList _ _ h
    rw [← htext]
    decide
  rcases asked.mem_text hblank with hdigit | hdash
  · revert hdigit
    decide
  · revert hdash
    decide

end Staaash.Downloads

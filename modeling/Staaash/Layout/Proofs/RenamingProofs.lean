import Mathlib.Data.Bool.AllAny
import Staaash.Layout.Names
import Staaash.Layout.Proofs.NamesProofs

/-!
# Proofs: renaming

The renamed name begins with a character of the name and ends as the name does, so that it passes the check
where the name passes it again, if that character fits.
-/

namespace Staaash.Layout

open Staaash.Library
open Staaash.Planner (ItemType)

variable {raw name : String} {kind : ItemType} {existingNames : List String} {attempt : Nat}

/-! ## The parts of a name -/

/-- The base is not empty, and the extension has one dot, in front. -/
structure Parts (name : String) (base extension : List Char) : Prop where
  split : (splitFileName name).baseName.toList = base ∧ (splitFileName name).extension.toList = extension
  joined : name.toList = base ++ extension
  nonempty : base ≠ []
  dots : extension = [] ∨ ∃ rest, extension = '.' :: rest ∧ '.' ∉ rest

theorem exists_parts (hnil : name.toList ≠ []) (hslash : '/' ∉ name.toList) :
    ∃ base extension, Parts name base extension := by
  have hext : (extname name).toList = PosixPath.extname name.toList := by
    unfold extname
    rw [String.toList_ofList]
  rcases PosixPath.extname_cases hslash with hnone | ⟨base, rest, hbase, hname, hrest, hdot⟩
  · have hempty : extname name = "" := by
      rw [← String.toList_inj, hext, hnone]
      rfl
    refine ⟨name.toList, [], ⟨?_, ?_⟩, (List.append_nil _).symm, hnil, .inl rfl⟩ <;> unfold splitFileName
    · simp only [hempty, if_true]
    · simp only [hempty]
      rfl
  · generalize PosixPath.extname name.toList = extension at hext hname hrest
    refine ⟨base, extension, ⟨?_, ?_⟩, hname, hbase, .inr ⟨rest, hrest, hdot⟩⟩ <;> unfold splitFileName
    · have hne : extname name ≠ "" := by
        intro hempty
        rw [hempty, hrest] at hext
        cases hext
      simp only [if_neg hne]
      unfold sliceOff
      rw [String.toList_ofList, hext, hname, List.length_append, Nat.add_sub_cancel, List.take_left]
    · exact hext

theorem isDigit_of_mem_toString {c : Char} (h : c ∈ (toString attempt).toList) : c.isDigit = true := by
  rw [Nat.toString_eq_repr, Nat.toList_repr] at h
  exact Nat.isDigit_of_mem_toDigits (by decide) (by decide) h

theorem toList_renameSuffix {base extension : List Char} (h : Parts name base extension) :
    (renameSuffix name attempt).toList =
      ' ' :: '(' :: ((toString attempt).toList ++ ')' :: extension) := by
  unfold renameSuffix
  simp [h.split.2]

/-- What is kept of the base. -/
def keptBase (name : String) (attempt : Nat) (base : List Char) : List Char :=
  takeBytes (maxFilesystemComponentBytes - (renameSuffix name attempt).utf8ByteSize) 0 base

theorem toList_renamedCandidate {base extension : List Char} (h : Parts name base extension) :
    (renamedCandidate name attempt).toList = keptBase name attempt base ++ (renameSuffix name attempt).toList := by
  unfold renamedCandidate takeUtf8Bytes keptBase
  simp only [String.toList_append, String.toList_ofList, h.split.1]

theorem Parts.keptBase_isPrefix {base extension : List Char} (h : Parts name base extension) (attempt : Nat) :
    keptBase name attempt base <+: name.toList := by
  rw [h.joined]
  exact (takeBytes_isPrefix _ _ _).trans (List.prefix_append _ _)

theorem keptBase_eq_nil {base extension : List Char} (h : Parts name base extension)
    (hsuffix : (renameSuffix name attempt).utf8ByteSize ≤ maxFilesystemComponentBytes) :
    keptBase name attempt base = [] ↔ ¬Fits name attempt := by
  obtain ⟨c, rest, rfl⟩ := List.exists_cons_of_ne_nil h.nonempty
  unfold keptBase Fits
  rw [takeBytes_cons_eq_nil, h.joined]
  simp only [List.cons_append, List.headD_cons]
  omega

/-! ## The renamed name -/

theorem renamedCandidate_bytes (hsuffix : (renameSuffix name attempt).utf8ByteSize ≤ maxFilesystemComponentBytes) :
    (renamedCandidate name attempt).utf8ByteSize ≤ maxFilesystemComponentBytes := by
  unfold renamedCandidate takeUtf8Bytes
  simp only [String.utf8ByteSize_append, utf8ByteSize_ofList]
  have := takeBytes_le (Nat.zero_le (maxFilesystemComponentBytes - (renameSuffix name attempt).utf8ByteSize))
    (splitFileName name).baseName.toList
  omega

/-- Without a character of the name in front, it begins with a blank. -/
theorem not_renamed_of_not_fits (hnil : name.toList ≠ []) (hslash : '/' ∉ name.toList)
    (hfits : ¬Fits name attempt)
    (hbytes : (renamedCandidate name attempt).utf8ByteSize ≤ maxFilesystemComponentBytes) :
    normalizeFileName (renamedCandidate name attempt) ≠ .ok (renamedCandidate name attempt) := by
  obtain ⟨base, extension, h⟩ := exists_parts hnil hslash
  have hsuffix : (renameSuffix name attempt).utf8ByteSize ≤ maxFilesystemComponentBytes := by
    rw [utf8ByteSize_eq, toList_renamedCandidate h, utf8Bytes_append, ← utf8ByteSize_eq] at hbytes
    omega
  intro hok
  have htrimmed := trimmed_trim (renamedCandidate name attempt)
  rw [(checked_of_validateSegment hok).1] at htrimmed
  have hblank := htrimmed.head ' ' (by
    rw [toList_renamedCandidate h, (keptBase_eq_nil h hsuffix).2 hfits, toList_renameSuffix h]
    rfl)
  revert hblank
  decide

theorem mem_renamedCandidate {base extension : List Char} (h : Parts name base extension) {c : Char}
    (hc : c ∈ (renamedCandidate name attempt).toList) :
    c ∈ name.toList ∨ c ∈ [' ', '(', ')'] ∨ c.isDigit = true := by
  rw [toList_renamedCandidate h, toList_renameSuffix h, List.mem_append] at hc
  rcases hc with hkept | hsuffix
  · exact .inl ((h.keptBase_isPrefix attempt).subset hkept)
  · simp only [List.mem_cons, List.mem_append] at hsuffix
    rcases hsuffix with rfl | rfl | hdigit | rfl | hext
    · simp
    · simp
    · exact .inr (.inr (isDigit_of_mem_toString hdigit))
    · simp
    · left
      rw [h.joined]
      exact List.mem_append_right _ hext

/-- It ends as the name does, or with the closing parenthesis. -/
theorem last_renamedCandidate {base extension : List Char} (h : Parts name base extension) :
    (renamedCandidate name attempt).toList.getLast? = name.toList.getLast? ∨
      (renamedCandidate name attempt).toList.getLast? = some ')' := by
  rw [toList_renamedCandidate h, toList_renameSuffix h]
  rcases h.dots with hnone | ⟨rest, hrest, -⟩
  · right
    have hsplit : keptBase name attempt base ++ ' ' :: '(' :: ((toString attempt).toList ++ ')' :: extension) =
        (keptBase name attempt base ++ ' ' :: '(' :: (toString attempt).toList) ++ [')'] := by
      simp [hnone]
    rw [hsplit, List.getLast?_concat]
  · left
    have hsplit : keptBase name attempt base ++ ' ' :: '(' :: ((toString attempt).toList ++ ')' :: extension) =
        (keptBase name attempt base ++ ' ' :: '(' :: ((toString attempt).toList ++ [')'])) ++ '.' :: rest := by
      simp [hrest]
    rw [hsplit, h.joined, hrest, List.getLast?_append_of_ne_nil _ (List.cons_ne_nil _ _),
      List.getLast?_append_of_ne_nil _ (List.cons_ne_nil _ _)]

theorem takeWhile_append_of_mem {p : Char → Bool} {front back : List Char} {c : Char} (hc : c ∈ front)
    (hp : p c = false) : (front ++ back).takeWhile p = front.takeWhile p := by
  rw [List.takeWhile_append, if_neg]
  intro hlength
  have hall := List.takeWhile_eq_self_iff.1
    ((List.takeWhile_prefix p).eq_of_length hlength) c hc
  rw [hp] at hall
  cases hall

/-- A number comes before the first dot, or the name up to there is what it was. -/
theorem reservedCandidate_renamed {base extension : List Char} (h : Parts name base extension)
    (hname : reservedCandidate name ∉ reservedWindowsNames) :
    reservedCandidate (renamedCandidate name attempt) ∉ reservedWindowsNames := by
  unfold reservedCandidate at hname ⊢
  rw [toList_renamedCandidate h]
  by_cases hdot : '.' ∈ keptBase name attempt base
  · obtain ⟨after, hafter⟩ := h.keptBase_isPrefix attempt
    rw [takeWhile_append_of_mem hdot (by decide)]
    rwa [← hafter, takeWhile_append_of_mem hdot (by decide)] at hname
  · rw [toList_renameSuffix h, List.takeWhile_append_of_pos]
    · intro hreserved
      have hparen : ∀ reserved ∈ reservedWindowsNames, '(' ∉ reserved.toList := by decide
      refine hparen _ hreserved ?_
      rw [String.toList_ofList, List.mem_map]
      exact ⟨'(', List.mem_append_right _ (by simp), by decide⟩
    · intro c hc
      refine decide_eq_true ?_
      rintro rfl
      exact hdot hc

/-- A name that fits is accepted as it is. -/
theorem normalize_renamed {raw : String} (hchecked : Checked raw name) (htrimmed : Trimmed name.toList)
    (hdot : name.toList.getLast? ≠ some '.') (hslash : '/' ∉ name.toList) (hfits : Fits name attempt) :
    (renamedCandidate name attempt).utf8ByteSize ≤ maxFilesystemComponentBytes ∧
      normalizeFileName (renamedCandidate name attempt) = .ok (renamedCandidate name attempt) := by
  obtain ⟨base, extension, h⟩ := exists_parts hchecked.nonempty hslash
  have hsuffix : (renameSuffix name attempt).utf8ByteSize ≤ maxFilesystemComponentBytes := by
    unfold Fits at hfits
    omega
  have hbytes := renamedCandidate_bytes hsuffix
  have hkept : keptBase name attempt base ≠ [] := fun hnil => (keptBase_eq_nil h hsuffix).1 hnil hfits
  have hhead : (renamedCandidate name attempt).toList.head? = name.toList.head? := by
    obtain ⟨after, hafter⟩ := h.keptBase_isPrefix attempt
    rw [toList_renamedCandidate h, ← hafter, List.head?_append_of_ne_nil _ hkept,
      List.head?_append_of_ne_nil _ hkept]
  have hlast : ∀ c ∈ (renamedCandidate name attempt).toList.getLast?,
      isWhiteSpace c = false ∧ c ≠ '.' := by
    intro c hc
    rcases @last_renamedCandidate name attempt _ _ h with hsame | hparen
    · rw [hsame] at hc
      refine ⟨htrimmed.last c hc, ?_⟩
      rintro rfl
      exact hdot hc
    · rw [hparen] at hc
      obtain rfl := Option.some.inj hc
      decide
  refine ⟨hbytes, validateSegment_eq_ok.2 ⟨trim_eq_self ⟨?_, fun c hc => (hlast c hc).1⟩,
    findSegmentError_eq_none.2 ⟨?_, ?_, hbytes, ?_, reservedCandidate_renamed h hchecked.unreserved⟩⟩⟩
  · rw [hhead]
    exact htrimmed.head
  · intro hnil
    rw [hnil] at hhead
    exact hchecked.nonempty (List.head?_eq_none_iff.1 hhead.symm)
  · intro c hc hinvalid
    rcases mem_renamedCandidate h hc with hold | hpunctuation | hdigit
    · exact hchecked.valid c hold hinvalid
    · have : ∀ d ∈ [' ', '(', ')'], d ∉ invalidSegmentCharacters :=
        List.all_iff_forall_prop.1 (by decide)
      exact this c hpunctuation hinvalid
    · have : ∀ d ∈ invalidSegmentCharacters, d.isDigit = false :=
        List.all_iff_forall_prop.1 (by decide)
      rw [this c hinvalid] at hdigit
      cases hdigit
  · rw [Option.any_eq_false]
    intro c hc
    obtain ⟨hspace, hne⟩ := hlast c hc
    refine decide_eq_false ?_
    simp only [List.mem_cons, List.not_mem_nil, or_false, not_or]
    refine ⟨?_, hne⟩
    rintro rfl
    revert hspace
    decide

/-! ## The attempts -/

/-- The loop finds the first free number, or none of those it has tried is free. -/
theorem tryRenamed_cases (remaining start : Nat) :
    (∃ attempt, start ≤ attempt ∧ attempt < start + remaining ∧ renamedCandidate name attempt ∉ existingNames ∧
      (∀ earlier, start ≤ earlier → earlier < attempt → renamedCandidate name earlier ∈ existingNames) ∧
      tryRenamed name existingNames remaining start = .ok (renamedCandidate name attempt)) ∨
    ((∀ attempt, start ≤ attempt → attempt < start + remaining → renamedCandidate name attempt ∈ existingNames) ∧
      tryRenamed name existingNames remaining start =
        .error "Unable to generate a safe renamed filename.") := by
  induction remaining generalizing start with
  | zero =>
    refine .inr ⟨?_, rfl⟩
    intro attempt hle hlt
    omega
  | succ remaining ih =>
    unfold tryRenamed
    by_cases htaken : renamedCandidate name start ∈ existingNames
    · simp only [if_pos htaken]
      rcases ih (start + 1) with ⟨attempt, hle, hlt, hfree, hearlier, heq⟩ | ⟨hall, heq⟩
      · refine .inl ⟨attempt, by omega, by omega, hfree, ?_, heq⟩
        intro earlier hstart hbefore
        rcases Nat.eq_or_lt_of_le hstart with rfl | hlater
        · exact htaken
        · exact hearlier earlier hlater hbefore
      · refine .inr ⟨?_, heq⟩
        intro attempt hle hlt
        rcases Nat.eq_or_lt_of_le hle with rfl | hlater
        · exact htaken
        · exact hall attempt hlater (by omega)
    · simp only [if_neg htaken]
      refine .inl ⟨start, Nat.le_refl _, by omega, htaken, ?_, rfl⟩
      intro earlier hle hlt
      omega

theorem build_cases (htaken : name ∈ existingNames) :
    (∃ attempt, FirstFree name existingNames attempt ∧
      buildSafeRenamedFileName name existingNames = .ok (renamedCandidate name attempt)) ∨
    ((∀ attempt, 1 ≤ attempt → attempt < 10000 → renamedCandidate name attempt ∈ existingNames) ∧
      buildSafeRenamedFileName name existingNames = .error "Unable to generate a safe renamed filename.") := by
  unfold buildSafeRenamedFileName
  rw [if_pos htaken]
  rcases @tryRenamed_cases name existingNames 9999 1 with
    ⟨attempt, hle, hlt, hfree, hearlier, heq⟩ | ⟨hall, heq⟩
  · exact .inl ⟨attempt, ⟨hle, hlt, hfree, hearlier⟩, heq⟩
  · exact .inr ⟨hall, heq⟩

theorem FirstFree.unique {attempt' : Nat} (h : FirstFree name existingNames attempt)
    (h' : FirstFree name existingNames attempt') : attempt = attempt' := by
  rcases Nat.lt_trichotomy attempt attempt' with hlt | heq | hlt
  · exact absurd (h'.taken attempt h.pos hlt) h.free
  · exact heq
  · exact absurd (h.taken attempt' h'.pos hlt) h'.free

/-- A checked name is safe exactly if it does not end with a dot and, where it is taken, its first character
fits before the first free number. -/
theorem namesSafe_iff (h : normalizeFileName raw = .ok name ∨ normalizeFolderName raw = .ok name) :
    NamesSafe name existingNames ↔ name.toList.getLast? ≠ some '.' ∧
      (name ∈ existingNames → ∀ attempt, FirstFree name existingNames attempt → Fits name attempt) := by
  obtain ⟨kind, hkind⟩ : ∃ kind, validateSegment raw kind = .ok name := by
    rcases h with hfile | hfolder
    · exact ⟨_, hfile⟩
    · exact ⟨_, hfolder⟩
  obtain ⟨htrim, hchecked⟩ := checked_of_validateSegment hkind
  have htrimmed := trimmed_trim raw
  rw [htrim] at htrimmed
  have hslash : '/' ∉ name.toList := fun hmem => hchecked.valid _ hmem (by decide)
  constructor
  · intro hsafe
    refine ⟨(validateSegment_self hkind).1 hsafe.fileName, ?_⟩
    intro htaken attempt hfirst
    by_contra hfits
    rcases build_cases htaken with ⟨found, hfound, heq⟩ | ⟨hall, -⟩
    · obtain rfl := hfirst.unique hfound
      obtain ⟨-, hbytes, hok⟩ := hsafe.renamed _ heq
      exact not_renamed_of_not_fits hchecked.nonempty hslash hfits hbytes hok
    · exact hfirst.free (hall attempt hfirst.pos hfirst.lt)
  · rintro ⟨hdot, hfits⟩
    have hfile : normalizeFileName name = .ok name := (validateSegment_self hkind).2 hdot
    refine ⟨hfile, (validateSegment_self hkind).2 hdot, ?_, ?_, ?_⟩
    · intro result hresult
      by_cases htaken : name ∈ existingNames
      · rcases build_cases htaken with ⟨attempt, hfirst, heq⟩ | ⟨-, heq⟩
        · rw [heq] at hresult
          obtain rfl := Except.ok.inj hresult
          exact ⟨hfirst.free, normalize_renamed hchecked htrimmed hdot hslash (hfits htaken attempt hfirst)⟩
        · rw [heq] at hresult
          cases hresult
      · unfold buildSafeRenamedFileName at hresult
        rw [if_neg htaken] at hresult
        obtain rfl := Except.ok.inj hresult
        exact ⟨htaken, hchecked.bytes, hfile⟩
    · constructor
      · intro hsame htaken
        rcases build_cases htaken with ⟨attempt, hfirst, heq⟩ | ⟨-, heq⟩
        · rw [heq] at hsame
          have hfree := hfirst.free
          rw [Except.ok.inj hsame] at hfree
          exact hfree htaken
        · rw [heq] at hsame
          cases hsame
      · intro hfree
        unfold buildSafeRenamedFileName
        rw [if_neg hfree]
    · intro error herror
      by_cases htaken : name ∈ existingNames
      · rcases build_cases htaken with ⟨attempt, -, heq⟩ | ⟨hall, -⟩
        · rw [heq] at herror
          cases herror
        · exact hall
      · unfold buildSafeRenamedFileName at herror
        rw [if_neg htaken] at herror
        cases herror

/-- A taken name whose first number is taken too. -/
theorem namesSafe_iff_taken : buildSafeRenamedFileName "a.txt" ["a.txt", "a (1).txt"] = .ok "a (2).txt" ∧
    NamesSafe "a.txt" ["a.txt", "a (1).txt"] := by
  refine ⟨by decide, (@namesSafe_iff " a.txt" _ _ (.inl (by decide))).2 ⟨by decide, fun _ attempt hfirst => ?_⟩⟩
  have hsecond : FirstFree "a.txt" ["a.txt", "a (1).txt"] 2 := by
    refine ⟨by decide, by decide, by decide, fun earlier hpos hlt => ?_⟩
    obtain rfl : earlier = 1 := by omega
    decide
  obtain rfl := hfirst.unique hsecond
  unfold Fits
  decide

/-- The tab hides the dot from the check. -/
theorem dotted_name_not_safe : normalizeFileName "a.\t" = .ok "a." ∧ ¬NamesSafe "a." [] := by
  refine ⟨by decide, ?_⟩
  intro hsafe
  have := hsafe.fileName
  revert this
  decide

end Staaash.Layout

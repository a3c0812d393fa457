import Staaash.Layout.Proofs.RenamingProofs
import Staaash.Layout.TrashKeys
import Staaash.Library.Digits
import Staaash.Library.Framing

/-!
# Proofs: trash keys

The time and the number of the id take a bounded part of the component, and the name gets what is left. The
number stands at the end of the key in parentheses, and no two ids have one number.
-/

namespace Staaash.Layout

open Staaash.Library
open Staaash.Planner (ItemType)

variable {call : TrashCall} {name : String} {maxBytes : Nat}

/-! ## Lengths -/

theorem utf8Bytes_eq_length {chars : List Char} (h : ∀ c ∈ chars, c.toNat < 128) :
    utf8Bytes chars = chars.length := by
  induction chars with
  | nil => rfl
  | cons c chars ih =>
    have hsize : c.utf8Size = 1 := by
      rw [Char.utf8Size_eq_one_iff, UInt32.le_iff_toNat_le]
      have := h c List.mem_cons_self
      exact Nat.le_of_lt_succ this
    rw [utf8Bytes_cons, hsize, ih fun d hd => h d (List.mem_cons_of_mem _ hd), List.length_cons, Nat.add_comm]

theorem isDigit_of_mem_padStart {width n : Nat} {c : Char} (h : c ∈ padStart width n) : c.isDigit = true := by
  unfold padStart List.leftpad at h
  rcases List.mem_append.1 h with hzero | hdigit
  · rw [List.eq_of_mem_replicate hzero]
    rfl
  · exact Nat.isDigit_of_mem_toDigits (by decide) (by decide) hdigit

theorem length_padStart {width n : Nat} (hwidth : 0 < width) (h : n < 10 ^ width) : (padStart width n).length = width := by
  have := (Nat.length_toDigits_le_iff (by decide) hwidth).2 h
  unfold padStart List.leftpad
  rw [List.length_append, List.length_replicate]
  omega

/-- What a time is written with. -/
def isTimeCharacter (c : Char) : Bool := c.isDigit || c ∈ "+-.:TZ UC".toList

theorem toNat_lt_of_isTimeCharacter {c : Char} (h : isTimeCharacter c = true) : c.toNat < 128 ∧ c ≠ '/' := by
  unfold isTimeCharacter at h
  rw [Bool.or_eq_true, decide_eq_true_iff] at h
  rcases h with hdigit | hmem
  · simp only [Char.isDigit, Bool.and_eq_true, decide_eq_true_eq] at hdigit
    have hhigh : c.toNat ≤ 57 := hdigit.2
    refine ⟨by omega, ?_⟩
    rintro rfl
    exact absurd hdigit.1 (by decide)
  · have hall : ∀ d ∈ "+-.:TZ UC".toList, d.toNat < 128 ∧ d ≠ '/' :=
      List.all_iff_forall_prop.1 (by decide)
    exact hall c hmem

theorem padStart_timely (width n : Nat) : ∀ c ∈ padStart width n, isTimeCharacter c = true := fun c hc => by
  unfold isTimeCharacter
  rw [isDigit_of_mem_padStart hc, Bool.true_or]

theorem isoYear_timely (year : Int) : ∀ c ∈ isoYear year, isTimeCharacter c = true := by
  unfold isoYear
  split_ifs
  · exact padStart_timely _ _
  · exact List.forall_mem_cons.2 ⟨rfl, padStart_timely _ _⟩
  · exact List.forall_mem_cons.2 ⟨rfl, padStart_timely _ _⟩

theorem toISOString_timely (date : UtcDate) : ∀ c ∈ date.toISOString, isTimeCharacter c = true := by
  have hpart : ∀ d ∈ "-T:.".toList, ∀ width n, ∀ c ∈ d :: padStart width n, isTimeCharacter c = true := by
    intro d hd width n
    have hmark : ∀ d ∈ "-T:.".toList, isTimeCharacter d = true :=
      List.all_iff_forall_prop.1 (by decide)
    exact List.forall_mem_cons.2 ⟨hmark d hd, padStart_timely width n⟩
  unfold UtcDate.toISOString
  refine List.forall_mem_append.2 ⟨List.forall_mem_append.2 ⟨List.forall_mem_append.2 ⟨List.forall_mem_append.2
    ⟨List.forall_mem_append.2 ⟨List.forall_mem_append.2 ⟨List.forall_mem_append.2 ⟨isoYear_timely _, ?_⟩, ?_⟩,
    ?_⟩, ?_⟩, ?_⟩, ?_⟩, List.forall_mem_singleton.2 rfl⟩
  · exact hpart '-' (by decide) _ _
  · exact hpart '-' (by decide) _ _
  · exact hpart 'T' (by decide) _ _
  · exact hpart ':' (by decide) _ _
  · exact hpart ':' (by decide) _ _
  · exact hpart '.' (by decide) _ _

theorem mem_replaceFirst {pattern c : Char} {replacement chars : List Char}
    (h : c ∈ replaceFirst pattern replacement chars) : c ∈ chars ∨ c ∈ replacement := by
  induction chars with
  | nil => cases h
  | cons d chars ih =>
    unfold replaceFirst at h
    split at h
    · rcases List.mem_append.1 h with h | h
      · exact .inr h
      · exact .inl (List.mem_cons_of_mem _ h)
    · rcases List.mem_cons.1 h with rfl | h
      · exact .inl List.mem_cons_self
      · exact (ih h).imp_left (List.mem_cons_of_mem _)

theorem length_replaceFirst_le (pattern : Char) (replacement chars : List Char) :
    (replaceFirst pattern replacement chars).length ≤ chars.length + replacement.length := by
  induction chars with
  | nil => simp [replaceFirst]
  | cons d chars ih =>
    unfold replaceFirst
    split
    · simp only [List.length_append, List.length_cons]
      omega
    · simp only [List.length_cons]
      omega

theorem trashTimestamp_timely (date : UtcDate) : ∀ c ∈ (trashTimestamp date).toList, isTimeCharacter c = true := by
  intro c hc
  unfold trashTimestamp at hc
  rw [String.toList_ofList] at hc
  have hutc : ∀ d ∈ " UTC".toList, isTimeCharacter d = true :=
    List.all_iff_forall_prop.1 (by decide)
  have hblank : ∀ d ∈ " ".toList, isTimeCharacter d = true :=
    List.all_iff_forall_prop.1 (by decide)
  rcases mem_replaceFirst hc with hc | hc
  · unfold replaceAll at hc
    obtain ⟨d, hd, rfl⟩ := List.mem_map.1 hc
    split
    · rfl
    · rcases mem_replaceFirst hd with hd | hd
      · exact toISOString_timely date d hd
      · exact hblank d hd
  · exact hutc c hc

theorem length_toISOString {date : UtcDate} (h : date.FourDigitYear) : date.toISOString.length = 24 := by
  obtain ⟨hlow, hhigh⟩ := h
  have hmonth := date.month_le
  have hday := date.day_le
  have hhours := date.hours_lt
  have hminutes := date.minutes_lt
  have hseconds := date.seconds_lt
  have hyear : (isoYear date.year).length = 4 := by
    unfold isoYear
    rw [if_pos ⟨hlow, hhigh⟩]
    exact length_padStart (by omega) (by omega)
  unfold UtcDate.toISOString
  simp only [List.length_append, List.length_cons, List.length_nil, hyear,
    length_padStart (n := date.month) (Nat.succ_pos 1) (by omega),
    length_padStart (n := date.day) (Nat.succ_pos 1) (by omega),
    length_padStart (n := date.hours) (Nat.succ_pos 1) (by omega),
    length_padStart (n := date.minutes) (Nat.succ_pos 1) (by omega),
    length_padStart (n := date.seconds) (Nat.succ_pos 1) (by omega),
    length_padStart (n := date.milliseconds) (Nat.succ_pos 2) date.milliseconds_lt]

theorem trashTimestamp_bytes {date : UtcDate} (h : date.FourDigitYear) :
    (trashTimestamp date).utf8ByteSize ≤ 29 := by
  rw [utf8ByteSize_eq, utf8Bytes_eq_length fun c hc =>
    (toNat_lt_of_isTimeCharacter (trashTimestamp_timely date c hc)).1]
  unfold trashTimestamp
  rw [String.toList_ofList]
  have hutc := length_replaceFirst_le 'Z' " UTC".toList
    (replaceAll ':' '-' (replaceFirst 'T' " ".toList date.toISOString))
  have hblank := length_replaceFirst_le 'T' " ".toList date.toISOString
  have hiso := length_toISOString h
  have hall : (replaceAll ':' '-' (replaceFirst 'T' " ".toList date.toISOString)).length =
      (replaceFirst 'T' " ".toList date.toISOString).length := List.length_map _
  have hlengths : " UTC".toList.length = 4 ∧ " ".toList.length = 1 := by decide
  omega

/-! ## Ids -/

theorem hexDigitValue_lt {c : Char} (h : isHexDigit c = true) : hexDigitValue c < 16 := by
  unfold isHexDigit at h
  unfold hexDigitValue
  rw [Bool.or_eq_true, Bool.and_eq_true, decide_eq_true_iff, decide_eq_true_iff] at h
  split
  · rename_i hdigit
    simp only [Char.isDigit, Bool.and_eq_true, decide_eq_true_eq] at hdigit
    have hhigh : c.toNat ≤ 57 := hdigit.2
    omega
  · rename_i hdigit
    have hhigh : c.toNat ≤ 102 := (h.resolve_left hdigit).2
    omega

theorem hexDigitValue_inj {c d : Char} (hc : isHexDigit c = true) (hd : isHexDigit d = true)
    (h : hexDigitValue c = hexDigitValue d) : c = d := by
  have hrange : ∀ {e : Char}, isHexDigit e = true → (e.isDigit = true ∧ 48 ≤ e.toNat ∧ e.toNat ≤ 57) ∨
      (¬ e.isDigit = true ∧ 97 ≤ e.toNat) := fun {e} he => by
    unfold isHexDigit at he
    rw [Bool.or_eq_true, Bool.and_eq_true, decide_eq_true_iff, decide_eq_true_iff] at he
    by_cases hdigit : e.isDigit = true
    · have hbounds := hdigit
      simp only [Char.isDigit, Bool.and_eq_true, decide_eq_true_eq] at hbounds
      exact .inl ⟨hdigit, hbounds.1, hbounds.2⟩
    · exact .inr ⟨hdigit, (he.resolve_left hdigit).1⟩
  refine Char.toNat_inj.1 ?_
  unfold hexDigitValue at h
  rcases hrange hc with ⟨hc, hlow, hhigh⟩ | ⟨hc, hlow⟩
  · rcases hrange hd with ⟨hd, hlow', hhigh'⟩ | ⟨hd, hlow'⟩
    · rw [if_pos hc, if_pos hd] at h
      omega
    · rw [if_pos hc, if_neg hd] at h
      omega
  · rcases hrange hd with ⟨hd, hlow', hhigh'⟩ | ⟨hd, hlow'⟩
    · rw [if_neg hc, if_pos hd] at h
      omega
    · rw [if_neg hc, if_neg hd] at h
      omega

/-- The digits of an id without the dashes. -/
def Uuid.hex (id : Uuid) : List Char := id.text.toList.filter (· ≠ '-')

theorem Uuid.hex_eq (id : Uuid) : id.hex = (id.text.toList.splitOn '-').flatten := by
  rw [flatten_splitOn]
  unfold Uuid.hex
  refine List.filter_congr fun c _ => ?_
  by_cases hc : c = '-' <;> simp [hc]

theorem Uuid.length_hex (id : Uuid) : id.hex.length = 32 := by
  rw [id.hex_eq, List.length_flatten, id.groups]
  rfl

theorem Uuid.isHexDigit_of_mem (id : Uuid) {c : Char} (h : c ∈ id.hex) : isHexDigit c = true := by
  obtain ⟨hmem, hdash⟩ := List.mem_filter.1 h
  exact (id.digits c hmem).resolve_left (of_decide_eq_true hdash)

theorem Uuid.toBigInt_lt (id : Uuid) : id.toBigInt < 10 ^ 39 := by
  have hlt : readDigits 16 hexDigitValue 0 id.hex < 16 ^ id.hex.length * (0 + 1) :=
    readDigits_lt fun c hc => hexDigitValue_lt (id.isHexDigit_of_mem hc)
  rw [id.length_hex] at hlt
  exact hlt.trans (by decide)

/-- No two ids have one number. -/
theorem Uuid.toBigInt_injective : Function.Injective Uuid.toBigInt := by
  intro a b h
  obtain ⟨-, hhex⟩ := readDigits_inj (fun c hc => hexDigitValue_lt (a.isHexDigit_of_mem hc))
    (fun c hc => hexDigitValue_lt (b.isHexDigit_of_mem hc))
    (fun c hc d hd => hexDigitValue_inj (a.isHexDigit_of_mem hc) (b.isHexDigit_of_mem hd))
    (a.length_hex.trans b.length_hex.symm) h
  rw [a.hex_eq, b.hex_eq] at hhex
  have hgroups := eq_of_flatten_eq (a.groups.trans b.groups.symm) hhex
  have htext : a.text = b.text := by
    have hjoin := congrArg (['-'].intercalate ·) hgroups
    simp only [List.intercalate_splitOn] at hjoin
    exact String.toList_inj.1 hjoin
  cases a
  cases b
  cases htext
  rfl

/-! ## Components -/

theorem toList_collisionSuffix (call : TrashCall) : call.collisionSuffix.toList =
    ' ' :: '(' :: (Nat.toDigits 10 call.trashEntryId.toBigInt ++ [')']) := by
  unfold TrashCall.collisionSuffix
  simp [Nat.toString_eq_repr, Nat.toList_repr]

theorem collisionSuffix_bytes (call : TrashCall) : call.collisionSuffix.utf8ByteSize ≤ 42 := by
  have hdigits : ∀ c ∈ Nat.toDigits 10 call.trashEntryId.toBigInt, c.isDigit = true := fun c hc =>
    Nat.isDigit_of_mem_toDigits (by decide) (by decide) hc
  have hlength := (Nat.length_toDigits_le_iff (by decide) (by decide)).2 call.trashEntryId.toBigInt_lt
  have hbytes := utf8Bytes_eq_length fun c hc => (toNat_lt_of_isTimeCharacter (c := c) (by
    unfold isTimeCharacter
    rw [hdigits c hc, Bool.true_or])).1
  have hends : utf8Bytes [')'] = 1 ∧ Char.utf8Size ' ' = 1 ∧ Char.utf8Size '(' = 1 := by decide
  rw [utf8ByteSize_eq, toList_collisionSuffix, utf8Bytes_cons, utf8Bytes_cons, utf8Bytes_append, hbytes]
  omega

theorem truncate_bytes (name : String) (maxBytes : Nat) (preserveExtension : Bool) :
    (truncateStorageComponentName name maxBytes preserveExtension).utf8ByteSize ≤ maxBytes := by
  have htake : ∀ (value : String) (limit : Nat), (takeUtf8Bytes value limit).utf8ByteSize ≤ limit := by
    intro value limit
    unfold takeUtf8Bytes
    rw [utf8ByteSize_ofList]
    have := takeBytes_le (Nat.zero_le limit) value.toList
    omega
  unfold truncateStorageComponentName
  split
  · assumption
  · simp only
    generalize (if preserveExtension = true then extname name else "") = extension
    split
    · rename_i hextension
      have := htake (sliceOff name extension) (maxBytes - extension.utf8ByteSize)
      rw [String.utf8ByteSize_append]
      omega
    · exact htake _ _

/-- Whatever is kept of a name is in the name. -/
theorem mem_truncate {preserveExtension : Bool} {c : Char}
    (h : c ∈ (truncateStorageComponentName name maxBytes preserveExtension).toList) : c ∈ name.toList := by
  have htake : ∀ {value : String} {limit : Nat}, c ∈ (takeUtf8Bytes value limit).toList → c ∈ value.toList := by
    intro value limit hc
    unfold takeUtf8Bytes at hc
    rw [String.toList_ofList] at hc
    exact (takeBytes_isPrefix _ _ _).subset hc
  have hextension : ∀ d ∈ (if preserveExtension = true then extname name else "").toList, d ∈ name.toList := by
    intro d hd
    split at hd
    · unfold extname at hd
      rw [String.toList_ofList] at hd
      exact PosixPath.mem_of_mem_extname hd
    · cases hd
  unfold truncateStorageComponentName at h
  split at h
  · exact h
  · simp only at h
    generalize (if preserveExtension = true then extname name else "") = extension at h hextension
    split at h
    · rw [String.toList_append, List.mem_append] at h
      rcases h with h | h
      · have hslice := htake h
        unfold sliceOff at hslice
        rw [String.toList_ofList] at hslice
        exact List.mem_of_mem_take hslice
      · exact hextension c h
    · exact htake h

/-! ## Keys -/

theorem toList_component (call : TrashCall) :
    call.component.toList = call.front.toList ++ call.safeName.toList ++ call.collisionSuffix.toList := by
  unfold TrashCall.component
  simp only [String.toList_append]

theorem component_bytes (call : TrashCall) (h : call.deletedAt.FourDigitYear) :
    call.component.utf8ByteSize ≤ maxFilesystemComponentBytes := by
  have hfront : call.front.utf8ByteSize ≤ 32 := by
    have htime := trashTimestamp_bytes h
    have hdash : (" - " : String).utf8ByteSize = 3 := by decide
    unfold TrashCall.front
    rw [String.utf8ByteSize_append]
    omega
  have hsuffix := collisionSuffix_bytes call
  have hname := truncate_bytes call.name
    (maxFilesystemComponentBytes - call.front.utf8ByteSize - call.collisionSuffix.utf8ByteSize)
    (call.kind = .file)
  have hmax : maxFilesystemComponentBytes = 255 := rfl
  unfold TrashCall.component TrashCall.safeName
  rw [String.utf8ByteSize_append, String.utf8ByteSize_append]
  omega

theorem slash_not_mem_suffix (call : TrashCall) : '/' ∉ call.collisionSuffix.toList := by
  rw [toList_collisionSuffix]
  have hdigits := not_mem_toDigits (c := '/') (by decide) call.trashEntryId.toBigInt
  simp [hdigits]

theorem component_plain (call : TrashCall) (h : '/' ∉ call.name.toList) :
    PosixPath.Plain call.component.toList := by
  have hblank : ' ' ∈ call.component.toList := by
    rw [toList_component, toList_collisionSuffix]
    simp
  refine ⟨List.ne_nil_of_mem hblank, fun hdot => ?_, fun hdots => ?_, fun hslash => ?_⟩
  · rw [hdot] at hblank
    revert hblank
    decide
  · rw [hdots] at hblank
    revert hblank
    decide
  · rw [toList_component, List.mem_append, List.mem_append] at hslash
    rcases hslash with (hfront | hname) | hsuffix
    · unfold TrashCall.front at hfront
      rw [String.toList_append, List.mem_append] at hfront
      rcases hfront with htime | hdash
      · exact (toNat_lt_of_isTimeCharacter (trashTimestamp_timely _ _ htime)).2 rfl
      · revert hdash
        decide
    · exact h (mem_truncate hname)
    · exact slash_not_mem_suffix call hsuffix

theorem segments_key (call : TrashCall) (howner : PosixPath.Plain call.ownerStorageId.toList)
    (hname : '/' ∉ call.name.toList) : PosixPath.segments call.buildIsolatedTrashStorageKey.toList =
      [".trash".toList, call.ownerStorageId.toList, (trashFolder call.kind).toList, call.component.toList] := by
  have htrash : PosixPath.Plain ".trash".toList := by decide
  have hfolder : PosixPath.Plain (trashFolder call.kind).toList := by
    cases call.kind <;> decide
  have hall : ∀ seg ∈ [".trash".toList, call.ownerStorageId.toList, (trashFolder call.kind).toList,
      call.component.toList], PosixPath.Plain seg := by
    simp only [List.forall_mem_cons, List.not_mem_nil, false_implies, implies_true, and_true]
    exact ⟨htrash, howner, hfolder, component_plain call hname⟩
  unfold TrashCall.buildIsolatedTrashStorageKey posixJoin
  rw [String.toList_ofList, List.map_cons, List.map_cons, List.map_cons, List.map_singleton]
  exact PosixPath.segments_join_plain (List.cons_ne_nil _ _) hall

/-- A key ends with the number of the id, whatever is in front. -/
theorem suffix_key (call : TrashCall) :
    call.collisionSuffix.toList <:+ call.buildIsolatedTrashStorageKey.toList := by
  have hmark : '(' ∈ call.collisionSuffix.toList := by
    rw [toList_collisionSuffix]
    simp
  unfold TrashCall.buildIsolatedTrashStorageKey posixJoin
  rw [String.toList_ofList, List.map_cons, List.map_cons, List.map_cons, List.map_singleton, toList_component]
  show call.collisionSuffix.toList <:+ PosixPath.join ([".trash".toList, call.ownerStorageId.toList,
    (trashFolder call.kind).toList] ++ [_ ++ call.collisionSuffix.toList])
  exact PosixPath.suffix_join (slash_not_mem_suffix call) hmark (by decide)

theorem trashEntryId_of_key {call call' : TrashCall}
    (h : call.buildIsolatedTrashStorageKey = call'.buildIsolatedTrashStorageKey) :
    call.trashEntryId = call'.trashEntryId := by
  obtain ⟨front, hkey⟩ := suffix_key call
  obtain ⟨front', hkey'⟩ := suffix_key call'
  rw [← h, ← hkey, toList_collisionSuffix, toList_collisionSuffix] at hkey'
  have hparen : ∀ n, '(' ∉ Nat.toDigits 10 n ++ [')'] := fun n => by
    have := not_mem_toDigits (c := '(') (by decide) n
    simp [this]
  have hcut : front' ++ [' '] ++ '(' :: (Nat.toDigits 10 call'.trashEntryId.toBigInt ++ [')']) =
      front ++ [' '] ++ '(' :: (Nat.toDigits 10 call.trashEntryId.toBigInt ++ [')']) := by
    simpa using hkey'
  obtain ⟨-, hdigits⟩ := Framing.append_sep_inj_right (hparen _) (hparen _) hcut
  exact Uuid.toBigInt_injective (toDigits_injective (List.append_cancel_right hdigits)).symm

/-- Trash keys fit and never collide. -/
theorem trashKeysSafe : TrashKeysSafe where
  fits call howner hyear hname := by
    obtain ⟨raw, hname⟩ := hname
    have hchecked := (checked_of_validateSegment hname).2
    have hslash : '/' ∉ call.name.toList := fun hmem => hchecked.valid _ hmem (by decide)
    exact ⟨segments_key call howner hslash, component_plain call hslash, component_bytes call hyear⟩
  injective _ _ := trashEntryId_of_key

def reportTrashed : TrashCall :=
  ⟨"owner", .file, "report.txt", ⟨2026, 1, 2, 3, 4, 5, 6, by decide, by decide, by decide, by decide, by decide,
    by decide, by decide⟩, ⟨"00000000-0000-4000-8000-000000000001", by decide,
    List.all_iff_forall_prop.1 (by decide)⟩⟩

theorem trashKeysSafe_report : reportTrashed.Fits :=
  trashKeysSafe.fits reportTrashed (by decide) ⟨by decide, by decide⟩ ⟨" report.txt", by decide⟩

end Staaash.Layout

import Mathlib.Order.Interval.Set.Defs
import Mathlib.Order.Monotone.Basic
import Staaash.Release.Versions

/-!
# Proofs: versions are ordered by their precedence

Every comparison in `version.ts` is the sign of a strict order: of numbers, of identifiers, of lists of
identifiers, and in the end of versions. The numbers only have to be kept apart and in their order.
-/

namespace Staaash.Release

open Staaash.Library
open Staaash.Library.SemVer (Identifier PrereleasePrecedes SameCore Version)

/-! ## Signs -/

/-- The comparison is the sign of the order at `a` and `b`. -/
def Sign {α : Type} (comparison : Int) (r : α → α → Prop) (a b : α) : Prop :=
  comparison = -1 ∧ r a b ∨ comparison = 0 ∧ a = b ∨ comparison = 1 ∧ r b a

namespace Sign

variable {α : Type} {r : α → α → Prop} {comparison : Int} {a b : α}

theorem neg_iff (h : Sign comparison r a b) (hirrefl : ∀ a, ¬ r a a) (htrans : ∀ a b, r a b → ¬ r b a) :
    comparison < 0 ↔ r a b := by
  rcases h with ⟨rfl, hab⟩ | ⟨rfl, rfl⟩ | ⟨rfl, hba⟩
  · exact ⟨fun _ => hab, fun _ => by omega⟩
  · exact ⟨fun h => by omega, fun h => absurd h (hirrefl a)⟩
  · exact ⟨fun h => by omega, fun h => absurd hba (htrans a b h)⟩

theorem eq_zero_iff (h : Sign comparison r a b) (hirrefl : ∀ a, ¬ r a a) : comparison = 0 ↔ a = b := by
  rcases h with ⟨rfl, hab⟩ | ⟨rfl, rfl⟩ | ⟨rfl, hba⟩
  · exact ⟨fun h => by omega, fun h => absurd hab (h ▸ hirrefl a)⟩
  · exact ⟨fun _ => rfl, fun _ => rfl⟩
  · exact ⟨fun h => by omega, fun h => absurd hba (h ▸ hirrefl a)⟩

theorem swap (h : Sign comparison r a b) : Sign (-comparison) r b a := by
  rcases h with ⟨rfl, hab⟩ | ⟨rfl, rfl⟩ | ⟨rfl, hba⟩
  · exact .inr (.inr ⟨by omega, hab⟩)
  · exact .inr (.inl ⟨by omega, rfl⟩)
  · exact .inl ⟨by omega, hba⟩

end Sign

/-! ## Comparing numbers and identifiers -/

variable {Number : Type} [LinearOrder Number] {ofInteger : Nat → Number} {m n : Nat}

def PrereleasePart.numbers (ofInteger : Nat → Number) : PrereleasePart Nat → PrereleasePart Number
  | .number n => .number (ofInteger n)
  | .string s => .string s

def PrereleasePart.Exact (part : PrereleasePart Nat) : Prop := ∀ n, part = .number n → n < 2 ^ 53

def ParsedSemanticVersion.numbers (ofInteger : Nat → Number) (parsed : ParsedSemanticVersion Nat) :
    ParsedSemanticVersion Number where
  major := ofInteger parsed.major
  minor := ofInteger parsed.minor
  patch := ofInteger parsed.patch
  prerelease := parsed.prerelease.map (·.numbers ofInteger)
  normalized := parsed.normalized

theorem prerelease_exact {a : ParsedSemanticVersion Nat} (ha : a.Exact) : ∀ p ∈ a.prerelease, p.Exact :=
  fun _ hp n hn => ha.prerelease n (hn ▸ hp)

section Loop

variable {left right : List (PrereleasePart Number)} {index rounds : Nat}

theorem comparePartsFrom_succ_of_ne (h : compareOptionalPrereleaseParts left[index]? right[index]? ≠ 0) :
    comparePartsFrom left right (rounds + 1) index =
      compareOptionalPrereleaseParts left[index]? right[index]? :=
  if_pos h

theorem comparePartsFrom_succ_of_eq (h : compareOptionalPrereleaseParts left[index]? right[index]? = 0) :
    comparePartsFrom left right (rounds + 1) index = comparePartsFrom left right rounds (index + 1) :=
  if_neg (not_not.2 h)

/-- The loop says nothing where nothing is left of the two lists. -/
theorem comparePartsFrom_of_length_le (hleft : left.length ≤ index) (hright : right.length ≤ index) :
    comparePartsFrom left right rounds index = 0 := by
  induction rounds generalizing index with
  | zero => rfl
  | succ rounds ih =>
    have hround : compareOptionalPrereleaseParts left[index]? right[index]? = 0 := by
      rw [List.getElem?_eq_none hleft, List.getElem?_eq_none hright]
      rfl
    rw [comparePartsFrom_succ_of_eq hround]
    exact ih (by omega) (by omega)

end Loop

section Exact

variable (hexact : StrictMonoOn ofInteger (Set.Iio (2 ^ 53)))

include hexact

theorem sign_compareNumbers (hm : m < 2 ^ 53) (hn : n < 2 ^ 53) :
    Sign (compareNumbers (ofInteger m) (ofInteger n)) (· < ·) m n := by
  unfold compareNumbers
  have hlt : ofInteger m < ofInteger n ↔ m < n := hexact.lt_iff_lt hm hn
  have heq : ofInteger m = ofInteger n ↔ m = n := ⟨fun h => hexact.injOn hm hn h, fun h => h ▸ rfl⟩
  simp only [hlt, heq]
  split_ifs with h h'
  · exact .inr (.inl ⟨rfl, h⟩)
  · exact .inl ⟨rfl, h'⟩
  · exact .inr (.inr ⟨rfl, by omega⟩)

variable {p q : PrereleasePart Nat} {ps qs : List (PrereleasePart Nat)}

theorem sign_comparePrereleaseParts (hp : p.Exact) (hq : q.Exact) :
    Sign (comparePrereleaseParts (p.numbers ofInteger) (q.numbers ofInteger)) Identifier.Precedes p.identifier
      q.identifier := by
  unfold comparePrereleaseParts
  cases p with
  | number m =>
    cases q with
    | number n =>
      simp only [PrereleasePart.numbers, PrereleasePart.identifier, PrereleasePart.number.injEq]
      rcases sign_compareNumbers hexact (hp m rfl) (hq n rfl) with ⟨hc, hlt⟩ | ⟨hc, rfl⟩ | ⟨hc, hlt⟩
      · refine .inl ⟨?_, .numeric hlt⟩
        rw [if_neg fun h => hlt.ne (hexact.injOn (hp m rfl) (hq n rfl) h), hc]
      · exact .inr (.inl ⟨if_pos rfl, rfl⟩)
      · refine .inr (.inr ⟨?_, .numeric hlt⟩)
        rw [if_neg fun h => hlt.ne' (hexact.injOn (hp m rfl) (hq n rfl) h), hc]
    | string t => exact .inl ⟨rfl, .mixed⟩
  | string s =>
    cases q with
    | number n => exact .inr (.inr ⟨rfl, .mixed⟩)
    | string t =>
      simp only [PrereleasePart.numbers, PrereleasePart.identifier, PrereleasePart.string.injEq]
      split_ifs with h h'
      · exact .inr (.inl ⟨rfl, by rw [h]⟩)
      · exact .inl ⟨rfl, .alphanumeric h'⟩
      · refine .inr (.inr ⟨rfl, .alphanumeric ?_⟩)
        by_contra hlt
        exact h (Std.Trichotomous.trichotomous (r := fun s t : JsString => s < t) s t h' hlt)

/-! ## Comparing lists -/

/-- The loop compares what is left of the two lists. -/
theorem sign_comparePartsFrom (hps : ∀ p ∈ ps, p.Exact) (hqs : ∀ q ∈ qs, q.Exact) (rounds index : Nat)
    (hp : ps.length ≤ rounds + index) (hq : qs.length ≤ rounds + index) :
    Sign (comparePartsFrom (ps.map (·.numbers ofInteger)) (qs.map (·.numbers ofInteger)) rounds index)
      (List.Lex Identifier.Precedes) ((ps.drop index).map (·.identifier))
      ((qs.drop index).map (·.identifier)) := by
  induction rounds generalizing index with
  | zero =>
    rw [List.drop_of_length_le (by omega), List.drop_of_length_le (by omega)]
    exact .inr (.inl ⟨rfl, rfl⟩)
  | succ rounds ih =>
    have hround : compareOptionalPrereleaseParts (ps.map (·.numbers ofInteger))[index]?
        (qs.map (·.numbers ofInteger))[index]? =
        compareOptionalPrereleaseParts (ps[index]?.map (·.numbers ofInteger))
          (qs[index]?.map (·.numbers ofInteger)) := by
      rw [List.getElem?_map, List.getElem?_map]
    by_cases hpi : index < ps.length
    · rw [List.getElem?_eq_getElem hpi] at hround
      rw [List.drop_eq_getElem_cons hpi, List.map_cons]
      by_cases hqi : index < qs.length
      · rw [List.getElem?_eq_getElem hqi] at hround
        rw [List.drop_eq_getElem_cons hqi, List.map_cons]
        rcases sign_comparePrereleaseParts hexact (hps _ (List.getElem_mem hpi))
          (hqs _ (List.getElem_mem hqi)) with ⟨hc, hlt⟩ | ⟨hc, heq⟩ | ⟨hc, hlt⟩
        · have hdecided := hround.trans hc
          exact .inl ⟨(comparePartsFrom_succ_of_ne (by omega)).trans hdecided, .rel hlt⟩
        · rw [comparePartsFrom_succ_of_eq (hround.trans hc), heq]
          rcases ih (index + 1) (by omega) (by omega) with ⟨hc, h⟩ | ⟨hc, h⟩ | ⟨hc, h⟩
          · exact .inl ⟨hc, .cons h⟩
          · exact .inr (.inl ⟨hc, by rw [h]⟩)
          · exact .inr (.inr ⟨hc, .cons h⟩)
        · have hdecided := hround.trans hc
          exact .inr (.inr ⟨(comparePartsFrom_succ_of_ne (by omega)).trans hdecided, .rel hlt⟩)
      · have hqnil : qs.drop index = [] := List.drop_of_length_le (by omega)
        rw [List.getElem?_eq_none (Nat.le_of_not_lt hqi)] at hround
        have hdecided : _ = (1 : Int) := hround.trans rfl
        rw [hqnil]
        exact .inr (.inr ⟨(comparePartsFrom_succ_of_ne (by omega)).trans hdecided, .nil⟩)
    · have hpnil : ps.drop index = [] := List.drop_of_length_le (by omega)
      rw [hpnil]
      by_cases hqi : index < qs.length
      · rw [List.getElem?_eq_none (Nat.le_of_not_lt hpi), List.getElem?_eq_getElem hqi] at hround
        have hdecided : _ = (-1 : Int) := hround.trans rfl
        rw [List.drop_eq_getElem_cons hqi, List.map_cons]
        exact .inl ⟨(comparePartsFrom_succ_of_ne (by omega)).trans hdecided, .nil⟩
      · have hqnil : qs.drop index = [] := List.drop_of_length_le (by omega)
        rw [hqnil]
        refine .inr (.inl ⟨?_, rfl⟩)
        exact comparePartsFrom_of_length_le (by rw [List.length_map]; omega) (by rw [List.length_map]; omega)

/-! ## Comparing versions -/

variable {a b : ParsedSemanticVersion Nat} (ha : a.Exact) (hb : b.Exact)

include ha hb

theorem sign_comparePrereleaseVersions :
    Sign (comparePrereleaseVersions (a.numbers ofInteger) (b.numbers ofInteger)) PrereleasePrecedes
      a.version.prerelease b.version.prerelease := by
  have hparts := sign_comparePartsFrom hexact (prerelease_exact ha) (prerelease_exact hb)
    (max a.prerelease.length b.prerelease.length) 0 (by omega) (by omega)
  unfold comparePrereleaseVersions ParsedSemanticVersion.version ParsedSemanticVersion.numbers
  simp only [List.length_map, List.drop_zero, List.length_eq_zero_iff] at hparts ⊢
  split_ifs with hanil hbnil hbnil
  · exact .inr (.inl ⟨rfl, by rw [hanil, hbnil]⟩)
  · exact .inr (.inr ⟨rfl, hanil ▸ .release (by simpa using hbnil)⟩)
  · exact .inl ⟨rfl, hbnil ▸ .release (by simpa using hanil)⟩
  · rcases hparts with ⟨hc, h⟩ | ⟨hc, h⟩ | ⟨hc, h⟩
    · exact .inl ⟨hc, .identifiers (by simpa using hanil) h⟩
    · exact .inr (.inl ⟨hc, h⟩)
    · exact .inr (.inr ⟨hc, .identifiers (by simpa using hbnil) h⟩)

theorem sign_compareParsedVersions :
    Sign (compareParsedVersions (a.numbers ofInteger) (b.numbers ofInteger)) Version.Precedes a.version
      b.version := by
  have hmajors : Sign (compareNumbers (a.numbers ofInteger).major (b.numbers ofInteger).major) (· < ·) a.major
      b.major := sign_compareNumbers hexact ha.major hb.major
  have hminors : Sign (compareNumbers (a.numbers ofInteger).minor (b.numbers ofInteger).minor) (· < ·) a.minor
      b.minor := sign_compareNumbers hexact ha.minor hb.minor
  have hpatches : Sign (compareNumbers (a.numbers ofInteger).patch (b.numbers ofInteger).patch) (· < ·) a.patch
      b.patch := sign_compareNumbers hexact ha.patch hb.patch
  unfold compareParsedVersions
  rcases hmajors with ⟨hc, h⟩ | ⟨hc, hmajor⟩ | ⟨hc, h⟩
  · exact .inl ⟨(if_pos (by omega)).trans hc, .major h⟩
  · rw [if_neg (not_not.2 hc)]
    rcases hminors with ⟨hc, h⟩ | ⟨hc, hminor⟩ | ⟨hc, h⟩
    · exact .inl ⟨(if_pos (by omega)).trans hc, .minor hmajor h⟩
    · rw [if_neg (not_not.2 hc)]
      rcases hpatches with ⟨hc, h⟩ | ⟨hc, hpatch⟩ | ⟨hc, h⟩
      · exact .inl ⟨(if_pos (by omega)).trans hc, .patch hmajor hminor h⟩
      · rw [if_neg (not_not.2 hc)]
        rcases sign_comparePrereleaseVersions hexact ha hb with ⟨hc, h⟩ | ⟨hc, h⟩ | ⟨hc, h⟩
        · exact .inl ⟨hc, .prerelease ⟨hmajor, hminor, hpatch⟩ h⟩
        · refine .inr (.inl ⟨hc, ?_⟩)
          simpa [ParsedSemanticVersion.version, hmajor, hminor, hpatch] using h
        · exact .inr (.inr ⟨hc, .prerelease ⟨hmajor.symm, hminor.symm, hpatch.symm⟩ h⟩)
      · exact .inr (.inr ⟨(if_pos (by omega)).trans hc, .patch hmajor.symm hminor.symm h⟩)
    · exact .inr (.inr ⟨(if_pos (by omega)).trans hc, .minor hmajor.symm h⟩)
  · exact .inr (.inr ⟨(if_pos (by omega)).trans hc, .major h⟩)

end Exact

/-! ## Reading -/

omit [LinearOrder Number] in
/-- Reading a version is reading it with exact integers and taking the numbers that they are. -/
theorem parseSemanticVersion_eq_map (value : Option JsString) :
    parseSemanticVersion ofInteger value =
      (parseSemanticVersion id value).map (ParsedSemanticVersion.numbers ofInteger) := by
  have hpart : ∀ part, parsePrereleasePart ofInteger part =
      (parsePrereleasePart id part).numbers ofInteger := fun part => by
    unfold parsePrereleasePart
    split_ifs <;> rfl
  unfold parseSemanticVersion
  simp only
  split_ifs with htrimmed
  · rfl
  · cases execSemverPattern (trimmedVersion value) with
    | none => rfl
    | some found =>
      simp only
      split_ifs with hzeros
      · rfl
      · simp [ParsedSemanticVersion.numbers, parseInt, hpart, Function.comp_def]

omit [LinearOrder Number] in
theorem AcceptedVersion.parse_eq (v : AcceptedVersion) : parseSemanticVersion ofInteger (some v.text) =
    some (v.parsed.numbers ofInteger) := by
  rw [parseSemanticVersion_eq_map, v.accepted]
  rfl

/-- What comes before the build metadata, put together again. -/
def SemverMatch.render (found : SemverMatch) : JsString :=
  [unit '.'].intercalate [found.major, found.minor, found.patch] ++
    match found.prerelease with
    | none => []
    | some prerelease => unit '-' :: prerelease

theorem takeWhile_eq_render {text : JsString} {found : SemverMatch} (h : execSemverPattern text = some found) :
    text.takeWhile (· ≠ unit '+') = found.render ∧
      isNumeric found.major = true ∧ isNumeric found.minor = true ∧ isNumeric found.patch = true := by
  unfold execSemverPattern at h
  simp only at h
  generalize text.takeWhile (· ≠ unit '+') = version at h ⊢
  have hsplit : version.takeWhile (· ≠ unit '-') ++ version.dropWhile (· ≠ unit '-') = version :=
    List.takeWhile_append_dropWhile
  have hjoin : [unit '.'].intercalate ((version.takeWhile (· ≠ unit '-')).splitOn (unit '.')) =
      version.takeWhile (· ≠ unit '-') := List.intercalate_splitOn _
  split at h
  · split at h
    · rename_i major minor patch hcore
      rw [hcore] at hjoin
      split at h
      · rename_i hnumeric
        obtain rfl := Option.some.inj h
        simp only [Bool.and_eq_true] at hnumeric
        refine ⟨?_, hnumeric.1.1, hnumeric.1.2, hnumeric.2⟩
        unfold SemverMatch.render
        rw [hjoin]
        rcases hdash : version.dropWhile (· ≠ unit '-') with _ | ⟨c, prerelease⟩
        · rw [hdash] at hsplit
          exact hsplit.symm
        · have hc : c = unit '-' := by
            have hhead := List.head?_dropWhile_not (fun c => Decidable.decide (c ≠ unit '-')) version
            rw [hdash] at hhead
            simpa using hhead
          rw [hdash, hc] at hsplit
          exact hsplit.symm
      · cases h
    · cases h
  · cases h

theorem canonical_of_isNumeric {part : JsString} (h : isNumeric part = true) :
    part = [unit '0'] ∨ part ≠ [] ∧ Canonical part := by
  unfold isNumeric at h
  simp only [Bool.and_eq_true, Bool.or_eq_true, decide_eq_true_eq, List.all_eq_true] at h
  obtain ⟨⟨hne, hdigits⟩, hzero⟩ := h
  by_cases hhead : part.head? = some (unit '0')
  · obtain ⟨c, hc⟩ := List.length_eq_one_iff.1 (hzero.resolve_left (not_not.2 hhead))
    rw [hc] at hhead ⊢
    exact .inl (by rw [Option.some.inj hhead])
  · exact .inr ⟨hne, hdigits, hhead⟩

theorem decimal_inj_of_isNumeric {s t : JsString} (hs : isNumeric s = true) (ht : isNumeric t = true)
    (h : decimal s = decimal t) : s = t := by
  have hzero : decimal [unit '0'] = 0 := rfl
  rcases canonical_of_isNumeric hs with rfl | ⟨hsne, hs⟩
  · rcases canonical_of_isNumeric ht with rfl | ⟨htne, ht⟩
    · rfl
    · have := ht.decimal_pos htne
      omega
  · rcases canonical_of_isNumeric ht with rfl | ⟨htne, ht⟩
    · have := hs.decimal_pos hsne
      omega
    · exact hs.decimal_inj ht h

/-- No two identifiers of a pre-release say the same. -/
theorem parsePrereleasePart_inj {s t : JsString}
    (h : (parsePrereleasePart id s).identifier = (parsePrereleasePart id t).identifier) : s = t := by
  unfold parsePrereleasePart at h
  split_ifs at h with hs ht ht
  · exact decimal_inj_of_isNumeric hs ht (Identifier.numeric.inj h)
  · cases h
  · cases h
  · exact Identifier.alphanumeric.inj h

/-- An accepted text before its build metadata, and what it says. -/
theorem AcceptedVersion.exists_match (v : AcceptedVersion) : ∃ found : SemverMatch,
    v.withoutBuild = found.render ∧
      (isNumeric found.major = true ∧ isNumeric found.minor = true ∧ isNumeric found.patch = true) ∧
      v.version = ⟨decimal found.major, decimal found.minor, decimal found.patch,
        ((found.prerelease.map fun text => text.splitOn (unit '.')).getD []).map fun part =>
          (parsePrereleasePart id part).identifier⟩ := by
  have h := v.accepted
  unfold parseSemanticVersion at h
  simp only at h
  split_ifs at h with htrimmed
  cases hfound : execSemverPattern (trimmedVersion (some v.text)) with
  | none =>
    rw [hfound] at h
    cases h
  | some found =>
    rw [hfound] at h
    simp only at h
    split_ifs at h with hzeros
    obtain ⟨hrender, hnumeric⟩ := takeWhile_eq_render hfound
    have hparsed := Option.some.inj h
    refine ⟨found, ?_, hnumeric, ?_⟩
    · unfold withoutBuild
      rw [← hparsed]
      exact hrender
    · unfold version
      rw [← hparsed]
      simp [ParsedSemanticVersion.version, parseInt, Function.comp_def]

theorem prerelease_inj {p q : Option JsString}
    (h : (p.map fun text => text.splitOn (unit '.')).getD [] = (q.map fun text => text.splitOn (unit '.')).getD []) :
    p = q := by
  have hne : ∀ text : JsString, text.splitOn (unit '.') ≠ [] := fun text => List.splitOn_ne_nil _ _
  cases p with
  | none =>
    cases q with
    | none => rfl
    | some q => exact absurd h.symm (hne q)
  | some p =>
    cases q with
    | none => exact absurd h (hne p)
    | some q =>
      have hjoin := congrArg ([unit '.'].intercalate ·) h
      simp only [Option.map_some, Option.getD_some, List.intercalate_splitOn] at hjoin
      rw [hjoin]

/-- Versions of the same precedence differ in their build metadata alone. -/
theorem AcceptedVersion.withoutBuild_eq {v w : AcceptedVersion} (h : v.version = w.version) :
    v.withoutBuild = w.withoutBuild := by
  obtain ⟨found, hv, ⟨hmajor, hminor, hpatch⟩, hversion⟩ := v.exists_match
  obtain ⟨found', hw, ⟨hmajor', hminor', hpatch'⟩, hversion'⟩ := w.exists_match
  rw [hversion, hversion', Version.mk.injEq] at h
  obtain ⟨h₁, h₂, h₃, hprerelease⟩ := h
  have hparts := prerelease_inj ((List.map_inj_right fun _ _ => parsePrereleasePart_inj).1 hprerelease)
  rw [hv, hw, SemverMatch.render, SemverMatch.render, decimal_inj_of_isNumeric hmajor hmajor' h₁,
    decimal_inj_of_isNumeric hminor hminor' h₂, decimal_inj_of_isNumeric hpatch hpatch' h₃, hparts]

theorem map_withoutBuild_eq {versions versions' : List AcceptedVersion}
    (h : versions.map AcceptedVersion.version = versions'.map AcceptedVersion.version) :
    versions.map AcceptedVersion.withoutBuild = versions'.map AcceptedVersion.withoutBuild := by
  induction versions generalizing versions' with
  | nil =>
    cases versions' with
    | nil => rfl
    | cons w versions' => cases h
  | cons v versions ih =>
    cases versions' with
    | nil => cases h
    | cons w versions' =>
      obtain ⟨hversion, hrest⟩ := List.cons.inj h
      rw [List.map_cons, List.map_cons, AcceptedVersion.withoutBuild_eq hversion, ih hrest]

/-! ## The order -/

section Order

variable (hexact : StrictMonoOn ofInteger (Set.Iio (2 ^ 53))) {u v w : AcceptedVersion}

include hexact

theorem exists_sign (v w : AcceptedVersion) : ∃ comparison,
    compareSemanticVersions ofInteger v.text w.text = .ok comparison ∧
      Sign comparison Version.Precedes v.version w.version := by
  refine ⟨_, ?_, sign_compareParsedVersions hexact v.exact w.exact⟩
  unfold compareSemanticVersions
  rw [v.parse_eq, w.parse_eq]

theorem atMost_iff : v.AtMost ofInteger w ↔ v.version.Precedes w.version ∨ v.version = w.version := by
  obtain ⟨comparison, hok, hsign⟩ := exists_sign hexact v w
  constructor
  · rintro ⟨c, hc, hle⟩
    obtain rfl := Except.ok.inj (hok.symm.trans hc)
    rcases hsign with ⟨-, h⟩ | ⟨-, h⟩ | ⟨hone, -⟩
    · exact .inl h
    · exact .inr h
    · omega
  · intro h
    refine ⟨comparison, hok, ?_⟩
    rcases hsign with ⟨hc, -⟩ | ⟨hc, -⟩ | ⟨-, hlt⟩
    · omega
    · omega
    · rcases h with h | h
      · exact absurd (h.trans hlt) (Version.Precedes.irrefl _)
      · exact absurd (h ▸ hlt) (Version.Precedes.irrefl _)

theorem atMost_total (v w : AcceptedVersion) : v.AtMost ofInteger w ∨ w.AtMost ofInteger v := by
  rw [atMost_iff hexact, atMost_iff hexact]
  obtain ⟨-, -, ⟨-, h⟩ | ⟨-, h⟩ | ⟨-, h⟩⟩ := exists_sign hexact v w
  · exact .inl (.inl h)
  · exact .inl (.inr h)
  · exact .inr (.inl h)

theorem atMost_trans (huv : u.AtMost ofInteger v) (hvw : v.AtMost ofInteger w) : u.AtMost ofInteger w := by
  rw [atMost_iff hexact] at huv hvw ⊢
  rcases huv with huv | huv
  · rcases hvw with hvw | hvw
    · exact .inl (huv.trans hvw)
    · exact .inl (hvw ▸ huv)
  · rcases hvw with hvw | hvw
    · exact .inl (huv ▸ hvw)
    · exact .inr (huv.trans hvw)

theorem atMost_antisymm (hvw : v.AtMost ofInteger w) (hwv : w.AtMost ofInteger v) :
    v.withoutBuild = w.withoutBuild := by
  rw [atMost_iff hexact] at hvw hwv
  refine AcceptedVersion.withoutBuild_eq ?_
  rcases hvw with hvw | hvw
  · rcases hwv with hwv | hwv
    · exact absurd (hvw.trans hwv) (Version.Precedes.irrefl _)
    · exact hwv.symm
  · exact hvw

/-- The comparator of `newestFirst` puts the version that is at least the other one in front. -/
theorem newestFirst_eq (versions : List AcceptedVersion) [DecidableRel (AcceptedVersion.AtMost ofInteger)] :
    newestFirst ofInteger versions =
      versions.mergeSort fun left right => Decidable.decide (right.AtMost ofInteger left) := by
  unfold newestFirst
  congr 1
  funext left right
  obtain ⟨comparison, hok, -⟩ := exists_sign hexact right left
  rw [hok]
  refine decide_eq_decide.2 ⟨fun hle => ⟨comparison, hok, hle⟩, ?_⟩
  rintro ⟨c, hc, hle⟩
  obtain rfl := Except.ok.inj (hok.symm.trans hc)
  exact hle

/-- Sorted versions are the same up to build metadata, in whatever order they came. -/
theorem newestFirst_perm {versions versions' : List AcceptedVersion} (hperm : versions.Perm versions') :
    (newestFirst ofInteger versions).map AcceptedVersion.withoutBuild =
      (newestFirst ofInteger versions').map AcceptedVersion.withoutBuild := by
  classical
  rw [newestFirst_eq hexact, newestFirst_eq hexact]
  have hsorted : ∀ list : List AcceptedVersion, (list.mergeSort fun left right =>
      Decidable.decide (right.AtMost ofInteger left)).Pairwise fun left right => right.AtMost ofInteger left := by
    intro list
    refine (List.pairwise_mergeSort ?_ ?_ list).imp fun h => of_decide_eq_true h
    · intro a b c hab hbc
      exact decide_eq_true (atMost_trans hexact (of_decide_eq_true hbc) (of_decide_eq_true hab))
    · intro a b
      rw [Bool.or_eq_true, decide_eq_true_iff, decide_eq_true_iff]
      exact atMost_total hexact b a
  refine map_withoutBuild_eq (@List.Perm.eq_of_pairwise (Version JsString)
    (fun a b => b.Precedes a ∨ b = a) _ _ ?_ ?_ ?_ ?_)
  · intro a b _ _ hba hab
    rcases hba with hba | hba
    · rcases hab with hab | hab
      · exact absurd (hba.trans hab) (Version.Precedes.irrefl _)
      · exact hab
    · exact hba.symm
  · rw [List.pairwise_map]
    exact (hsorted versions).imp fun h => (atMost_iff hexact).1 h
  · rw [List.pairwise_map]
    exact (hsorted versions').imp fun h => (atMost_iff hexact).1 h
  · exact ((List.mergeSort_perm _ _).trans (hperm.trans (List.mergeSort_perm _ _).symm)).map _

/-- Where integers below `2 ^ 53` are exact, versions are ordered by their precedence. -/
theorem ordersVersions : OrdersVersions ofInteger where
  sign v w := by
    obtain ⟨comparison, hok, hsign⟩ := exists_sign hexact v w
    have hasymm : ∀ a b : Version JsString, a.Precedes b → ¬ b.Precedes a := fun a b hab hba =>
      Version.Precedes.irrefl a (hab.trans hba)
    refine ⟨comparison, hok, hsign.neg_iff Version.Precedes.irrefl hasymm,
      hsign.eq_zero_iff Version.Precedes.irrefl, ?_⟩
    have := hsign.swap.neg_iff Version.Precedes.irrefl hasymm
    rw [← this]
    omega
  refl v := by
    obtain ⟨comparison, hok, hsign⟩ := exists_sign hexact v v
    rw [hok, (hsign.eq_zero_iff Version.Precedes.irrefl).2 rfl]
  antisymm v w := atMost_antisymm hexact
  trans u v w := atMost_trans hexact
  total := atMost_total hexact
  newestFirst versions versions' := newestFirst_perm hexact

end Order

def releaseCandidate (n : Nat) (text : JsString) (hn : n < 2 ^ 53)
    (h : parseSemanticVersion id (some text) =
      some ⟨1, 0, 0, [.string (units "rc"), .number n], JsString.trim text⟩) : AcceptedVersion where
  text := text
  parsed := ⟨1, 0, 0, [.string (units "rc"), .number n], JsString.trim text⟩
  accepted := h
  exact := ⟨Nat.one_lt_two_pow (by omega), Nat.two_pow_pos 53, Nat.two_pow_pos 53, fun m hm => by
    simp only [List.mem_cons, reduceCtorEq, List.not_mem_nil, or_false, false_or] at hm
    rw [PrereleasePart.number.inj hm]
    exact hn⟩

theorem ordersVersions_releaseCandidates :
    ∃ comparison, compareSemanticVersions (id : Nat → Nat) (units " 1.0.0-rc.9+2") (units "1.0.0-rc.10") =
      .ok comparison ∧ comparison < 0 := by
  have hsign := (ordersVersions (strictMono_id.strictMonoOn _)).sign
    (releaseCandidate 9 (units " 1.0.0-rc.9+2") (by decide) (by decide +kernel))
    (releaseCandidate 10 (units "1.0.0-rc.10") (by decide) (by decide +kernel))
  obtain ⟨comparison, hok, hneg, -⟩ := hsign
  exact ⟨comparison, hok, hneg.2 (.prerelease ⟨rfl, rfl, rfl⟩
    (.identifiers (List.cons_ne_nil _ _) (.cons (.rel (.numeric (by decide))))))⟩

end Staaash.Release

import Staaash.Library.JsonRewriting
import Staaash.Release.Provenance

/-!
# Provenance is read back

A body is the text before a block, the block and the text after it, with no other markers. The block's JSON is
read back, and a replacement puts the new block in place of the old one where no string of it has a dollar that
`replace` takes for something else.
-/

namespace Staaash.Release

open Staaash.Library
open Staaash.Library.Json
open Staaash.Library.Substrings
open Staaash.Library.JsString (special getSubstitution)

/-! ## Markers -/

theorem marker_start : Marker releaseProvenanceStart :=
  ⟨unit '<', releaseProvenanceStart.tail, by decide, by decide⟩

theorem marker_end : Marker releaseProvenanceEnd :=
  ⟨unit '<', releaseProvenanceEnd.tail, by decide, by decide⟩

variable {body before middle after block json text : JsString}

theorem not_start_prefix : ¬ releaseProvenanceStart <+: releaseProvenanceEnd ++ after := by
  intro h
  rcases List.prefix_or_prefix_of_prefix h (List.prefix_append _ _) with h | h
  · exact absurd h (by decide)
  · exact absurd h (by decide)

theorem not_end_prefix : ¬ releaseProvenanceEnd <+: releaseProvenanceStart ++ after := by
  intro h
  rcases List.prefix_or_prefix_of_prefix h (List.prefix_append _ _) with h | h
  · exact absurd h (by decide)
  · exact absurd h (by decide)

/-- A block and what is around it. -/
def around (before middle after : JsString) : JsString :=
  before ++ (releaseProvenanceStart ++ middle ++ releaseProvenanceEnd) ++ after

theorem occurrences_start : occurrences releaseProvenanceStart (around before middle after) =
    occurrences releaseProvenanceStart before + 1 +
      (occurrences releaseProvenanceStart middle + occurrences releaseProvenanceStart after) := by
  have hcut : around before middle after =
      before ++ releaseProvenanceStart ++ (middle ++ releaseProvenanceEnd ++ after) := by
    simp [around]
  rw [hcut, marker_start.occurrences_around,
    marker_start.occurrences_around_other marker_end (by decide) not_start_prefix]

theorem occurrences_end : occurrences releaseProvenanceEnd (around before middle after) =
    occurrences releaseProvenanceEnd before +
      (occurrences releaseProvenanceEnd middle + 1 + occurrences releaseProvenanceEnd after) := by
  have hcut : around before middle after =
      before ++ releaseProvenanceStart ++ (middle ++ releaseProvenanceEnd ++ after) := by
    simp [around]
  rw [hcut, marker_end.occurrences_around_other marker_start (by decide) not_end_prefix,
    marker_end.occurrences_around]

theorem unmarked_iff : Unmarked text ↔
    occurrences releaseProvenanceStart text = 0 ∧ occurrences releaseProvenanceEnd text = 0 := by
  rw [occurrences_eq_zero marker_start.ne_nil, occurrences_eq_zero marker_end.ne_nil]
  exact Iff.rfl

theorem countOf_eq {marker : JsString} (h : Marker marker) : countOf marker body = occurrences marker body := by
  rw [countOf, h.length_split]
  rfl

/-! ## Finding a block -/

theorem find_around (hbefore : Unmarked before) (hmiddle : Unmarked middle) (hafter : Unmarked after) :
    findReleaseProvenanceBlock (around before middle after) =
      .valid (releaseProvenanceStart ++ middle ++ releaseProvenanceEnd) := by
  have hb := unmarked_iff.1 hbefore
  have hm := unmarked_iff.1 hmiddle
  have ha := unmarked_iff.1 hafter
  have hstart : indexOf releaseProvenanceStart (around before middle after) = some before.length := by
    have hcut : around before middle after =
        before ++ releaseProvenanceStart ++ (middle ++ releaseProvenanceEnd ++ after) := by
      simp [around]
    rw [hcut]
    exact marker_start.indexOf_around hbefore.1
  have hfront : ¬ releaseProvenanceEnd <:+: [] ++ releaseProvenanceStart ++ middle := by
    rw [← occurrences_eq_zero marker_end.ne_nil,
      marker_end.occurrences_around_other marker_start (by decide) not_end_prefix, hm.2, occurrences]
  have hdrop : (around before middle after).drop before.length =
      [] ++ releaseProvenanceStart ++ middle ++ releaseProvenanceEnd ++ after := by
    simp [around]
  have hend : indexOf releaseProvenanceEnd ((around before middle after).drop before.length) =
      some (releaseProvenanceStart ++ middle).length := by
    rw [hdrop]
    exact marker_end.indexOf_around hfront
  have htake : (around before middle after).take (before.length + (releaseProvenanceStart ++ middle).length +
      releaseProvenanceEnd.length) = before ++ (releaseProvenanceStart ++ middle ++ releaseProvenanceEnd) := by
    rw [around]
    refine List.take_left' ?_
    simp only [List.length_append]
    omega
  unfold findReleaseProvenanceBlock
  rw [countOf_eq marker_start, countOf_eq marker_end, occurrences_start, occurrences_end, hb.1, hb.2, hm.1, hm.2,
    ha.1, ha.2]
  simp only [hstart, Option.getD_some, hend, htake, List.drop_left]
  rfl

/-- A block that is found is the only one. -/
theorem around_of_find (h : findReleaseProvenanceBlock body = .valid block) :
    ∃ before middle after, body = around before middle after ∧
      block = releaseProvenanceStart ++ middle ++ releaseProvenanceEnd ∧ Unmarked before ∧ Unmarked middle ∧
      Unmarked after := by
  have hcounts : occurrences releaseProvenanceStart body = 1 ∧ occurrences releaseProvenanceEnd body = 1 ∧
      ∃ offset, indexOf releaseProvenanceEnd
        (body.drop ((indexOf releaseProvenanceStart body).getD 0)) = some offset := by
    unfold findReleaseProvenanceBlock at h
    rw [countOf_eq marker_start, countOf_eq marker_end] at h
    dsimp only at h
    split_ifs at h with h₁ h₂
    simp only [ne_eq, Bool.or_eq_true, decide_eq_true_eq, not_or, Decidable.not_not] at h₂
    refine ⟨h₂.1, h₂.2, ?_⟩
    split at h
    · cases h
    · rename_i offset hoffset
      exact ⟨offset, hoffset⟩
  obtain ⟨hstart, hend, offset, hoffset⟩ := hcounts
  have hwithin : releaseProvenanceStart <:+: body := by
    rw [← not_not (a := releaseProvenanceStart <:+: body), ← occurrences_eq_zero marker_start.ne_nil]
    omega
  obtain ⟨i, hi⟩ : ∃ i, indexOf releaseProvenanceStart body = some i :=
    Option.ne_none_iff_exists'.1 fun hnone => indexOf_eq_none.1 hnone hwithin
  obtain ⟨before, rest, rfl, rfl⟩ := exists_of_indexOf hi
  rw [hi, Option.getD_some, List.append_assoc, List.drop_left, ← List.nil_append releaseProvenanceStart]
    at hoffset
  rw [marker_start.occurrences_around] at hstart
  rw [marker_end.occurrences_around_other marker_start (by decide) not_end_prefix] at hend
  -- the end marker that was found is after the start marker
  have hrest : occurrences releaseProvenanceEnd rest ≠ 0 := by
    intro hzero
    have hnone : indexOf releaseProvenanceEnd ([] ++ releaseProvenanceStart ++ rest) = none := by
      rw [indexOf_eq_none, ← occurrences_eq_zero marker_end.ne_nil,
        marker_end.occurrences_around_other marker_start (by decide) not_end_prefix, hzero, occurrences]
    rw [hnone] at hoffset
    cases hoffset
  obtain ⟨j, hj⟩ : ∃ j, indexOf releaseProvenanceEnd rest = some j :=
    Option.ne_none_iff_exists'.1 fun hnone =>
      hrest ((occurrences_eq_zero marker_end.ne_nil).2 (indexOf_eq_none.1 hnone))
  obtain ⟨middle, after, rfl, -⟩ := exists_of_indexOf hj
  rw [marker_end.occurrences_around] at hend
  rw [marker_start.occurrences_around_other marker_end (by decide) not_start_prefix] at hstart
  have hbefore : Unmarked before := unmarked_iff.2 ⟨by omega, by omega⟩
  have hmiddle : Unmarked middle := unmarked_iff.2 ⟨by omega, by omega⟩
  have hafter : Unmarked after := unmarked_iff.2 ⟨by omega, by omega⟩
  have hbody : before ++ releaseProvenanceStart ++ (middle ++ releaseProvenanceEnd ++ after) =
      around before middle after := by
    simp [around]
  rw [hbody, find_around hbefore hmiddle hafter] at h
  exact ⟨before, middle, after, hbody, (LocatedBlock.valid.inj h).symm, hbefore, hmiddle, hafter⟩

variable {Number : Type} {numbers : Numbers Number}

/-! ## A provenance's object -/

theorem AssetChecksums.simple_json (checksums : AssetChecksums) :
    Simple numbers (checksums.json : Value Number) := by
  obtain ⟨hnodup, hordered⟩ := checksums.ordered
  refine .object ⟨?_, ?_⟩ ?_
  · rw [List.map_map]
    exact hnodup
  · exact List.pairwise_map.2 hordered
  · intro property hproperty
    obtain ⟨entry, -, rfl⟩ := List.mem_map.1 hproperty
    exact .string entry.2

/-- The properties that every provenance has. -/
def releaseProvenanceKeys : List String :=
  ["schemaVersion", "tag", "commit", "tagObject", "imageDigest", "immutableImage", "assetChecksums"]

theorem ReleaseProvenance.simple_json (provenance : ReleaseProvenance) :
    Simple numbers (provenance.json numbers) := by
  have hkeys : (releaseProvenanceKeys.map units).Nodup := by decide
  have hordered : (releaseProvenanceKeys.map units).Pairwise fun a b => precedes b a = false := by decide
  refine .object ⟨hkeys, ?_⟩ ?_
  · refine List.pairwise_map.1 (?_ : (List.map Prod.fst _).Pairwise fun a b => precedes b a = false)
    exact hordered
  · intro property hproperty
    simp only [List.mem_cons, List.not_mem_nil, or_false] at hproperty
    rcases hproperty with rfl | rfl | rfl | rfl | rfl | rfl | rfl
    · exact .one
    · exact .string _
    · exact .string _
    · exact .string _
    · exact .string _
    · exact .string _
    · show Simple numbers ((provenance.assetChecksums.map AssetChecksums.json).getD .null)
      cases provenance.assetChecksums with
      | none => exact .null
      | some checksums => exact checksums.simple_json

theorem ReleaseProvenance.mem_strings {provenance : ReleaseProvenance} {s : JsString} :
    s ∈ Json.strings (provenance.json numbers) ↔
      s ∈ releaseProvenanceKeys.map units ∨ s ∈ provenance.strings := by
  have hchecksums : Json.strings ((provenance.assetChecksums.map AssetChecksums.json).getD .null : Value Number) =
      (provenance.assetChecksums.map AssetChecksums.strings).getD [] := by
    cases provenance.assetChecksums with
    | none => rfl
    | some checksums =>
      show stringsOfProperties (checksums.entries.map _) = checksums.entries.flatMap _
      induction checksums.entries with
      | nil => rfl
      | cons entry entries ih =>
        rw [List.map_cons, stringsOfProperties, ih, List.flatMap_cons]
        rfl
  simp only [ReleaseProvenance.json, Json.strings, stringsOfProperties, hchecksums, releaseProvenanceKeys,
    ReleaseProvenance.strings, List.map_cons, List.map_nil, List.mem_cons, List.not_mem_nil, List.append_nil,
    List.cons_append, List.nil_append, or_false, or_assoc]
  exact iff_of_eq (by ac_rfl)

/-- A pattern that a release's properties do not have, nor the text around them, is in one of its strings. -/
theorem infix_serialized {provenance : ReleaseProvenance} {pattern front back : JsString} (hp : Plain pattern)
    (hfront : ¬ pattern <:+: front) (hback : ¬ pattern <:+: back)
    (hkeys : ∀ key ∈ releaseProvenanceKeys, ¬ pattern <:+: units key)
    (hnull : ¬ pattern <:+: units "null") (hone : ¬ pattern <:+: units "1")
    (h : pattern <:+: front ++ stringify numbers (provenance.json numbers) ++ back) :
    ∃ s ∈ provenance.strings, pattern <:+: s := by
  have hsimple : Simple numbers (provenance.json numbers) := provenance.simple_json
  have hstring : ∃ s ∈ Json.strings (provenance.json numbers), pattern <:+: s := by
    cases hsimple with
    | object hordered hvalues =>
      obtain ⟨property, hproperty, hkey | hvalue⟩ := hp.infix_object hfront hback h
      · exact ⟨property.1, mem_stringsOfProperties.2 ⟨property, hproperty, .inl rfl⟩, hkey⟩
      · obtain ⟨s, hs, hin⟩ := (hvalues property hproperty).infix_stringify hp hnull hone hvalue
        exact ⟨s, mem_stringsOfProperties.2 ⟨property, hproperty, .inr hs⟩, hin⟩
  obtain ⟨s, hs, hin⟩ := hstring
  rcases ReleaseProvenance.mem_strings.1 hs with hname | hs
  · obtain ⟨key, hkey, rfl⟩ := List.mem_map.1 hname
    exact absurd hin (hkeys key hkey)
  · exact ⟨s, hs, hin⟩

theorem plain_start : Plain releaseProvenanceStart :=
  ⟨List.all_iff_forall_prop.1 (by decide), unit '<', releaseProvenanceStart.tail, by decide, by decide, by decide⟩

theorem plain_end : Plain releaseProvenanceEnd :=
  ⟨List.all_iff_forall_prop.1 (by decide), unit '<', releaseProvenanceEnd.tail, by decide, by decide, by decide⟩

/-- What the comment holds. -/
def commentOf (json : JsString) : JsString := units "\n<!-- " ++ json ++ units " -->\n"

theorem unmarked_comment {provenance : ReleaseProvenance} (h : ∀ s ∈ provenance.strings, Unmarked s) :
    Unmarked (commentOf (stringify numbers (provenance.json numbers))) := by
  constructor
  · intro hwithin
    obtain ⟨s, hs, hin⟩ := infix_serialized plain_start (by decide) (by decide) (by decide) (by decide) (by decide)
      hwithin
    exact (h s hs).1 hin
  · intro hwithin
    obtain ⟨s, hs, hin⟩ := infix_serialized plain_end (by decide) (by decide) (by decide) (by decide) (by decide)
      hwithin
    exact (h s hs).2 hin

/-! ## Reading a block -/

theorem payload_eq (inner : JsString) :
    JsString.trim (units "\n<!-- " ++ (unit '{' :: inner ++ [unit '}']) ++ units " -->\n") =
      units "<!-- " ++ (unit '{' :: inner ++ [unit '}']) ++ units " -->" := by
  have hfront : units "\n<!-- " = [10] ++ unit '<' :: units "!-- " := by decide
  have hback : units " -->\n" = units " --" ++ [unit '>'] ++ [10] := by decide
  have hcut : units "\n<!-- " ++ (unit '{' :: inner ++ [unit '}']) ++ units " -->\n" =
      [10] ++ (unit '<' :: (units "!-- " ++ (unit '{' :: inner ++ [unit '}']) ++ units " --") ++ [unit '>']) ++
        [10] := by
    rw [hfront, hback]
    simp
  have hline : ∀ c ∈ [10], JsString.isWhiteSpace c = true := List.all_iff_forall_prop.1 (by decide)
  rw [hcut, JsString.trim_append hline hline (by decide) (by decide)]
  have hfront' : units "<!-- " = unit '<' :: units "!-- " := by decide
  have hback' : units " -->" = units " --" ++ [unit '>'] := by decide
  rw [hfront', hback']
  simp

theorem payloadJson_eq (inner : JsString) :
    payloadJson (units "<!-- " ++ (unit '{' :: inner ++ [unit '}']) ++ units " -->") =
      some (unit '{' :: inner ++ [unit '}']) := by
  have hstarts : units "<!-- \x7b" <+: units "<!-- " ++ (unit '{' :: inner ++ [unit '}']) ++ units " -->" := by
    refine ⟨inner ++ [unit '}'] ++ units " -->", ?_⟩
    have hcut : units "<!-- \x7b" = units "<!-- " ++ [unit '{'] := by decide
    rw [hcut]
    simp
  have hsuffix : units "\x7d -->" <:+ units "<!-- " ++ (unit '{' :: inner ++ [unit '}']) ++ units " -->" := by
    refine ⟨units "<!-- " ++ unit '{' :: inner, ?_⟩
    have hcut : units "\x7d -->" = unit '}' :: units " -->" := by decide
    rw [hcut]
    simp
  have hlength : (units "<!-- \x7b\x7d -->").length ≤
      (units "<!-- " ++ (unit '{' :: inner ++ [unit '}']) ++ units " -->").length := by
    have h₁ : (units "<!-- \x7b\x7d -->").length = 11 := by decide
    have h₂ : (units "<!-- ").length = 5 := by decide
    have h₃ : (units " -->").length = 4 := by decide
    simp only [List.length_append, List.length_cons, List.length_nil, h₁, h₂, h₃]
    omega
  rw [payloadJson, if_pos ⟨hstarts, hsuffix, hlength⟩,
    List.take_left' (by simp only [List.length_append]; omega), List.drop_left]

variable [DecidableEq Number] {properties : List (JsString × Value Number)} {value : Value Number}

theorem parse_commentBlock {inner : JsString} (hjson : json = unit '{' :: inner ++ [unit '}'])
    (hparse : parse numbers json = some (.object properties)) :
    parseReleaseProvenanceBlock numbers (commentBlock json) =
      if isReleaseProvenance numbers properties then .valid (.object properties) (commentBlock json)
      else .malformed "payload shape is invalid" := by
  subst hjson
  have hpayload : ((commentBlock (unit '{' :: inner ++ [unit '}'])).take
      ((commentBlock (unit '{' :: inner ++ [unit '}'])).length - releaseProvenanceEnd.length)).drop
        releaseProvenanceStart.length = units "\n<!-- " ++ (unit '{' :: inner ++ [unit '}']) ++ units " -->\n" := by
    unfold commentBlock
    rw [List.take_left' (by simp only [List.length_append]; omega), List.drop_left]
  unfold parseReleaseProvenanceBlock
  rw [hpayload, payload_eq]
  dsimp only
  rw [payloadJson_eq]
  dsimp only
  rw [hparse]

/-- A block that is read is given back. -/
theorem block_of_parse {block' : JsString} (h : parseReleaseProvenanceBlock numbers block = .valid value block') :
    block' = block := by
  unfold parseReleaseProvenanceBlock at h
  dsimp only at h
  split at h
  · cases h
  · split at h
    · cases h
    · split at h
      · exact (ParsedReleaseProvenance.valid.inj h).2.symm
      · cases h
    · cases h

theorem parse_valid_iff : parseReleaseProvenance numbers body = .valid value block ↔
    findReleaseProvenanceBlock body = .valid block ∧
      parseReleaseProvenanceBlock numbers block = .valid value block := by
  unfold parseReleaseProvenance
  constructor
  · intro h
    split at h
    · rename_i found hfound
      obtain rfl := block_of_parse h
      exact ⟨hfound, h⟩
    · cases h
    · cases h
  · rintro ⟨hfind, h⟩
    rw [hfind]
    exact h

/-! ## Round trips -/

variable {provenance next : ReleaseProvenance}

theorem isReleaseProvenance_json (provenance : ReleaseProvenance) (h : provenance.json numbers = .object properties) :
    isReleaseProvenance numbers properties = true := by
  obtain rfl := Value.object.inj h
  have hchecksums : hasReleaseAssetChecksums
      (some ((provenance.assetChecksums.map AssetChecksums.json).getD (.null : Value Number))) = true := by
    cases provenance.assetChecksums with
    | none => rfl
    | some checksums => simp [AssetChecksums.json, hasReleaseAssetChecksums, isString]
  have hversion : hasSchemaVersion numbers (some (.number numbers.one)) = true := decide_eq_true rfl
  have hstrings : hasReleaseProvenanceStrings [
      (units "schemaVersion", (.number numbers.one : Value Number)),
      (units "tag", .string provenance.tag),
      (units "commit", .string provenance.commit),
      (units "tagObject", .string provenance.tagObject),
      (units "imageDigest", .string provenance.imageDigest),
      (units "immutableImage", .string provenance.immutableImage),
      (units "assetChecksums", (provenance.assetChecksums.map AssetChecksums.json).getD .null)] = true := rfl
  unfold isReleaseProvenance
  rw [hstrings, Bool.and_true]
  exact Bool.and_eq_true_iff.2 ⟨hversion, hchecksums⟩

/-- A provenance without markers is read back from a block of its own. -/
theorem parse_around (hbefore : Unmarked before) (hafter : Unmarked after)
    (hstrings : ∀ s ∈ provenance.strings, Unmarked s) :
    parseReleaseProvenance numbers (before ++ serializeReleaseProvenanceBlock numbers provenance ++ after) =
      .valid (provenance.json numbers) (serializeReleaseProvenanceBlock numbers provenance) := by
  have hfind : findReleaseProvenanceBlock
      (before ++ serializeReleaseProvenanceBlock numbers provenance ++ after) =
        .valid (serializeReleaseProvenanceBlock numbers provenance) :=
    find_around hbefore (unmarked_comment hstrings) hafter
  have hsimple : Simple numbers (provenance.json numbers) := provenance.simple_json
  obtain ⟨inner, hinner⟩ : ∃ inner, stringify numbers (provenance.json numbers) = unit '{' :: inner ++ [unit '}'] :=
    ⟨_, rfl⟩
  refine parse_valid_iff.2 ⟨hfind, ?_⟩
  rw [serializeReleaseProvenanceBlock, parse_commentBlock hinner hsimple.parse_stringify,
    if_pos (isReleaseProvenance_json provenance rfl)]
  rfl

theorem Unmarked.of_infix {part : JsString} (h : Unmarked text) (hpart : part <:+: text) : Unmarked part :=
  ⟨fun hin => h.1 (hin.trans hpart), fun hin => h.2 (hin.trans hpart)⟩

theorem find_unmarked (h : Unmarked body) : findReleaseProvenanceBlock body = .absent := by
  have hcounts := unmarked_iff.1 h
  unfold findReleaseProvenanceBlock
  rw [countOf_eq marker_start, countOf_eq marker_end, hcounts.1, hcounts.2]
  rfl

theorem appends (hbody : Unmarked body) (hstrings : ∀ s ∈ provenance.strings, Unmarked s) :
    Appends numbers body provenance := by
  have habsent : parseReleaseProvenance numbers body = .absent := by
    rw [parseReleaseProvenance, find_unmarked hbody]
  have hend : Unmarked (JsString.trimEnd body) := by
    refine hbody.of_infix (List.IsPrefix.isInfix ?_)
    rw [← List.reverse_suffix, JsString.trimEnd, List.reverse_reverse]
    exact List.dropWhile_suffix _
  have hnewline : Unmarked (units "\n") := by decide
  have hseparator : Unmarked (JsString.trimEnd body ++ units "\n\n") := by
    have hcut : JsString.trimEnd body ++ units "\n\n" = JsString.trimEnd body ++ unit '\n' :: units "\n" := rfl
    rw [hcut]
    constructor
    · intro h
      exact ((infix_append_cons (by decide)).1 h).elim hend.1 hnewline.1
    · intro h
      exact ((infix_append_cons (by decide)).1 h).elim hend.2 hnewline.2
  have hbefore : Unmarked (JsString.trimEnd body ++
      if (JsString.trim body).length > 0 then units "\n\n" else []) := by
    split
    · exact hseparator
    · rw [List.append_nil]
      exact hend
  refine ⟨_, _, ?_, parse_around hbefore hnewline hstrings⟩
  rw [appendReleaseProvenance, habsent]

/-! ## Replacing -/

/-- The first occurrence of the block is the block that was found. -/
theorem replace_around (hbefore : Unmarked before) (hafter : Unmarked after) (hmiddle : Unmarked middle)
    (hblock : block = releaseProvenanceStart ++ middle ++ releaseProvenanceEnd) (replacement : JsString) :
    JsString.replace (around before middle after) block replacement =
      before ++ getSubstitution block before after false replacement ++ after := by
  have hbody : around before middle after = before ++ block ++ after := by rw [hblock, around]
  obtain ⟨i, hi⟩ : ∃ i, indexOf block (before ++ block ++ after) = some i :=
    Option.ne_none_iff_exists'.1 fun hnone => indexOf_eq_none.1 hnone ⟨before, after, rfl⟩
  obtain ⟨front, back, hcut, rfl⟩ := exists_of_indexOf hi
  -- what comes before the first occurrence has no marker, like what comes before the block
  have hfront : ¬ releaseProvenanceStart <:+: front := by
    have hcount : occurrences releaseProvenanceStart (around before middle after) = 1 := by
      have hb := unmarked_iff.1 hbefore
      have hm := unmarked_iff.1 hmiddle
      have ha := unmarked_iff.1 hafter
      rw [occurrences_start, hb.1, hm.1, ha.1]
    have hother : around before middle after =
        front ++ releaseProvenanceStart ++ (middle ++ releaseProvenanceEnd ++ back) := by
      rw [hbody, hcut, hblock]
      simp
    rw [hother, marker_start.occurrences_around] at hcount
    rw [← occurrences_eq_zero marker_start.ne_nil]
    omega
  have heq : before ++ releaseProvenanceStart ++ (middle ++ releaseProvenanceEnd ++ after) =
      front ++ releaseProvenanceStart ++ (middle ++ releaseProvenanceEnd ++ back) := by
    rw [hblock] at hcut
    simpa using hcut
  obtain ⟨rfl, -⟩ := marker_start.append_inj hbefore.1 hfront heq
  have htake : (before ++ block ++ after).take before.length = before := by simp
  have hdrop : (before ++ block ++ after).drop (before.length + block.length) = after :=
    List.drop_left' (by simp)
  rw [JsString.replace, hbody, hi]
  dsimp only
  rw [htake, hdrop]

theorem not_infix_of_notMem {pattern : JsString} {c : UInt16} (hc : c ∈ pattern) (htext : c ∉ text) :
    ¬ pattern <:+: text := fun h => htext (h.subset hc)

theorem plain_dollar : ∀ c ∈ special, Plain [unit '$', c] := by
  intro c hc
  refine ⟨fun d hd hmem => ?_, unit '$', [c], rfl, by decide, by decide⟩
  have hapart : ∀ d ∈ units "\"\\,\x7b\x7d", d ≠ unit '$' ∧ d ∉ special :=
    List.all_iff_forall_prop.1 (by decide)
  rcases List.mem_pair.1 hmem with h | h
  · exact (hapart d hd).1 h
  · exact (hapart d hd).2 (h ▸ hc)

omit [DecidableEq Number] in
/-- Where no string has a pattern for `replace`, the whole block has none. -/
theorem getSubstitution_serialized {matched : JsString}
    (h : ∀ s ∈ next.strings, ¬ HasReplacementPattern s) :
    getSubstitution matched before after false (serializeReleaseProvenanceBlock numbers next) =
      serializeReleaseProvenanceBlock numbers next := by
  refine JsString.getSubstitution_of_forall_not_infix fun c hc hwithin => ?_
  have hdollar : unit '$' ∈ [unit '$', c] := List.mem_cons_self
  have hfront : ¬ [unit '$', c] <:+: releaseProvenanceStart ++ units "\n<!-- " :=
    not_infix_of_notMem hdollar (by decide)
  have hback : ¬ [unit '$', c] <:+: units " -->\n" ++ releaseProvenanceEnd :=
    not_infix_of_notMem hdollar (by decide)
  have hkeys : ∀ key ∈ releaseProvenanceKeys, ¬ [unit '$', c] <:+: units key := by
    have hnone : ∀ key ∈ releaseProvenanceKeys, unit '$' ∉ units key := by decide
    exact fun key hkey => not_infix_of_notMem hdollar (hnone key hkey)
  have hwhole : [unit '$', c] <:+: releaseProvenanceStart ++ units "\n<!-- " ++
      stringify numbers (next.json numbers) ++ (units " -->\n" ++ releaseProvenanceEnd) := by
    simpa [serializeReleaseProvenanceBlock, commentBlock] using hwithin
  obtain ⟨s, hs, hin⟩ := infix_serialized (plain_dollar c hc) hfront hback hkeys
    (not_infix_of_notMem hdollar (by decide)) (not_infix_of_notMem hdollar (by decide)) hwhole
  exact h s hs ⟨c, hc, hin⟩

theorem replaces (hstrings : ∀ s ∈ next.strings, Unmarked s) (h : ∀ s ∈ next.strings, ¬ HasReplacementPattern s)
    (hparse : parseReleaseProvenance numbers body = .valid value block) :
    Replaces numbers body block value next := by
  obtain ⟨before, middle, after, rfl, hblock, hbefore, hmiddle, hafter⟩ :=
    around_of_find (parse_valid_iff.1 hparse).1
  refine ⟨before, after, serializeReleaseProvenanceBlock numbers next, ?_, ?_, ?_⟩
  · rw [hblock, around]
  · rw [replaceReleaseProvenance, hparse]
    dsimp only
    rw [if_neg (by simp), replace_around hbefore hafter hmiddle hblock, getSubstitution_serialized h]
  · exact parse_around hbefore hafter hstrings

/-! ## What a pattern takes away -/

omit [DecidableEq Number] in
/-- With nothing to put in, the strings of the block are what changes. -/
theorem getSubstitution_nil_serialized :
    getSubstitution [] [] [] false (serializeReleaseProvenanceBlock numbers next) =
      commentBlock (getSubstitution [] [] [] false (stringify numbers (next.json numbers))) := by
  have hfront : unit '$' ∉ releaseProvenanceStart ++ units "\n<!-- " := by decide
  have hback : unit '$' ∉ units "-->\n" ++ releaseProvenanceEnd := by decide
  have hspace : unit ' ' ∉ special := by decide
  have hcut : ∀ json, commentBlock json = releaseProvenanceStart ++ units "\n<!-- " ++
      (json ++ unit ' ' :: (units "-->\n" ++ releaseProvenanceEnd)) := fun json => by
    have hunits : units " -->\n" = unit ' ' :: units "-->\n" := rfl
    simp [commentBlock, hunits]
  rw [serializeReleaseProvenanceBlock, hcut, hcut, JsString.getSubstitution_append hfront,
    JsString.getSubstitution_append_cons hspace, JsString.getSubstitution_eq_self hback]

theorem parse_self (h : ∀ s ∈ next.strings, Unmarked s) :
    parseReleaseProvenance numbers (serializeReleaseProvenanceBlock numbers next) =
      .valid (next.json numbers) (serializeReleaseProvenanceBlock numbers next) := by
  have hnil : Unmarked [] := by decide
  have hparse : parseReleaseProvenance numbers ([] ++ serializeReleaseProvenanceBlock numbers next ++ []) =
      .valid (next.json numbers) (serializeReleaseProvenanceBlock numbers next) := parse_around hnil hnil h
  rwa [List.nil_append, List.append_nil] at hparse

theorem replace_self (h : ∀ s ∈ next.strings, Unmarked s) :
    replaceReleaseProvenance numbers (serializeReleaseProvenanceBlock numbers next) (next.json numbers) next =
      .ok (getSubstitution (serializeReleaseProvenanceBlock numbers next) [] [] false
        (serializeReleaseProvenanceBlock numbers next)) := by
  have hnil : Unmarked [] := by decide
  have haround : around [] (commentOf (stringify numbers (next.json numbers))) [] =
      serializeReleaseProvenanceBlock numbers next := by
    rw [around, List.nil_append, List.append_nil]
    rfl
  have hmiddle : Unmarked (commentOf (stringify numbers (next.json numbers))) := unmarked_comment h
  have hreplace := replace_around hnil hnil hmiddle rfl (serializeReleaseProvenanceBlock numbers next)
  rw [haround, List.nil_append, List.append_nil] at hreplace
  rw [replaceReleaseProvenance, parse_self h]
  dsimp only
  rw [if_neg (by simp)]
  exact congrArg Except.ok hreplace

/-- A block that is put into itself has its marker twice. -/
theorem not_infix_of_find {result tail : JsString}
    (hresult : findReleaseProvenanceBlock (releaseProvenanceStart ++ result) = .valid text)
    (hblock : block = releaseProvenanceStart ++ tail) : ¬ block <:+: result := by
  intro hwithin
  obtain ⟨before, middle, after, hbody, -, hbefore, hmiddle, hafter⟩ := around_of_find hresult
  have hcount : occurrences releaseProvenanceStart (releaseProvenanceStart ++ result) = 1 := by
    have hb := unmarked_iff.1 hbefore
    have hm := unmarked_iff.1 hmiddle
    have ha := unmarked_iff.1 hafter
    rw [hbody, occurrences_start, hb.1, hm.1, ha.1]
  rw [marker_start.occurrences_append] at hcount
  have hzero : occurrences releaseProvenanceStart result = 0 := by omega
  refine (occurrences_eq_zero marker_start.ne_nil).1 hzero (List.IsInfix.trans ?_ hwithin)
  rw [hblock]
  exact (List.prefix_append _ _).isInfix

/-- A provenance with a pattern in it does not survive being replaced by itself. -/
theorem not_replaces_self {s : JsString} (h : ∀ s ∈ next.strings, Unmarked s) (hs : s ∈ next.strings)
    (hpattern : HasReplacementPattern s) :
    ¬ Replaces numbers (serializeReleaseProvenanceBlock numbers next)
      (serializeReleaseProvenanceBlock numbers next) (next.json numbers) next := by
  rintro ⟨before, after, block', hbody, hreplace, hparse⟩
  have hlength := congrArg List.length hbody
  simp only [List.length_append] at hlength
  obtain rfl : before = [] := List.length_eq_zero_iff.1 (by omega)
  obtain rfl : after = [] := List.length_eq_zero_iff.1 (by omega)
  rw [List.nil_append, List.append_nil] at hreplace hparse
  rw [replace_self h] at hreplace
  have hresult := Except.ok.inj hreplace
  obtain ⟨hfind, hread⟩ := parse_valid_iff.1 hparse
  -- the block is not put into itself, so only what its strings say to put in goes away
  have hempty : block' = getSubstitution [] [] [] false (serializeReleaseProvenanceBlock numbers next) := by
    have hstart : unit '$' ∉ releaseProvenanceStart := by decide
    obtain ⟨tail, htail⟩ : ∃ tail, serializeReleaseProvenanceBlock numbers next = releaseProvenanceStart ++ tail :=
      ⟨_, List.append_assoc _ _ _⟩
    have hsplit : ∀ matched, getSubstitution matched [] [] false (serializeReleaseProvenanceBlock numbers next) =
        releaseProvenanceStart ++ getSubstitution matched [] [] false tail := fun matched => by
      rw [htail, JsString.getSubstitution_append hstart]
    rw [hsplit] at hresult ⊢
    rw [← hresult]
    rw [← hresult] at hfind
    exact congrArg _ (JsString.infix_or_getSubstitution_eq.resolve_left (not_infix_of_find hfind htail))
  rw [hempty, getSubstitution_nil_serialized] at hread
  -- so what is read has less in its strings
  have hsimple : Simple numbers (next.json numbers) := next.simple_json
  have hrewritten := textual_getSubstitution.parse_object hsimple
  obtain ⟨inner, hinner⟩ : ∃ inner, getSubstitution [] [] [] false (stringify numbers (next.json numbers)) =
      unit '{' :: inner ++ [unit '}'] := by
    rw [ReleaseProvenance.json, textual_getSubstitution.object]
    exact ⟨_, rfl⟩
  have hvalue : rewrite (getSubstitution [] [] [] false) (next.json numbers) = next.json numbers := by
    rw [parse_commentBlock hinner hrewritten] at hread
    split at hread
    · exact (ParsedReleaseProvenance.valid.inj hread).1
    · cases hread
  obtain ⟨c, hc, hin⟩ := hpattern
  have hle : ∀ text : JsString, (getSubstitution [] [] [] false text).length ≤ text.length := fun text =>
    JsString.length_getSubstitution_le.trans_eq (Nat.zero_add _)
  have hlt : (getSubstitution [] [] [] false s).length < s.length :=
    (@JsString.length_getSubstitution_lt s false c hc hin).trans_eq (Nat.zero_add _)
  have hweight := hsimple.weight_rewrite_lt hle (ReleaseProvenance.mem_strings.2 (.inr hs)) hlt
  rw [hvalue] at hweight
  exact absurd hweight (lt_irrefl _)

variable (numbers) in
/-- The provenance can always be appended, and it can replace every other one where no string of it has a
dollar that `replace` takes for something else. -/
theorem provenance_roundTrip (next : ReleaseProvenance) (h : ∀ s ∈ next.strings, Unmarked s) :
    (∀ body, Unmarked body → Appends numbers body next) ∧
      ((∀ body expected block, parseReleaseProvenance numbers body = .valid expected block →
          Replaces numbers body block expected next) ↔
        ∀ s ∈ next.strings, ¬ HasReplacementPattern s) := by
  refine ⟨fun body hbody => appends hbody h, ?_, ?_⟩
  · intro hreplaces s hs hpattern
    exact not_replaces_self h hs hpattern (hreplaces _ _ _ (parse_self h))
  · intro hnone body expected block hparse
    exact replaces h hnone hparse

def naturals : Numbers Nat := ⟨decimal, fun n => units (toString n), 1, by decide, by decide⟩

/-- A release with one asset. -/
def releaseOf (assetName : String) : ReleaseProvenance where
  tag := units "v1.2.3"
  commit := units "aaaa"
  tagObject := units "bbbb"
  imageDigest := units "pending"
  immutableImage := units "pending"
  assetChecksums := some ⟨[(units assetName, units "sha256:cccc")], by simp [Ordered]⟩

theorem provenance_roundTrip_cli :
    (∀ body, Unmarked body → Appends naturals body (releaseOf "staaash-cli.tgz")) ∧
      ∀ body expected block, parseReleaseProvenance naturals body = .valid expected block →
        Replaces naturals body block expected (releaseOf "staaash-cli.tgz") := by
  have h := provenance_roundTrip naturals (releaseOf "staaash-cli.tgz") (by decide)
  exact ⟨h.1, h.2.2 (by decide)⟩

example : countOf releaseProvenanceStart
    (serializeReleaseProvenanceBlock naturals (releaseOf "staaash-cli.tgz")) = 1 := by decide +kernel

/-- Two dollars in an asset's name become one. -/
theorem dollars_replaced :
    (∀ s ∈ (releaseOf "a$$b.tgz").strings, Unmarked s) ∧
      parseReleaseProvenance naturals (serializeReleaseProvenanceBlock naturals (releaseOf "a$$b.tgz")) =
        .valid ((releaseOf "a$$b.tgz").json naturals)
          (serializeReleaseProvenanceBlock naturals (releaseOf "a$$b.tgz")) ∧
      replaceReleaseProvenance naturals (serializeReleaseProvenanceBlock naturals (releaseOf "a$$b.tgz"))
          ((releaseOf "a$$b.tgz").json naturals) (releaseOf "a$$b.tgz") =
        .ok (serializeReleaseProvenanceBlock naturals (releaseOf "a$b.tgz")) ∧
      ¬ Replaces naturals (serializeReleaseProvenanceBlock naturals (releaseOf "a$$b.tgz"))
        (serializeReleaseProvenanceBlock naturals (releaseOf "a$$b.tgz"))
        ((releaseOf "a$$b.tgz").json naturals) (releaseOf "a$$b.tgz") := by
  have hunmarked : ∀ s ∈ (releaseOf "a$$b.tgz").strings, Unmarked s := by decide +kernel
  refine ⟨hunmarked, parse_self hunmarked, ?_, ?_⟩
  · rw [replace_self hunmarked]
    exact congrArg Except.ok (by decide +kernel)
  · exact not_replaces_self hunmarked (List.mem_append_right _ List.mem_cons_self)
      (⟨unit '$', by decide, by decide⟩ : HasReplacementPattern (units "a$$b.tgz"))

end Staaash.Release

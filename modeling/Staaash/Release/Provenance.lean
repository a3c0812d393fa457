import Staaash.Library.Json

/-!
# Release provenance

`release.ts` keeps what a release was made of as JSON in a comment of the release's notes, between two
markers. The notes around it are the maintainers'.
-/

namespace Staaash.Release

open Staaash.Library
open Staaash.Library.Json

def releaseProvenanceStart : JsString := units "<!-- staaash:release-provenance:start -->"

def releaseProvenanceEnd : JsString := units "<!-- staaash:release-provenance:end -->"

/-- A `Record<string, string>`, with its properties in the order JavaScript has them in. -/
structure AssetChecksums where
  entries : List (JsString × JsString)
  ordered : Ordered entries

/-- The schema version is always 1. -/
structure ReleaseProvenance where
  tag : JsString
  commit : JsString
  tagObject : JsString
  imageDigest : JsString
  immutableImage : JsString
  assetChecksums : Option AssetChecksums

variable {Number : Type} (numbers : Numbers Number)

def AssetChecksums.json (checksums : AssetChecksums) : Value Number :=
  .object (checksums.entries.map fun (name, digest) => (name, .string digest))

/-- The object that `buildReleaseProvenance` makes. -/
def ReleaseProvenance.json (provenance : ReleaseProvenance) : Value Number :=
  .object [
    (units "schemaVersion", .number numbers.one),
    (units "tag", .string provenance.tag),
    (units "commit", .string provenance.commit),
    (units "tagObject", .string provenance.tagObject),
    (units "imageDigest", .string provenance.imageDigest),
    (units "immutableImage", .string provenance.immutableImage),
    (units "assetChecksums", (provenance.assetChecksums.map AssetChecksums.json).getD .null)]

/-- A comment with some JSON in it, between the markers. -/
def commentBlock (json : JsString) : JsString :=
  releaseProvenanceStart ++ (units "\n<!-- " ++ json ++ units " -->\n") ++ releaseProvenanceEnd

def serializeReleaseProvenanceBlock (provenance : ReleaseProvenance) : JsString :=
  commentBlock (stringify numbers (provenance.json numbers))

/-! ## Parsing -/

inductive LocatedBlock
  | absent
  | valid (block : JsString)
  | malformed (reason : String)

inductive ParsedReleaseProvenance (Number : Type)
  | absent
  | valid (provenance : Value Number) (block : JsString)
  | malformed (reason : String)

/-- How often a marker splits the text. -/
def countOf (marker body : JsString) : Nat := (Substrings.split marker body).length - 1

def findReleaseProvenanceBlock (body : JsString) : LocatedBlock :=
  let startCount := countOf releaseProvenanceStart body
  let endCount := countOf releaseProvenanceEnd body
  if startCount = 0 && endCount = 0 then .absent
  else if startCount ≠ 1 || endCount ≠ 1 then .malformed "duplicate or unbalanced markers"
  else
    -- the start marker is there, once
    let start := (Substrings.indexOf releaseProvenanceStart body).getD 0
    match Substrings.indexOf releaseProvenanceEnd (body.drop start) with
    | none => .malformed "markers are reversed"
    | some offset => .valid ((body.take (start + offset + releaseProvenanceEnd.length)).drop start)

section Shape

variable [DecidableEq Number]

def isString : Value Number → Bool
  | .string _ => true
  | _ => false

def hasReleaseProvenanceStrings (properties : List (JsString × Value Number)) : Bool :=
  ["tag", "commit", "tagObject", "imageDigest", "immutableImage"].all fun key =>
    (getProperty (units key) properties).any isString

def hasReleaseAssetChecksums (value : Option (Value Number)) : Bool :=
  match value with
  | some .null => true
  | some (.object properties) => properties.all fun property => isString property.2
  | some (.array elements) => elements.all isString
  | _ => false

def hasSchemaVersion (value : Option (Value Number)) : Bool :=
  match value with
  | some (.number n) => n = numbers.one
  | _ => false

def isReleaseProvenance (properties : List (JsString × Value Number)) : Bool :=
  hasSchemaVersion numbers (getProperty (units "schemaVersion") properties) &&
    hasReleaseProvenanceStrings properties &&
    hasReleaseAssetChecksums (getProperty (units "assetChecksums") properties)

/-- The group of `/^<!-- (\{.*\}) -->$/su`. -/
def payloadJson (payload : JsString) : Option JsString :=
  if units "<!-- \x7b" <+: payload ∧ units "\x7d -->" <:+ payload ∧
      (units "<!-- \x7b\x7d -->").length ≤ payload.length then
    some ((payload.take (payload.length - (units " -->").length)).drop (units "<!-- ").length)
  else none

def parseReleaseProvenanceBlock (block : JsString) : ParsedReleaseProvenance Number :=
  let payload := JsString.trim
    ((block.take (block.length - releaseProvenanceEnd.length)).drop releaseProvenanceStart.length)
  match payloadJson payload with
  | none => .malformed "payload is not JSON"
  | some text =>
    match parse numbers text with
    | none => .malformed "payload JSON is invalid"
    | some (.object properties) =>
      if isReleaseProvenance numbers properties then .valid (.object properties) block
      else .malformed "payload shape is invalid"
    | some _ => .malformed "payload shape is invalid"

def parseReleaseProvenance (body : JsString) : ParsedReleaseProvenance Number :=
  match findReleaseProvenanceBlock body with
  | .valid block => parseReleaseProvenanceBlock numbers block
  | .absent => .absent
  | .malformed reason => .malformed reason

/-! ## Writing -/

def appendReleaseProvenance (body : JsString) (provenance : ReleaseProvenance) : Except String JsString :=
  match parseReleaseProvenance numbers body with
  | .absent =>
    let separator := if (JsString.trim body).length > 0 then units "\n\n" else []
    .ok (JsString.trimEnd body ++ separator ++ serializeReleaseProvenanceBlock numbers provenance ++ units "\n")
  | _ => .error "Release provenance already exists or is malformed."

def replaceReleaseProvenance (body : JsString) (expected : Value Number) (next : ReleaseProvenance) :
    Except String JsString :=
  match parseReleaseProvenance numbers body with
  | .valid provenance block =>
    if stringify numbers provenance ≠ stringify numbers expected then
      .error "Release provenance does not match expected state."
    else .ok (JsString.replace body block (serializeReleaseProvenanceBlock numbers next))
  | _ => .error "Release provenance is missing or malformed."

/-! ## Provenance that survives -/

/-- No provenance marker is in the text. -/
def Unmarked (text : JsString) : Prop :=
  ¬ releaseProvenanceStart <:+: text ∧ ¬ releaseProvenanceEnd <:+: text

instance (text : JsString) : Decidable (Unmarked text) := inferInstanceAs (Decidable (_ ∧ _))

/-- A dollar and a unit that `replace` takes for something else. -/
def HasReplacementPattern (text : JsString) : Prop :=
  ∃ c ∈ [unit '$', unit '&', unit '`', unit '\''], [unit '$', c] <:+: text

instance (text : JsString) : Decidable (HasReplacementPattern text) :=
  inferInstanceAs (Decidable (∃ c ∈ _, _))

def AssetChecksums.strings (checksums : AssetChecksums) : List JsString :=
  checksums.entries.flatMap fun (name, digest) => [name, digest]

def ReleaseProvenance.strings (provenance : ReleaseProvenance) : List JsString :=
  [provenance.tag, provenance.commit, provenance.tagObject, provenance.imageDigest,
    provenance.immutableImage] ++ (provenance.assetChecksums.map AssetChecksums.strings).getD []

/-- The provenance can be appended to the notes and read back. -/
def Appends (body : JsString) (provenance : ReleaseProvenance) : Prop :=
  ∃ text block, appendReleaseProvenance numbers body provenance = .ok text ∧
    parseReleaseProvenance numbers text = .valid (provenance.json numbers) block

/-- The provenance in the notes can be replaced and the new one read back, with the same text around it. -/
def Replaces (body block : JsString) (expected : Value Number) (next : ReleaseProvenance) : Prop :=
  ∃ before after block', body = before ++ block ++ after ∧
    replaceReleaseProvenance numbers body expected next = .ok (before ++ block' ++ after) ∧
    parseReleaseProvenance numbers (before ++ block' ++ after) = .valid (next.json numbers) block'

end Shape

end Staaash.Release

import Mathlib.Algebra.Ring.Nat
import Staaash.Library.JsStrings
import Staaash.Library.SemVer

/-!
# Versions

`version.ts`: reading a semantic version, and comparing two of them. What JavaScript makes of an integer as
a number is a parameter; below `2 ^ 53` it keeps the integers apart and in their order.
-/

namespace Staaash.Release

open Staaash.Library

/-! ## Reading -/

def movingVersionAliases : List JsString := [units "latest", units "main", units "master", units "edge"]

/-- `toLowerCase`, as far as it can end in one of the aliases. -/
def lowerCaseUnit (c : UInt16) : UInt16 := if unit 'A' ≤ c && c ≤ unit 'Z' then c + 32 else c

/-- `/^(0|[1-9]\d*)$/` -/
def isNumeric (part : JsString) : Bool :=
  part ≠ [] && part.all isDigit && (part.head? ≠ some (unit '0') || part.length = 1)

def isIdentifierUnit (c : UInt16) : Bool :=
  isDigit c || (unit 'A' ≤ c && c ≤ unit 'Z') || (unit 'a' ≤ c && c ≤ unit 'z') || c = unit '-'

/-- `[0-9A-Za-z-]+(?:\.[0-9A-Za-z-]+)*` -/
def isIdentifiers (text : JsString) : Bool :=
  (text.splitOn (unit '.')).all fun part => part ≠ [] && part.all isIdentifierUnit

structure SemverMatch where
  major : JsString
  minor : JsString
  patch : JsString
  prerelease : Option JsString
deriving DecidableEq, Repr

/-- `SEMVER_PATTERN.exec`: the build metadata begins at the first plus, and the pre-release at the first
dash before it. -/
def execSemverPattern (text : JsString) : Option SemverMatch :=
  let version := text.takeWhile (· ≠ unit '+')
  let build := text.dropWhile (· ≠ unit '+')
  let core := version.takeWhile (· ≠ unit '-')
  let prerelease := version.dropWhile (· ≠ unit '-')
  if (build = [] || isIdentifiers build.tail) && (prerelease = [] || isIdentifiers prerelease.tail) then
    match core.splitOn (unit '.') with
    | [major, minor, patch] =>
      if isNumeric major && isNumeric minor && isNumeric patch then
        some ⟨major, minor, patch, if prerelease = [] then none else some prerelease.tail⟩
      else none
    | _ => none
  else none

inductive PrereleasePart (Number : Type)
  | number (n : Number)
  | string (s : JsString)
deriving DecidableEq, Repr

structure ParsedSemanticVersion (Number : Type) where
  major : Number
  minor : Number
  patch : Number
  prerelease : List (PrereleasePart Number)
  normalized : JsString
deriving DecidableEq, Repr

variable {Number : Type} (ofInteger : Nat → Number)

/-- `Number.parseInt` on digits. -/
def parseInt (digits : JsString) : Number := ofInteger (decimal digits)

def parsePrereleasePart (part : JsString) : PrereleasePart Number :=
  if isNumeric part then .number (parseInt ofInteger part) else .string part

/-- `value?.trim().replace(/^v/i, "") ?? ""` -/
def trimmedVersion (value : Option JsString) : JsString :=
  match value with
  | none => []
  | some value =>
    let trimmed := JsString.trim value
    if trimmed.head? = some (unit 'v') || trimmed.head? = some (unit 'V') then trimmed.tail else trimmed

def parseSemanticVersion (value : Option JsString) : Option (ParsedSemanticVersion Number) :=
  let trimmed := trimmedVersion value
  if trimmed = [] || trimmed.map lowerCaseUnit ∈ movingVersionAliases then none
  else
    match execSemverPattern trimmed with
    | none => none
    | some found =>
      let prereleaseParts := (found.prerelease.map fun text => text.splitOn (unit '.')).getD []
      if prereleaseParts.any fun part => part ≠ [] && part.all isDigit && !isNumeric part then none
      else
        some {
          major := parseInt ofInteger found.major
          minor := parseInt ofInteger found.minor
          patch := parseInt ofInteger found.patch
          prerelease := prereleaseParts.map (parsePrereleasePart ofInteger)
          normalized := trimmed }

/-! ## Comparing -/

section Comparing

variable [LinearOrder Number]

def compareNumbers (left right : Number) : Int := if left = right then 0 else if left < right then -1 else 1

def comparePrereleaseParts (left right : PrereleasePart Number) : Int :=
  if left = right then 0
  else
    match left, right with
    | .number left, .number right => compareNumbers left right
    | .number _, .string _ => -1
    | .string _, .number _ => 1
    | .string left, .string right => if left < right then -1 else 1

def compareOptionalPrereleaseParts (left right : Option (PrereleasePart Number)) : Int :=
  match left, right with
  | none, none => 0
  | none, some _ => -1
  | some _, none => 1
  | some left, some right => comparePrereleaseParts left right

/-- The rounds of the loop from an index on. -/
def comparePartsFrom (left right : List (PrereleasePart Number)) : Nat → Nat → Int
  | 0, _ => 0
  | rounds + 1, index =>
    let comparison := compareOptionalPrereleaseParts left[index]? right[index]?
    if comparison ≠ 0 then comparison else comparePartsFrom left right rounds (index + 1)

def comparePrereleaseVersions (left right : ParsedSemanticVersion Number) : Int :=
  if left.prerelease.length = 0 then if right.prerelease.length = 0 then 0 else 1
  else if right.prerelease.length = 0 then -1
  else
    comparePartsFrom left.prerelease right.prerelease
      (max left.prerelease.length right.prerelease.length) 0

/-- The versions once both are read: the first of the numbers that differ decides. -/
def compareParsedVersions (left right : ParsedSemanticVersion Number) : Int :=
  if compareNumbers left.major right.major ≠ 0 then compareNumbers left.major right.major
  else if compareNumbers left.minor right.minor ≠ 0 then compareNumbers left.minor right.minor
  else if compareNumbers left.patch right.patch ≠ 0 then compareNumbers left.patch right.patch
  else comparePrereleaseVersions left right

def compareSemanticVersions (leftValue rightValue : JsString) : Except String Int :=
  match parseSemanticVersion ofInteger (some leftValue), parseSemanticVersion ofInteger (some rightValue) with
  | some left, some right => .ok (compareParsedVersions left right)
  | _, _ => .error "Cannot compare invalid semantic versions."

end Comparing

/-! ## Precedence -/

def PrereleasePart.identifier : PrereleasePart Nat → SemVer.Identifier JsString
  | .number n => .numeric n
  | .string s => .alphanumeric s

def ParsedSemanticVersion.version (parsed : ParsedSemanticVersion Nat) : SemVer.Version JsString :=
  ⟨parsed.major, parsed.minor, parsed.patch, parsed.prerelease.map PrereleasePart.identifier⟩

/-- The numbers are integers that JavaScript has exactly. -/
structure ParsedSemanticVersion.Exact (parsed : ParsedSemanticVersion Nat) : Prop where
  major : parsed.major < 2 ^ 53
  minor : parsed.minor < 2 ^ 53
  patch : parsed.patch < 2 ^ 53
  prerelease : ∀ n, .number n ∈ parsed.prerelease → n < 2 ^ 53

/-- A text that is accepted, with what it says when its integers are read exactly. -/
structure AcceptedVersion where
  text : JsString
  parsed : ParsedSemanticVersion Nat
  accepted : parseSemanticVersion id (some text) = some parsed
  exact : parsed.Exact

namespace AcceptedVersion

def version (v : AcceptedVersion) : SemVer.Version JsString := v.parsed.version

/-- The text without white space, the `v` and the build metadata. -/
def withoutBuild (v : AcceptedVersion) : JsString := v.parsed.normalized.takeWhile (· ≠ unit '+')

end AcceptedVersion

variable [LinearOrder Number]

def AcceptedVersion.AtMost (v w : AcceptedVersion) : Prop :=
  ∃ comparison, compareSemanticVersions ofInteger v.text w.text = .ok comparison ∧ comparison ≤ 0

/-- `.sort((left, right) => compareSemanticVersions(right.version, left.version))` -/
def newestFirst (versions : List AcceptedVersion) : List AcceptedVersion :=
  versions.mergeSort fun left right =>
    match compareSemanticVersions ofInteger right.text left.text with
    | .ok comparison => comparison ≤ 0
    | .error _ => false

/-- The comparison is the one of the precedence, and what is sorted by it does not depend on the order it
came in. -/
structure OrdersVersions : Prop where
  sign : ∀ v w : AcceptedVersion, ∃ comparison,
    compareSemanticVersions ofInteger v.text w.text = .ok comparison ∧
      (comparison < 0 ↔ v.version.Precedes w.version) ∧ (comparison = 0 ↔ v.version = w.version) ∧
      (0 < comparison ↔ w.version.Precedes v.version)
  refl : ∀ v : AcceptedVersion, compareSemanticVersions ofInteger v.text v.text = .ok 0
  antisymm : ∀ v w : AcceptedVersion, v.AtMost ofInteger w → w.AtMost ofInteger v →
    v.withoutBuild = w.withoutBuild
  trans : ∀ u v w : AcceptedVersion, u.AtMost ofInteger v → v.AtMost ofInteger w → u.AtMost ofInteger w
  total : ∀ v w : AcceptedVersion, v.AtMost ofInteger w ∨ w.AtMost ofInteger v
  newestFirst : ∀ versions versions' : List AcceptedVersion, versions.Perm versions' →
    (newestFirst ofInteger versions).map AcceptedVersion.withoutBuild =
      (newestFirst ofInteger versions').map AcceptedVersion.withoutBuild

end Staaash.Release

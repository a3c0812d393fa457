import Mathlib.Algebra.Ring.Nat
import Mathlib.Algebra.Ring.Int.Defs
import Staaash.Layout.Names
import Staaash.Library.Rounding

/-!
# Range headers

`parseSingleByteRange` of the downloads and the one of the inline media, with what `respondWithFile` puts in
the headers. A number in a header is rounded to a double. The size of the file is below `2 ^ 53`, where the
differences and sums that are taken are exact, or are cut to the file.
-/

namespace Staaash.Downloads

open Staaash.Layout (trim)
open Staaash.Library

structure ByteRange where
  start : Int
  stop : Int
deriving DecidableEq, Repr

def isDigit (c : Char) : Bool := '0' ≤ c && c ≤ '9'

/-! ## Numbers -/

def digitValue (c : Char) : Nat := c.toNat - '0'.toNat

/-- A letter of a hexadecimal number stands for its place in the alphabet and nine. -/
def radixDigit (radix : Nat) (c : Char) : Option Nat :=
  let value :=
    if isDigit c then digitValue c
    else if 'a' ≤ c ∧ c ≤ 'z' then c.toNat - 'a'.toNat + 10
    else if 'A' ≤ c ∧ c ≤ 'Z' then c.toNat - 'A'.toNat + 10
    else radix
  if value < radix then some value else none

/-- The value of a list of digits, if it has any and they all are digits. -/
def radixNumber (radix : Nat) (chars : List Char) : Option Nat :=
  if chars = [] then none
  else chars.foldlM (fun value c => (radixDigit radix c).map (value * radix + ·)) 0

def decimalValue (digits : List Char) : Nat := digits.foldl (fun value c => value * 10 + digitValue c) 0

def takeSign : List Char → Bool × List Char
  | '-' :: rest => (true, rest)
  | '+' :: rest => (false, rest)
  | rest => (false, rest)

/-- `e` and a power of ten, at the end. -/
def exponent : List Char → Option Int
  | [] => some 0
  | c :: rest =>
    let (negative, digits) := takeSign rest
    if (c = 'e' ∨ c = 'E') ∧ digits ≠ [] ∧ digits.all isDigit then
      some (if negative then -decimalValue digits else decimalValue digits)
    else none

/-- What `Number` gives. -/
inductive JsNumber
  | whole (n : Int)
  | infinite (negative : Bool)
  /-- A fraction, or no number. -/
  | other
deriving DecidableEq, Repr

def JsNumber.signed (negative : Bool) : Rounded → JsNumber
  | .whole n => .whole (if negative then -n else n)
  | .infinite => .infinite negative
  | .fraction => .other

/-- Where `Number.isInteger` holds. -/
def JsNumber.integer : JsNumber → Option Int
  | .whole n => some n
  | _ => none

/-- A decimal number with a fraction and an exponent. -/
def decimalNumber (chars : List Char) : JsNumber :=
  let (negative, rest) := takeSign chars
  if rest = "Infinity".toList then .infinite negative
  else
    let whole := rest.takeWhile isDigit
    let rest := rest.dropWhile isDigit
    let (fraction, rest) :=
      match rest with
      | '.' :: rest => (rest.takeWhile isDigit, rest.dropWhile isDigit)
      | rest => ([], rest)
    if whole = [] ∧ fraction = [] then .other
    else
      match exponent rest with
      | none => .other
      | some power =>
        let digits := decimalValue (whole ++ fraction)
        let places := power - fraction.length
        .signed negative (double.nearest (digits * 10 ^ places.toNat) (10 ^ (-places).toNat))

def radixPrefixed (radix : Nat) (digits : List Char) : JsNumber :=
  match radixNumber radix digits with
  | none => .other
  | some value => .signed false (double.nearest value 1)

/-- `Number(token)`. -/
def number (token : List Char) : JsNumber :=
  match (trim (String.ofList token)).toList with
  | [] => .whole 0
  | chars@('0' :: c :: digits) =>
    if c = 'x' ∨ c = 'X' then radixPrefixed 16 digits
    else if c = 'o' ∨ c = 'O' then radixPrefixed 8 digits
    else if c = 'b' ∨ c = 'B' then radixPrefixed 2 digits
    else decimalNumber chars
  | chars => decimalNumber chars

/-- `Math.min(value, limit)`, where it is finite. -/
def JsNumber.cutTo (limit : Int) : JsNumber → Option Int
  | .whole n => some (min n limit)
  | .infinite negative => if negative then none else some limit
  | .other => none

/-! ## The parsers -/

/-- `slice("bytes=".length).trim()`, after `startsWith("bytes=")`. -/
def requestedRange (rangeHeader : String) : Option (List Char) :=
  if "bytes=".toList <+: rangeHeader.toList then
    some (trim (String.ofList (rangeHeader.toList.drop "bytes=".length))).toList
  else none

/-- `split("-", 2)`, where it gives both tokens. -/
def splitRange (part : List Char) : Option (List Char × List Char) :=
  match part.splitOn '-' with
  | startToken :: endToken :: _ => some (startToken, endToken)
  | _ => none

namespace Download

/-- `/^\d*-\d*$/`. -/
def onlyDigits (part : List Char) : Bool :=
  match part.dropWhile isDigit with
  | '-' :: digits => digits.all isDigit
  | _ => false

/-- Past the pattern a finite number is an integer. -/
def parseSingleByteRange (rangeHeader : String) (size : Nat) : Option ByteRange := do
  let part ← requestedRange rangeHeader
  guard (onlyDigits part)
  let (s, e) ← splitRange part
  if s = [] then
    let suffix ← (number e).integer
    guard (0 < suffix)
    return ⟨max (size - suffix) 0, size - 1⟩
  let start ← (number s).integer
  guard (0 ≤ start ∧ start < size)
  let stop ← if e = [] then some ((size : Int) - 1) else (number e).cutTo (size - 1)
  guard (start ≤ stop)
  return ⟨start, stop⟩

end Download

namespace Media

structure MediaContentError where
  status : Nat
  message : String
  contentRange : String
deriving DecidableEq, Repr

def refuse (message : String) (sizeBytes : Nat) : Except MediaContentError ByteRange :=
  .error ⟨416, message, "bytes */" ++ toString sizeBytes⟩

def parseSingleByteRange (rangeHeader : String) (sizeBytes : Nat) (openEndedRangeBytes : Option Nat) :
    Except MediaContentError ByteRange :=
  match requestedRange rangeHeader with
  | none => refuse "Malformed range request." sizeBytes
  | some part =>
    if part = [] ∨ ',' ∈ part then refuse "Only a single byte range is supported." sizeBytes
    else
      match splitRange part with
      | none => refuse "Malformed range request." sizeBytes
      | some ([], endToken) =>
        match (number endToken).integer with
        | some suffixLength =>
          if 0 < suffixLength then .ok ⟨max (sizeBytes - suffixLength) 0, sizeBytes - 1⟩
          else refuse "Malformed range request." sizeBytes
        | none => refuse "Malformed range request." sizeBytes
      | some (startToken, endToken) =>
        match (number startToken).integer with
        | none => refuse "Requested range is out of bounds." sizeBytes
        | some start =>
          if start < 0 ∨ sizeBytes ≤ start then refuse "Requested range is out of bounds." sizeBytes
          else if endToken = [] then
            .ok ⟨start, min (start + (openEndedRangeBytes.getD sizeBytes : Nat) - 1) (sizeBytes - 1)⟩
          else
            match (number endToken).integer with
            | none => refuse "Malformed range request." sizeBytes
            | some requestedEnd =>
              if requestedEnd < start then refuse "Malformed range request." sizeBytes
              else .ok ⟨start, min requestedEnd (sizeBytes - 1)⟩

end Media

/-! ## What is answered -/

structure RangeHeaders where
  status : Nat
  contentLength : Option String
  contentRange : Option String
deriving DecidableEq, Repr

/-- `respondWithFile`: no range asked for, one that cannot be served, or one that can. -/
def respondWithFile (sizeBytes : Nat) : Option (Option ByteRange) → RangeHeaders
  | none => ⟨200, some (toString sizeBytes), none⟩
  | some none => ⟨416, none, some ("bytes */" ++ toString sizeBytes)⟩
  | some (some range) =>
    ⟨206, some (toString (range.stop - range.start + 1)),
      some ("bytes " ++ toString range.start ++ "-" ++ toString range.stop ++ "/" ++ toString sizeBytes)⟩

/-! ## What is asked for -/

/-- A number in decimal digits. -/
structure Digits where
  chars : List Char
  nonempty : chars ≠ []
  digits : ∀ c ∈ chars, isDigit c = true

def Digits.value (d : Digits) : Nat := decimalValue d.chars

/-- The number is not rounded. -/
def Digits.Exact (d : Digits) : Prop := d.value < 2 ^ 53

inductive Asked
  | between (first last : Digits)
  | from (first : Digits)
  | suffix (length : Digits)

namespace Asked

def text : Asked → List Char
  | .between first last => first.chars ++ '-' :: last.chars
  | .from first => first.chars ++ ['-']
  | .suffix length => '-' :: length.chars

def Exact : Asked → Prop
  | .between first last => first.Exact ∧ last.Exact
  | .from first => first.Exact
  | .suffix length => length.Exact

/-- The bytes of the file that are asked for, if there are any. -/
def selected (size : Nat) : Asked → Option ByteRange
  | .between first last =>
    if first.value ≤ last.value ∧ first.value < size then
      some ⟨first.value, min last.value (size - 1)⟩
    else none
  | .from first => if first.value < size then some ⟨first.value, size - 1⟩ else none
  | .suffix length =>
    if 0 < length.value ∧ 0 < size then some ⟨max (size - length.value) 0, size - 1⟩ else none

variable {size : Nat} {first last length : Digits}

theorem selected_between : (between first last).selected size =
    if first.value ≤ last.value ∧ first.value < size then some ⟨first.value, min last.value (size - 1)⟩
    else none := rfl

theorem selected_from : (Asked.from first).selected size =
    if first.value < size then some ⟨first.value, size - 1⟩ else none := rfl

theorem selected_suffix : (suffix length).selected size =
    if 0 < length.value ∧ 0 < size then some ⟨max (size - length.value) 0, size - 1⟩ else none := rfl

/-- The header asks for it, perhaps with white space around. -/
def In (asked : Asked) (rangeHeader : String) : Prop :=
  ∃ before after : List Char, rangeHeader.toList = "bytes=".toList ++ (before ++ asked.text ++ after) ∧
    (∀ c ∈ before, Layout.isWhiteSpace c = true) ∧ ∀ c ∈ after, Layout.isWhiteSpace c = true

end Asked

/-- The range is one of bytes of the file. -/
def ByteRange.Within (range : ByteRange) (size : Nat) : Prop :=
  0 ≤ range.start ∧ range.start ≤ range.stop ∧ range.stop < size

end Staaash.Downloads

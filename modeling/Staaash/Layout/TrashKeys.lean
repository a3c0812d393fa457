import Staaash.Layout.Keys
import Staaash.Layout.Names

/-!
# Trash keys

`buildIsolatedTrashStorageKey`: what is trashed gets a component of its own, with the time, as much of its
name as fits and the number that its trash entry's id is.
-/

namespace Staaash.Layout

open Staaash.Library
open Staaash.Planner (ItemType)

/-! ## Times and ids -/

/-- A `Date` by its fields in UTC. -/
structure UtcDate where
  year : Int
  month : Nat
  day : Nat
  hours : Nat
  minutes : Nat
  seconds : Nat
  milliseconds : Nat
  year_le : year.natAbs ≤ 275760
  month_le : month ≤ 12
  day_le : day ≤ 31
  hours_lt : hours < 24
  minutes_lt : minutes < 60
  seconds_lt : seconds < 60
  milliseconds_lt : milliseconds < 1000
deriving DecidableEq, Repr

/-- The digits of a number, with zeros in front up to a width. -/
def padStart (width n : Nat) : List Char := (Nat.toDigits 10 n).leftpad width '0'

def isoYear (year : Int) : List Char :=
  if 0 ≤ year ∧ year ≤ 9999 then padStart 4 year.toNat
  else (if year < 0 then '-' else '+') :: padStart 6 year.natAbs

def UtcDate.toISOString (date : UtcDate) : List Char :=
  isoYear date.year ++ '-' :: padStart 2 date.month ++ '-' :: padStart 2 date.day ++
    'T' :: padStart 2 date.hours ++ ':' :: padStart 2 date.minutes ++ ':' :: padStart 2 date.seconds ++
    '.' :: padStart 3 date.milliseconds ++ ['Z']

def UtcDate.FourDigitYear (date : UtcDate) : Prop := 0 ≤ date.year ∧ date.year ≤ 9999

/-- `replace` with a pattern of one character: the first one is replaced. -/
def replaceFirst (pattern : Char) (replacement : List Char) : List Char → List Char
  | [] => []
  | c :: rest => if c = pattern then replacement ++ rest else c :: replaceFirst pattern replacement rest

/-- `replaceAll` with a pattern of one character. -/
def replaceAll (pattern replacement : Char) (chars : List Char) : List Char :=
  chars.map fun c => if c = pattern then replacement else c

def trashTimestamp (deletedAt : UtcDate) : String :=
  String.ofList (replaceFirst 'Z' " UTC".toList
    (replaceAll ':' '-' (replaceFirst 'T' " ".toList deletedAt.toISOString)))

def isHexDigit (c : Char) : Bool := c.isDigit || ('a' ≤ c && c ≤ 'f')

def hexDigitValue (c : Char) : Nat := if c.isDigit then c.toNat - 48 else c.toNat - 87

/-- A UUID as `randomUUID` and `deterministicUuid` write it. -/
structure Uuid where
  text : String
  groups : (text.toList.splitOn '-').map List.length = [8, 4, 4, 4, 12]
  digits : ∀ c ∈ text.toList, c = '-' ∨ isHexDigit c = true
deriving DecidableEq, Repr

/-- `BigInt` of the digits, with `0x` in front and the dashes left out. -/
def Uuid.toBigInt (id : Uuid) : Nat :=
  (id.text.toList.filter (· ≠ '-')).foldl (fun n c => 16 * n + hexDigitValue c) 0

/-! ## Keys -/

def truncateStorageComponentName (name : String) (maxBytes : Nat) (preserveExtension : Bool) : String :=
  if name.utf8ByteSize ≤ maxBytes then name
  else
    let extension := if preserveExtension then extname name else ""
    if extension ≠ "" ∧ extension.utf8ByteSize < maxBytes then
      takeUtf8Bytes (sliceOff name extension) (maxBytes - extension.utf8ByteSize) ++ extension
    else takeUtf8Bytes name maxBytes

def trashFolder (kind : ItemType) : String :=
  match kind with
  | .file => "files"
  | .folder => "folders"

structure TrashCall where
  ownerStorageId : String
  kind : ItemType
  name : String
  deletedAt : UtcDate
  trashEntryId : Uuid

namespace TrashCall

variable (call : TrashCall)

def collisionSuffix : String := " (" ++ (toString call.trashEntryId.toBigInt ++ ")")

/-- The `prefix` of the component. -/
def front : String := trashTimestamp call.deletedAt ++ " - "

def safeName : String :=
  truncateStorageComponentName call.name
    (maxFilesystemComponentBytes - call.front.utf8ByteSize - call.collisionSuffix.utf8ByteSize)
    (call.kind = .file)

def component : String := call.front ++ call.safeName ++ call.collisionSuffix

def buildIsolatedTrashStorageKey : String :=
  posixJoin [".trash", call.ownerStorageId, trashFolder call.kind, call.component]

/-- The key lies in the owner's trash folder for the kind, in a component that a file system can hold. -/
structure Fits : Prop where
  segments : PosixPath.segments call.buildIsolatedTrashStorageKey.toList =
    [".trash".toList, call.ownerStorageId.toList, (trashFolder call.kind).toList, call.component.toList]
  plain : PosixPath.Plain call.component.toList
  bytes : call.component.utf8ByteSize ≤ maxFilesystemComponentBytes

end TrashCall

/-- Keys fit for every name that came out of the check, and no two trash entries have one. -/
structure TrashKeysSafe : Prop where
  fits : ∀ call : TrashCall, PosixPath.Plain call.ownerStorageId.toList → call.deletedAt.FourDigitYear →
    (∃ raw, validateSegment raw call.kind = .ok call.name) → call.Fits
  injective : ∀ call call' : TrashCall,
    call.buildIsolatedTrashStorageKey = call'.buildIsolatedTrashStorageKey →
      call.trashEntryId = call'.trashEntryId

end Staaash.Layout

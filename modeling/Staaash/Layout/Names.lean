import Staaash.Library.PosixPath
import Staaash.Library.Utf8
import Staaash.Planner.Types

/-!
# Names

`normalizeFolderName` and `normalizeFileName` of `storage-layout.ts`: a name is trimmed and then checked,
but for the last character, which is looked at before the trimming. `buildSafeRenamedFileName` of `uploads.ts`: a
taken name gets a number before its extension, and as much of the rest as fits.
-/

namespace Staaash.Layout

open Staaash.Library
open Staaash.Planner (ItemType)

/-- What `String.prototype.trim` takes away. -/
def isWhiteSpace (c : Char) : Bool :=
  c ∈ ['\t', '\n', '\u000b', '\u000c', '\r', ' ', '\u00a0', '\u1680', '\u2028', '\u2029', '\u202f', '\u205f',
    '\u3000', '\ufeff'] || ('\u2000' ≤ c && c ≤ '\u200a')

def trim (raw : String) : String :=
  String.ofList ((raw.toList.dropWhile isWhiteSpace).reverse.dropWhile isWhiteSpace).reverse

def reservedWindowsNames : List String :=
  ["CON", "PRN", "AUX", "NUL", "COM1", "COM2", "COM3", "COM4", "COM5", "COM6", "COM7", "COM8", "COM9",
    "LPT1", "LPT2", "LPT3", "LPT4", "LPT5", "LPT6", "LPT7", "LPT8", "LPT9", ".", ".."]

def invalidSegmentCharacters : List Char := ['\u0000', '\\', '/', '<', '>', ':', '"', '|', '?', '*']

def maxFilesystemComponentBytes : Nat := 255

inductive SegmentError
  | required
  | invalidCharacter
  | tooLong
  | trailingSpaceOrDot
  | reserved
deriving DecidableEq, Repr

/-- `value.split(".")[0]?.toUpperCase()`. No character other than a small letter of ASCII becomes one of
the letters of the reserved names. -/
def reservedCandidate (value : String) : String :=
  String.ofList ((value.toList.takeWhile (· ≠ '.')).map Char.toUpper)

def findSegmentError (rawValue value : String) : Option SegmentError :=
  if value.toList = [] then some .required
  else if value.toList.any (· ∈ invalidSegmentCharacters) then some .invalidCharacter
  else if value.utf8ByteSize > maxFilesystemComponentBytes then some .tooLong
  else if rawValue.toList.getLast?.any (· ∈ [' ', '.']) then some .trailingSpaceOrDot
  else if reservedCandidate value ∈ reservedWindowsNames then some .reserved
  else none

def segmentErrorCodes (kind : ItemType) (error : SegmentError) : String :=
  (match kind with
    | .file => "FILE_NAME_"
    | .folder => "FOLDER_NAME_") ++
  match error with
  | .required => "REQUIRED"
  | .invalidCharacter => "INVALID_CHARACTER"
  | .tooLong => "TOO_LONG"
  | .trailingSpaceOrDot => "TRAILING_SPACE_OR_DOT"
  | .reserved => "RESERVED"

/-- The code of the `FilesError`, or the name. -/
def validateSegment (rawValue : String) (kind : ItemType) : Except String String :=
  let value := trim rawValue
  match findSegmentError rawValue value with
  | some error => .error (segmentErrorCodes kind error)
  | none => .ok value

def normalizeFolderName (value : String) : Except String String := validateSegment value .folder

def normalizeFileName (value : String) : Except String String := validateSegment value .file

/-! ## Renaming -/

/-- A limit below zero takes nothing, as zero does. -/
def takeUtf8Bytes (value : String) (maxBytes : Nat) : String := String.ofList (takeBytes maxBytes 0 value.toList)

/-- `path.extname`. -/
def extname (name : String) : String := String.ofList (PosixPath.extname name.toList)

/-- `value.slice(0, -suffix.length)`. -/
def sliceOff (value suffix : String) : String :=
  String.ofList (value.toList.take (value.toList.length - suffix.toList.length))

structure SplitFileName where
  baseName : String
  extension : String
deriving DecidableEq, Repr

def splitFileName (name : String) : SplitFileName :=
  let extension := extname name
  ⟨if extension = "" then name else sliceOff name extension, extension⟩

def renameSuffix (name : String) (attempt : Nat) : String :=
  " (" ++ (toString attempt ++ (")" ++ (splitFileName name).extension))

def renamedCandidate (name : String) (attempt : Nat) : String :=
  let suffix := renameSuffix name attempt
  takeUtf8Bytes (splitFileName name).baseName (maxFilesystemComponentBytes - suffix.utf8ByteSize) ++ suffix

/-- The attempts from a number on. -/
def tryRenamed (name : String) (takenNames : List String) : Nat → Nat → Except String String
  | 0, _ => .error "Unable to generate a safe renamed filename."
  | remaining + 1, attempt =>
    let candidate := renamedCandidate name attempt
    if candidate ∈ takenNames then tryRenamed name takenNames remaining (attempt + 1) else .ok candidate

def buildSafeRenamedFileName (originalName : String) (existingNames : List String) : Except String String :=
  if originalName ∈ existingNames then tryRenamed originalName existingNames 9999 1 else .ok originalName

/-! ## Safe names -/

/-- A name that came out of the check comes out of it again, and so does what it is renamed to. -/
structure NamesSafe (name : String) (existingNames : List String) : Prop where
  fileName : normalizeFileName name = .ok name
  folderName : normalizeFolderName name = .ok name
  renamed : ∀ result, buildSafeRenamedFileName name existingNames = .ok result →
    result ∉ existingNames ∧ result.utf8ByteSize ≤ maxFilesystemComponentBytes ∧
      normalizeFileName result = .ok result
  same : buildSafeRenamedFileName name existingNames = .ok name ↔ name ∉ existingNames
  throws : ∀ error, buildSafeRenamedFileName name existingNames = .error error →
    ∀ attempt, 1 ≤ attempt → attempt < 10000 → renamedCandidate name attempt ∈ existingNames

/-- The first number whose name is free. -/
structure FirstFree (name : String) (existingNames : List String) (attempt : Nat) : Prop where
  pos : 1 ≤ attempt
  lt : attempt < 10000
  free : renamedCandidate name attempt ∉ existingNames
  taken : ∀ earlier, 1 ≤ earlier → earlier < attempt → renamedCandidate name earlier ∈ existingNames

/-- A character of the name fits before the number and the extension. -/
def Fits (name : String) (attempt : Nat) : Prop :=
  (name.toList.headD ' ').utf8Size + (renameSuffix name attempt).utf8ByteSize ≤ maxFilesystemComponentBytes

end Staaash.Layout

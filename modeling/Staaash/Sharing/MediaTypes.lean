import Staaash.Layout.Names

/-!
# Media types

Which kind of viewer a file has, and whether a browser may show what a link serves inline. Only small and
capital letters of ASCII matter to the comparisons.
-/

namespace Staaash.Sharing

open Staaash.Layout (trim)

inductive ViewerKind
  | image
  | video
  | audio
  | pdf
  | text
deriving DecidableEq, Repr

def VIEWER_MIME_PREFIXES : List (String × ViewerKind) :=
  [("image/", .image), ("video/", .video), ("audio/", .audio), ("application/pdf", .pdf), ("text/", .text)]

def heicMimeTypes : List String := ["image/heic", "image/heif", "image/heic-sequence", "image/heif-sequence"]

def lower (value : List Char) : List Char := value.map Char.toLower

/-- `heicNamePattern`. -/
def hasHeicName (name : String) : Bool :=
  [".heic", ".heif"].any fun ending => ending.toList.isSuffixOf (lower name.toList)

def normalizeMimeType (mimeType : String) : List Char :=
  lower (trim (String.ofList (mimeType.toList.takeWhile (· ≠ ';')))).toList

def isHeicFile (mimeType name : String) : Bool :=
  let mime := normalizeMimeType mimeType
  heicMimeTypes.any (·.toList = mime) ||
    !(VIEWER_MIME_PREFIXES.any fun (start, _) => start.toList.isPrefixOf mime) && hasHeicName name

def resolveViewerKind (mimeType name : String) : Option ViewerKind :=
  match VIEWER_MIME_PREFIXES.find? fun (start, _) => start.toList.isPrefixOf (normalizeMimeType mimeType) with
  | some (_, kind) => some kind
  | none => if hasHeicName name then some .image else none

/-! ## The pattern of a media type -/

/-- `MIME_TOKEN`. -/
def isTokenCharacter (c : Char) : Bool := c.isAlphanum || "!#$%&'*+-.^_`|~".toList.contains c

def token (value : List Char) : Option (List Char × List Char) :=
  match value.span isTokenCharacter with
  | ([], _) => none
  | found => some found

def skipBlanks (value : List Char) : List Char := value.dropWhile fun c => c = ' ' || c = '\t'

/-- What is left after a `MIME_QUOTED_VALUE` that has been opened. -/
def afterQuoted : List Char → Option (List Char)
  | [] => none
  | '"' :: rest => some rest
  | '\\' :: c :: rest => if c = '\t' || (' ' ≤ c && c ≤ '~') then afterQuoted rest else none
  | c :: rest => if c = '\t' || (' ' ≤ c && c ≤ '~' && c ≠ '\\') then afterQuoted rest else none

/-- The parameters up to the end. Each round takes a character at least. -/
def areParameters : Nat → List Char → Bool
  | 0, _ => false
  | n + 1, value =>
    match skipBlanks value with
    | [] => true
    | ';' :: rest => (token (skipBlanks rest)).any fun (_, rest) =>
      match skipBlanks rest with
      | '=' :: rest =>
        match skipBlanks rest with
        | '"' :: rest => (afterQuoted rest).any (areParameters n)
        | rest => (token rest).any fun (_, rest) => areParameters n rest
      | _ => false
    | _ => false

def normalizePublicShareMimeType (mimeType : String) : Option (List Char) :=
  if mimeType.toList.any fun c => c = '\r' || c = '\n' then none
  else (token (trim mimeType).toList).bind fun (type, rest) =>
    match rest with
    | '/' :: rest => (token rest).bind fun (subtype, rest) =>
      if areParameters (rest.length + 1) rest then some (lower type ++ '/' :: lower subtype) else none
    | _ => none

def PUBLIC_SHARE_SAFE_INLINE_MIME_TYPES : List String :=
  ["application/pdf", "audio/flac", "audio/mp4", "audio/mpeg", "audio/ogg", "audio/wav", "audio/webm",
    "image/avif", "image/bmp", "image/gif", "image/jpeg", "image/png", "image/webp", "text/plain",
    "video/mp4", "video/ogg", "video/webm"]

def getPublicShareSafeInlineMimeType (mimeType : String) : Option String :=
  (normalizePublicShareMimeType mimeType).bind fun normalized =>
    PUBLIC_SHARE_SAFE_INLINE_MIME_TYPES.find? (·.toList = normalized)

def isPublicShareMimeSafeInline (mimeType : String) : Bool := (getPublicShareSafeInlineMimeType mimeType).isSome

def getPublicShareResponseMimeType (mimeType : String) : String :=
  ((normalizePublicShareMimeType mimeType).map String.ofList).getD "application/octet-stream"

/-- With the `safeInlineMimeType` of a preview. -/
def isPublicShareFileNativeViewSafe (mimeType name : String) (preview : Option (Option String)) : Bool :=
  match resolveViewerKind mimeType name, preview with
  | some .video, some safeInlineMimeType => safeInlineMimeType.any isPublicShareMimeSafeInline
  | viewerKind, _ =>
    isPublicShareMimeSafeInline
      (if viewerKind = some .image && isHeicFile mimeType name then "image/jpeg"
        else getPublicShareResponseMimeType mimeType)

example : isPublicShareFileNativeViewSafe "text/plain; charset=utf-8" "notes.txt" none = true := by decide

end Staaash.Sharing

import Mathlib.Data.List.Basic
import Mathlib.Algebra.Ring.Nat

/-!
# Paths inside a pair

A path is written as the app writes it, with `/` between names and no leading `/`. The walk from a
path up to the pair's folder, which the planner uses everywhere, is the list `upwards`.
-/

namespace Staaash.Planner

/-- A path inside a pair, or a key of one, as a sequence of characters. -/
abbrev Rel := List Char

/-- What a computer does to names. Unicode normalisation and lower-casing are the runtime's own. -/
structure Platform where
  /-- Windows and macOS file systems ignore case by default. -/
  caseInsensitive : Bool
  /-- `String.prototype.normalize("NFC")`. -/
  normalizeNfc : Rel → Rel
  /-- `String.prototype.toLowerCase()`. -/
  toLowerCase : Rel → Rel

/-- The key two paths collide on: NFC, and folded case where the disk folds it. -/
def Platform.pathKey (P : Platform) (rel : Rel) : Rel :=
  let nfc := P.normalizeNfc rel
  if P.caseInsensitive then P.toLowerCase nfc else nfc

def joinRel (parent name : Rel) : Rel := if parent = [] then name else parent ++ '/' :: name

/-- The folder a path lies in, empty for a path directly in the pair's folder. -/
def parentRel (rel : Rel) : Rel := ((rel.reverse.dropWhile (· ≠ '/')).drop 1).reverse

/-- The last name of a path. -/
def baseName (rel : Rel) : Rel := (rel.reverse.takeWhile (· ≠ '/')).reverse

/-- The number of names in a path. -/
def depth (rel : Rel) : Nat := (rel.splitOn '/').length

/-- `for (let each = rel; each; each = parentRel(each))`, at most `n` rounds. -/
def upwardsFrom : Nat → Rel → List Rel
  | 0, _ => []
  | n + 1, rel => if rel = [] then [] else rel :: upwardsFrom n (parentRel rel)

/-- The path and the folders above it, innermost first. Every round drops at least one character,
so the length of the path bounds the rounds. -/
def upwards (rel : Rel) : List Rel := upwardsFrom rel.length rel

/-- `key` lies strictly below the folder `folder`. -/
def Below (folder key : Rel) : Prop := ∃ rest, key = folder ++ '/' :: rest

instance (folder key : Rel) : Decidable (Below folder key) :=
  decidable_of_iff ((folder ++ ['/']) <+: key) <| by
    simp only [Below, List.IsPrefix, List.append_assoc, List.cons_append, List.nil_append, eq_comm]

/-! ## Names that a computer cannot hold -/

/-- `/[<>:"\\|?*]/`. -/
def WINDOWS_BAD_CHARS : List Char := "<>:\"\\|?*".toList

/-- Control characters are invalid in Windows names. -/
def hasControlCharacter (name : Rel) : Bool := name.any fun c => c.toNat < 32

/-- The device names: the ones with a number after them, and the ones without. -/
def isWindowsDevice (name : Rel) : Bool :=
  let lower := name.map Char.toLower
  lower ∈ ["con".toList, "prn".toList, "aux".toList, "nul".toList] ||
    (lower.take 3 ∈ ["com".toList, "lpt".toList] && lower.length = 4 &&
      (lower.drop 3).all fun c => c ∈ "0123456789¹²³".toList)

/-- `.` in a regular expression does not match these. -/
def isLineTerminator (c : Char) : Bool := c ∈ ['\n', '\r', '\u2028', '\u2029']

/-- `WINDOWS_RESERVED`: a device name, alone or with an extension. -/
def isWindowsReserved (name : Rel) : Bool :=
  isWindowsDevice (name.takeWhile (· ≠ '.')) &&
    (name.dropWhile (· ≠ '.')).all fun c => !isLineTerminator c

/-- `Buffer.byteLength(name)`. -/
def byteLength (name : Rel) : Nat := (name.map Char.utf8Size).sum

/-- Why a computer cannot hold the name, if it cannot. -/
def invalidNameReason (windows : Bool) (name : Rel) : Option String :=
  if windows && (name.any (· ∈ WINDOWS_BAD_CHARS) || hasControlCharacter name) then
    some "Windows does not allow < > : \" \\ | ? * in names."
  else if windows && (name.getLast? = some '.' || name.getLast? = some ' ') then
    some "Windows does not allow names ending in a dot or space."
  else if windows && isWindowsReserved name then
    some "Windows reserves this name."
  else if byteLength name > 255 then some "The name is too long."
  else none

end Staaash.Planner

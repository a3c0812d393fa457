import Mathlib.Data.List.Infix
import Mathlib.Algebra.BigOperators.Group.List.Basic
import Mathlib.Algebra.Ring.Nat

/-!
# Text cut by its bytes

The length of a text in UTF-8, and the longest beginning of whole characters that stays within a limit.
-/

namespace Staaash.Library

variable {chars other : List Char} {c : Char} {maxBytes usedBytes : Nat}

/-- The bytes that characters take in UTF-8. -/
def utf8Bytes (chars : List Char) : Nat := (chars.map Char.utf8Size).sum

@[simp] theorem utf8Bytes_nil : utf8Bytes [] = 0 := rfl

@[simp] theorem utf8Bytes_cons : utf8Bytes (c :: chars) = c.utf8Size + utf8Bytes chars := by
  simp [utf8Bytes]

@[simp] theorem utf8Bytes_append : utf8Bytes (chars ++ other) = utf8Bytes chars + utf8Bytes other := by
  simp [utf8Bytes]

theorem utf8ByteSize_ofList (chars : List Char) : (String.ofList chars).utf8ByteSize = utf8Bytes chars := by
  induction chars with
  | nil => rfl
  | cons c chars ih =>
    have hsplit : String.ofList (c :: chars) = String.singleton c ++ String.ofList chars := by
      rw [← String.toList_inj]
      simp
    rw [hsplit, String.utf8ByteSize_append, String.utf8ByteSize_singleton, ih, utf8Bytes_cons]

theorem utf8ByteSize_eq (s : String) : s.utf8ByteSize = utf8Bytes s.toList := by
  rw [← utf8ByteSize_ofList, String.ofList_toList]

/-- The characters that fit after some bytes are used. -/
def takeBytes (maxBytes : Nat) : Nat → List Char → List Char
  | _, [] => []
  | usedBytes, c :: rest =>
    if usedBytes + c.utf8Size > maxBytes then [] else c :: takeBytes maxBytes (usedBytes + c.utf8Size) rest

theorem takeBytes_isPrefix (maxBytes usedBytes : Nat) (chars : List Char) :
    takeBytes maxBytes usedBytes chars <+: chars := by
  induction chars generalizing usedBytes with
  | nil => exact List.nil_prefix
  | cons c rest ih =>
    unfold takeBytes
    split
    · exact List.nil_prefix
    · exact List.cons_prefix_cons.2 ⟨rfl, ih _⟩

theorem takeBytes_le (h : usedBytes ≤ maxBytes) (chars : List Char) :
    usedBytes + utf8Bytes (takeBytes maxBytes usedBytes chars) ≤ maxBytes := by
  induction chars generalizing usedBytes with
  | nil => simpa [takeBytes] using h
  | cons c rest ih =>
    unfold takeBytes
    split
    · simpa using h
    · have := @ih (usedBytes + c.utf8Size) (by omega)
      rw [utf8Bytes_cons]
      omega

/-- Whether anything fits is a question of the first character. -/
theorem takeBytes_cons_eq_nil : takeBytes maxBytes usedBytes (c :: chars) = [] ↔
    maxBytes < usedBytes + c.utf8Size := by
  unfold takeBytes
  split
  · simpa
  · simp only [reduceCtorEq, false_iff]
    omega

end Staaash.Library

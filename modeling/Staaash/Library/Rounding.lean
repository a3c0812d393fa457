import Mathlib.Algebra.Order.Ring.Nat

/-!
# Rounding to floating-point numbers

A fraction is rounded to the nearest floating-point number, ties to the even one. Numbers are counted in units
of the least positive one, so that all of it is arithmetic of natural numbers.
-/

namespace Staaash.Library

/-- The numbers have `digits` binary digits, the least one is `2 ^ -lowest`, and all are below `2 ^ top`. -/
structure FloatFormat where
  digits : Nat
  lowest : Nat
  top : Nat
  digits_pos : 0 < digits
  digits_le : digits ≤ top
deriving DecidableEq, Repr

/-- What a number is rounded to. -/
inductive Rounded
  | whole (n : Nat)
  | fraction
  | infinite
deriving DecidableEq, Repr

/-- The quotient, rounded to the nearest whole number. -/
def roundEven (num den : Nat) : Nat :=
  let q := num / den
  let r := num % den
  if 2 * r < den then q else if den < 2 * r then q + 1 else q + q % 2

theorem roundEven_mul (q : Nat) {den : Nat} (hden : 0 < den) : roundEven (q * den) den = q := by
  unfold roundEven
  rw [Nat.mul_div_cancel q hden, Nat.mul_mod_left]
  exact if_pos hden

namespace FloatFormat

/-- The bits below the last digit of a number, which is counted in units. -/
def spare (format : FloatFormat) (units : Nat) : Nat := Nat.log2 units + 1 - format.digits

/-- The nearest number, in units, without an upper limit. -/
def nearestUnits (format : FloatFormat) (num den : Nat) : Nat :=
  let scaled := num * 2 ^ format.lowest
  let last := 2 ^ format.spare (scaled / den)
  roundEven scaled (den * last) * last

def nearest (format : FloatFormat) (num den : Nat) : Rounded :=
  let units := format.nearestUnits num den
  if 2 ^ (format.lowest + format.top) ≤ units then .infinite
  else if units % 2 ^ format.lowest = 0 then .whole (units / 2 ^ format.lowest)
  else .fraction

variable {format : FloatFormat} {n : Nat}

theorem spare_le (hn : n < 2 ^ format.digits) : format.spare (n * 2 ^ format.lowest) ≤ format.lowest := by
  have hpos := format.digits_pos
  unfold spare
  by_cases hzero : n * 2 ^ format.lowest = 0
  · rw [hzero, Nat.log2_zero]
    omega
  · have hlog : Nat.log2 (n * 2 ^ format.lowest) < format.digits + format.lowest := by
      rw [Nat.log2_lt hzero, Nat.pow_add]
      exact Nat.mul_lt_mul_of_pos_right hn (Nat.two_pow_pos _)
    omega

theorem nearestUnits_of_lt (hn : n < 2 ^ format.digits) : format.nearestUnits n 1 = n * 2 ^ format.lowest := by
  have hk := spare_le hn
  unfold nearestUnits
  dsimp only
  rw [Nat.div_one, Nat.one_mul]
  generalize format.spare (n * 2 ^ format.lowest) = k at hk
  have hsplit : n * 2 ^ format.lowest = n * 2 ^ (format.lowest - k) * 2 ^ k := by
    rw [Nat.mul_assoc, ← Nat.pow_add, Nat.sub_add_cancel hk]
  rw [hsplit, roundEven_mul _ (Nat.two_pow_pos k)]

/-- Whole numbers that have few enough digits are not rounded. -/
theorem nearest_of_lt (hn : n < 2 ^ format.digits) : format.nearest n 1 = .whole n := by
  have hlimit : n * 2 ^ format.lowest < 2 ^ (format.lowest + format.top) := by
    rw [Nat.add_comm, Nat.pow_add]
    have hle : 2 ^ format.digits ≤ 2 ^ format.top := Nat.pow_le_pow_right (by decide) format.digits_le
    exact Nat.mul_lt_mul_of_pos_right (Nat.lt_of_lt_of_le hn hle) (Nat.two_pow_pos _)
  unfold nearest
  rw [nearestUnits_of_lt hn]
  dsimp only
  rw [if_neg (Nat.not_le.mpr hlimit), if_pos (Nat.mul_mod_left _ _), Nat.mul_div_cancel _ (Nat.two_pow_pos _)]

end FloatFormat

/-- Of 64 bits. -/
def double : FloatFormat := ⟨53, 1074, 1024, by decide, by decide⟩

end Staaash.Library

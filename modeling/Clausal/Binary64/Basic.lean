/-!
# Binary64 numbers

A 64-bit word read as a sign, an exponent of 11 bits and a fraction of 52 bits. Every finite number
is a whole multiple of the least positive one, 2 ^ -1074. So a finite number is a sign and a count
of these *units*, the order is that of the counts, and sums, products and quotients are exact
fractions of units which `round` takes to the nearest number. No arithmetic is done in hardware.
-/

namespace Clausal

/-- A binary64 number, by its bits. -/
structure Binary64 where
  bits : UInt64
  deriving DecidableEq

namespace Binary64

/-- The exponent field of infinity and of what is not a number. -/
def topExponent : Nat := 2047

def signBit : Nat := 0x8000000000000000

/-- The bit above those of the fraction. -/
def leadingBit : Nat := 0x10000000000000

/-- How many units make 1. -/
def unitsPerOne : Nat := 1 <<< 1074

def isNegative (x : Binary64) : Bool := signBit ≤ x.bits.toNat

/-- The bits without the sign. -/
def magnitude (x : Binary64) : Nat := x.bits.toNat % signBit

def exponent (x : Binary64) : Nat := x.magnitude / leadingBit

def fraction (x : Binary64) : Nat := x.magnitude % leadingBit

def isNaN (x : Binary64) : Bool := x.exponent == topExponent && x.fraction != 0

def isFinite (x : Binary64) : Bool := x.exponent != topExponent

/-- How many doublings lie between a unit and the last place of a number. -/
def scale (x : Binary64) : Nat := x.exponent - 1

/-- The digits of a number in its last place: the fraction, with the leading bit that an exponent
field above zero implies. -/
def significand (x : Binary64) : Nat :=
  if x.exponent = 0 then x.fraction else leadingBit + x.fraction

/-- The absolute value in units. For infinity this is more than for any finite number. -/
def count (x : Binary64) : Nat := x.significand <<< x.scale

/-- The value in units. -/
def units (x : Binary64) : Int := if x.isNegative then -(x.count : Int) else x.count

/-- The order of the values. What is not a number is in order with nothing, itself included. -/
instance : LE Binary64 := ⟨fun x y => ¬x.isNaN ∧ ¬y.isNaN ∧ x.units ≤ y.units⟩

instance (x y : Binary64) : Decidable (x ≤ y) :=
  inferInstanceAs (Decidable (_ ∧ _ ∧ _))

/-- Equality of the values: both zeros are equal, and what is not a number equals nothing. -/
instance : BEq Binary64 := ⟨fun x y => !x.isNaN && !y.isNaN && x.units == y.units⟩

def ofMagnitude (negative : Bool) (magnitude : Nat) : Binary64 :=
  ⟨UInt64.ofNat ((if negative then signBit else 0) + magnitude)⟩

def infinity : Nat := topExponent * leadingBit

/-- A quotient rounded to the nearest whole number, a half to the even one. -/
def roundHalfEven (num den : Nat) : Nat :=
  let q := num / den
  let r := num % den
  if 2 * r < den then q else if den < 2 * r then q + 1 else q + q % 2

/-- The number nearest to a fraction of units, of two as near the one with an even significand. The
magnitude is the significand, with the scale added in the exponent field: a significand rounded up
to twice the leading bit carries into that field by itself. -/
def round (negative : Bool) (num den : Nat) : Binary64 :=
  let scale := (num / den).log2 - 52
  let significand := roundHalfEven num (den <<< scale)
  ofMagnitude negative (min (scale * leadingBit + significand) infinity)

def nan : Binary64 := ofMagnitude false (infinity + leadingBit / 2)

def zero : Binary64 := ofMagnitude false 0

def negativeZero : Binary64 := ofMagnitude true 0

def one : Binary64 := round false unitsPerOne 1

/-- The sum of two finite numbers, rounded. A sum of exactly zero is negative only if both are. -/
def add (x y : Binary64) : Binary64 :=
  if x.isFinite && y.isFinite then
    let sum := x.units + y.units
    let negative := if sum = 0 then x.isNegative && y.isNegative else sum < 0
    round negative sum.natAbs 1
  else nan

def mul (x y : Binary64) : Binary64 :=
  if x.isFinite && y.isFinite then
    round (x.isNegative != y.isNegative) (x.count * y.count) unitsPerOne
  else nan

/-- The quotient of a finite number by a positive whole number, rounded. -/
def divNat (x : Binary64) (n : Nat) : Binary64 :=
  if x.isFinite && n != 0 then round x.isNegative x.count n else nan

def isProbability (x : Binary64) : Bool := zero ≤ x ∧ x ≤ one

/-- The whole part of 2 ^ 64 times a number that is not negative. -/
def times64 (x : Binary64) : Nat := (x.count <<< 64) / unitsPerOne

variable {x y : Binary64}

theorem units_of_beq (same : (x == y) = true) : x.isNaN = false ∧ x.units = y.units := by
  change (!x.isNaN && !y.isNaN && x.units == y.units) = true at same
  simp only [Bool.and_eq_true, Bool.not_eq_true', beq_iff_eq] at same
  exact ⟨same.1.1, same.2⟩

theorem le_of_units (left : x.isNaN = false) (right : y.isNaN = false) (units : x.units ≤ y.units) :
    x ≤ y := ⟨by simp [left], by simp [right], units⟩

theorem count_of_units {n : Nat} (units : x.units = n) : x.count = n := by
  unfold Binary64.units at units
  split at units
  · omega
  · omega

end Binary64

end Clausal

import Clausal.Binary64.Basic

/-!
# Decimal text of binary64 numbers

A finite number is written with the fewest digits that read back as the number, and of those with
the nearest ones; always positionally, and without a point if it is whole. `shortest?` finds the
digits: for each length it tries the two neighbours of the value on the decimal grid of that length
and takes the first that lies in the interval of the reals rounding to the number.
-/

namespace Clausal

namespace Binary64

def places (n : Nat) : Nat := (Nat.toDigits 10 n).length

/-- A number `digits * 10 ^ exponent`, with a whole count of digits. -/
structure Decimal where
  digits : Nat
  exponent : Int
  deriving DecidableEq

namespace Decimal

/-- The power of ten by which units are multiplied to compare them with a decimal. -/
def numerator (exponent : Int) : Nat := Nat.pow 10 (-exponent).toNat

/-- The power of ten, in units, by which the digits are multiplied for the same comparison. -/
def denominator (exponent : Int) : Nat := Nat.pow 10 exponent.toNat * unitsPerOne

/-- The number nearest to a decimal. Exponents far outside the range need no powers of ten. -/
def toBinary64 (negative : Bool) (d : Decimal) : Binary64 :=
  let places : Int := places d.digits
  if d.digits = 0 ∨ d.exponent + places < -330 then ofMagnitude negative 0
  else if 310 < d.exponent + places then ofMagnitude negative infinity
  else round negative (d.digits * denominator d.exponent) (numerator d.exponent)

def trim (d : Decimal) : Decimal := if d.digits % 10 = 0 then ⟨d.digits / 10, d.exponent + 1⟩ else d

end Decimal

/-- Twice the least count of units that still rounds to a positive number. Below a power of two the
numbers lie closer. -/
def twiceLow (x : Binary64) : Nat :=
  2 * x.count - (if x.fraction = 0 ∧ 1 < x.exponent then 1 <<< (x.scale - 1) else 1 <<< x.scale)

/-- Twice the greatest count of units that still rounds to a positive number. -/
def twiceHigh (x : Binary64) : Nat := 2 * x.count + (1 <<< x.scale)

/-- Whether a decimal rounds to a positive number. The ends of the interval do exactly if the
significand is even. -/
def roundsHere (x : Binary64) (d : Decimal) : Bool :=
  let twice := 2 * d.digits * Decimal.denominator d.exponent
  let low := x.twiceLow * Decimal.numerator d.exponent
  let high := x.twiceHigh * Decimal.numerator d.exponent
  if x.significand % 2 = 0 then low ≤ twice && twice ≤ high else low < twice && twice < high

/-- The decimal on the grid of an exponent that rounds to a positive number, the nearer one if both
neighbours of the value do, and the greater one if they are as near. -/
def onGrid? (x : Binary64) (exponent : Int) : Option Decimal :=
  let num := x.count * Decimal.numerator exponent
  let den := Decimal.denominator exponent
  let below : Decimal := ⟨num / den, exponent⟩
  let above : Decimal := ⟨num / den + 1, exponent⟩
  match x.roundsHere below, x.roundsHere above with
  | true, true => some (if 2 * (num % den) < den then below else above)
  | true, false => some below
  | false, true => some above
  | false, false => none

/-- The exponent of the first digit of a positive number: below one it is the least number of
tenfold increases that reach one. -/
def leadingExponent (x : Binary64) : Int :=
  if unitsPerOne ≤ x.count then (places (x.count / unitsPerOne) : Int) - 1
  else -(places ((unitsPerOne - 1) / x.count) : Int)

/-- The fewest digits that read back as a positive finite number: seventeen always do. They end in
zero only if a single digit was carried to ten: otherwise the coarser grid tried before had the same
decimal. -/
def shortest? (x : Binary64) : Option Decimal :=
  ((List.range 17).findSome? fun n : Nat => x.onGrid? (x.leadingExponent - n)).map Decimal.trim

/-- The digits of a decimal, positionally: no exponent, and a point only before a fraction. -/
def Decimal.text (d : Decimal) : String :=
  let digits := Nat.toDigits 10 d.digits
  match d.exponent with
  | .ofNat zeros => String.ofList (digits ++ List.replicate zeros '0')
  | .negSucc places =>
    let padded := List.replicate (places + 2 - digits.length) '0' ++ digits
    let whole := padded.length - (places + 1)
    String.ofList (padded.take whole ++ '.' :: padded.drop whole)

def text (x : Binary64) : String :=
  if x.isNaN then "NaN"
  else
    let sign := if x.isNegative then "-" else ""
    if !x.isFinite then sign ++ "inf"
    else if x.count = 0 then sign ++ "0"
    else sign ++ ((x.shortest?.map Decimal.text).getD "")

instance : ToString Binary64 := ⟨text⟩

end Binary64

end Clausal

import Clausal.Binary64.Decimal
import Clausal.Text.Numeral

/-!
# Reading binary64 numbers

A number is written as decimal digits with at most one point among them, and then an exponent of ten
if any; or it is one of the words for infinity and for what is not a number, in any case. A sign may
come first. What is read is the nearest number.
-/

namespace Clausal.Binary64

open Text

def isDigit (c : Char) : Bool := (digit? c).isSome

/-- The exponent after the digits: nothing for zero, else a mark and a signed numeral. -/
def exponent? : List Char → Option Int
  | [] => some 0
  | c :: cs => if c = 'e' || c = 'E' then integer? cs else none

/-- The digits after a point, if there is one, and what follows them. -/
def afterPoint : List Char → List Char × List Char
  | '.' :: cs => (cs.takeWhile isDigit, cs.dropWhile isDigit)
  | cs => ([], cs)

def decimal? (cs : List Char) : Option Decimal := do
  let whole := cs.takeWhile isDigit
  let (places, rest) := afterPoint (cs.dropWhile isDigit)
  let digits ← natural? (whole ++ places)
  let exponent ← exponent? rest
  return ⟨digits, exponent - places.length⟩

/-- The number of an unsigned text, to be given a sign. -/
def unsigned? (negative : Bool) (cs : List Char) : Option Binary64 :=
  match decimal? cs with
  | some d => some (d.toBinary64 negative)
  | none =>
    let word := String.ofList (cs.map Char.toLower)
    if word = "inf" || word = "infinity" then some (ofMagnitude negative infinity)
    else if word = "nan" then some nan
    else none

def ofText? : List Char → Option Binary64
  | '-' :: cs => unsigned? true cs
  | '+' :: cs => unsigned? false cs
  | cs => unsigned? false cs

end Clausal.Binary64

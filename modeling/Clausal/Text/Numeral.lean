import Clausal.Word

/-!
# Decimal numerals

Numerals are ASCII digits, at least one, with any number of leading zeros. A signed numeral may
start with a plus or a minus sign, an unsigned one with a plus sign. What does not fit a word is
none.
-/

namespace Clausal.Text

/-- The value of a decimal digit. -/
def digit? (c : Char) : Option Nat :=
  if '0' ≤ c ∧ c ≤ '9' then some (c.toNat - '0'.toNat) else none

/-- The number that some digits continue. -/
def digitsFrom? (n : Nat) : List Char → Option Nat
  | [] => some n
  | c :: cs => do digitsFrom? (10 * n + (← digit? c)) cs

/-- The number of one or more digits. -/
def natural? (cs : List Char) : Option Nat := if cs.isEmpty then none else digitsFrom? 0 cs

/-- The integer of a signed numeral. -/
def integer? : List Char → Option Int
  | '-' :: cs => (natural? cs).map fun n => -(n : Int)
  | '+' :: cs => (natural? cs).map (Int.ofNat ·)
  | cs => (natural? cs).map (Int.ofNat ·)

/-- The signed word of a numeral. -/
def signedWord? (cs : List Char) : Option Int := (integer? cs).bind Word.check?

/-- The count of an unsigned numeral. -/
def count? (cs : List Char) : Option Nat :=
  let digits := match cs with
    | '+' :: rest => rest
    | _ => cs
  (natural? digits).filter (· ≤ Word.greatestCount)

end Clausal.Text

import Clausal.Word

/-!
# Domains

A domain is a range of integers with both ends included; it is empty if the ends are in the wrong
order. The domain of a sum holds exactly the sums of a value from each side.
-/

namespace Clausal

/-- The integers from `min` to `max`. -/
structure Domain where
  min : Int
  max : Int
  deriving DecidableEq

namespace Domain

def singleton (value : Int) : Domain := ⟨value, value⟩

def empty : Domain := ⟨1, 0⟩

def isEmpty (d : Domain) : Bool := d.max < d.min

def count (d : Domain) : Nat := (d.max - d.min + 1).toNat

/-- The number of values as a 64-bit count, which the widest domain exceeds by one. -/
def size (d : Domain) : Nat := Nat.min d.count Word.greatestCount

def contains (d : Domain) (value : Int) : Bool := d.min ≤ value && value ≤ d.max

/-- The value at a position, counting from the least. -/
def value (d : Domain) (i : Nat) : Int := d.min + i

def values (d : Domain) : List Int := (List.range d.count).map d.value

/-- The position of a value, counting from the least. -/
def index? (d : Domain) (value : Int) : Option Nat :=
  if d.contains value then some (value - d.min).toNat else none

/-- The domain of the sum of a value of each domain: empty if one is, and none if one of its ends
does not fit a word. -/
def sum? (d e : Domain) : Option Domain :=
  if d.isEmpty || e.isEmpty then some empty
  else do
    let min ← Word.check? (d.min + e.min)
    let max ← Word.check? (d.max + e.max)
    return ⟨min, max⟩

instance : ToString Domain := ⟨fun d => toString d.min ++ "..=" ++ toString d.max⟩

end Domain

end Clausal

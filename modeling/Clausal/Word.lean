/-!
# Words

The integers of the library are those of a signed 64-bit word, and its counts and limits those of an
unsigned one. Arithmetic is exact; where a result may leave the word, this is checked.
-/

namespace Clausal.Word

def least : Int := -0x8000000000000000

def greatest : Int := 0x7FFFFFFFFFFFFFFF

def greatestCount : Nat := 0xFFFFFFFFFFFFFFFF

def total : Nat := 0x10000000000000000

def halfTotal : Nat := 0x100000000

/-- Whether an integer fits a signed word. -/
def Fits (n : Int) : Prop := least ≤ n ∧ n ≤ greatest

instance (n : Int) : Decidable (Fits n) := inferInstanceAs (Decidable (_ ∧ _))

/-- An integer, if it fits a signed word. -/
def check? (n : Int) : Option Int := if Fits n then some n else none

end Clausal.Word

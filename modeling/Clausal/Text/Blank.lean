/-!
# White space

The characters of the Unicode property White_Space, which is the same in every version since 6.3,
and the words of a text, which are what stands between them.
-/

namespace Clausal.Text

/-- The ranges of the property, ascending. -/
def blankRanges : List (Nat × Nat) :=
  [(0x09, 0x0D), (0x20, 0x20), (0x85, 0x85), (0xA0, 0xA0), (0x1680, 0x1680), (0x2000, 0x200A),
    (0x2028, 0x2029), (0x202F, 0x202F), (0x205F, 0x205F), (0x3000, 0x3000)]

def isBlank (c : Char) : Bool := blankRanges.any fun (low, high) => low ≤ c.toNat && c.toNat ≤ high

/-- The words of a text, in order. -/
def words (cs : List Char) : List (List Char) := (cs.splitOnP isBlank).filter (!·.isEmpty)

/-- The first character of a text that is not blank. -/
def firstInked? (cs : List Char) : Option Char := cs.find? (!isBlank ·)

end Clausal.Text

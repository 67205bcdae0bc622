import Clausal.Clause
import Clausal.Sampling

/-!
# The platform

What a program takes from its build and its libraries, and could take otherwise: what becomes of a
sum that leaves its word, how random draws are made, and in which order the members of a set of
clauses come.
-/

namespace Clausal

/-- What becomes of a sum that leaves its word. -/
inductive Overflow where
  /-- The program ends there. -/
  | checked
  /-- The sum is taken modulo the number of words. -/
  | wrapping
  deriving DecidableEq

/-- The greatest number in a signed word of 32 bits. -/
def greatestTally : Nat := 0x7FFFFFFF

/-- The tally of some items, one after the other, in a signed word of 32 bits. There is none if the
program ended on the way. -/
def Overflow.tally? : Overflow → Nat → Option Int
  | .checked, n => if n ≤ greatestTally then some n else none
  | .wrapping, n => some ((n : Int).bmod 0x100000000)

namespace Overflow

theorem tally?_of_le (overflow : Overflow) {n : Nat} (few : n ≤ greatestTally) :
    overflow.tally? n = some (n : Int) := by
  cases overflow with
  | checked => exact if_pos few
  | wrapping =>
    unfold greatestTally at few
    rw [tally?, Int.bmod_def]
    split <;> rw [Option.some.injEq] <;> omega

theorem tally?_eq_none {overflow : Overflow} {n : Nat} :
    overflow.tally? n = none ↔ overflow = .checked ∧ greatestTally < n := by
  cases overflow with
  | checked => simp [tally?]
  | wrapping => simp [tally?]

end Overflow

structure Platform where
  overflow : Overflow
  sampler : Sampler
  /-- The members of the set of some clauses, in the order in which they come. -/
  arrange : List Clause → List Clause
  mem_arrange : ∀ clauses c, c ∈ arrange clauses ↔ c ∈ clauses

/-- The platform of the program: sums are checked, and sets keep the order of their clauses. -/
def Platform.standard : Platform where
  overflow := .checked
  sampler := .standard
  arrange := id
  mem_arrange _ _ := Iff.rfl

end Clausal

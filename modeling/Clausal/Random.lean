import Clausal.Binary64.Basic
import Clausal.Literal
import Clausal.Word

/-!
# The random source

A permuted congruential generator with 64 bits of state and 32 bits of output: the state runs
through a linear congruence modulo 2 ^ 64, and each output is a rotation of some of its bits. A
search does not read the outputs itself. It draws events and atoms, and how these are made from the
outputs is left to a *sampler*, of which only the laws of its draws are known. A draw by rejection
may be rejected for ever; `Draw` tells this apart from a result.
-/

namespace Clausal

/-- The state of the generator: the state proper, and the increment of the congruence. -/
structure Pcg where
  state : UInt64
  increment : UInt64

namespace Pcg

/-- The multiplier of the congruence. -/
def multiplier : UInt64 := 6364136223846793005

/-- The increment of every generator that is made from a seed. -/
def seededIncrement : UInt64 := 3215534235932367344

def rotateRight (x : UInt32) (n : UInt32) : UInt32 := (x >>> n) ||| (x <<< (32 - n))

/-- The output of a state: bits 27 to 58 of the state, mixed with higher ones, rotated by the top
five bits. -/
def output (state : UInt64) : UInt32 :=
  rotateRight (((state >>> 18) ^^^ state) >>> 27).toUInt32 (state >>> 59).toUInt32

def ofSeed (seed : UInt64) : Pcg := ⟨seed + seededIncrement, seededIncrement⟩

def next32 (g : Pcg) : UInt32 × Pcg :=
  (output g.state, { g with state := g.state * multiplier + g.increment })

end Pcg

/-- A draw from the random source: `none` if the source never yields an acceptable value. -/
abbrev Draw := StateT Pcg Option

/-- A number between zero and one. -/
structure Probability where
  value : Binary64
  proper : value.isProbability = true

namespace Probability

/-- The probability that a number is; of a number that is none, zero. -/
@[irreducible] def ofBinary64 (p : Binary64) : Probability :=
  if proper : p.isProbability = true then ⟨p, proper⟩ else ⟨.zero, by decide +kernel⟩

def Impossible (p : Probability) : Prop := (p.value == .zero) = true

instance (p : Probability) : Decidable p.Impossible := inferInstanceAs (Decidable (_ = true))

def Certain (p : Probability) : Prop := (p.value == .one) = true

instance (p : Probability) : Decidable p.Certain := inferInstanceAs (Decidable (_ = true))

end Probability

/-- The draws of a search, with what is known of them. Only the choice of an atom may never end. -/
structure Sampler where
  /-- The generator of a number. -/
  ofNumber : UInt64 → Pcg
  /-- Whether an event of some probability happens. -/
  event : Probability → Draw Bool
  /-- One of some atoms. -/
  choose : List Atom → Draw (Option Atom)
  event_returns : ∀ p g, ∃ b g', (event p).run g = some (b, g')
  event_impossible : ∀ p : Probability, p.Impossible →
    ∀ g b g', (event p).run g = some (b, g') → b = false
  event_certain : ∀ p : Probability, p.Certain →
    ∀ g b g', (event p).run g = some (b, g') → b = true
  choose_mem : ∀ atoms g r g', (choose atoms).run g = some (r, g') →
    (∃ a ∈ atoms, r = some a) ∨ atoms = [] ∧ r = none

namespace Sampler

variable {p : Probability}

theorem event_eq_false (sampler : Sampler) (impossible : p.Impossible) (g : Pcg) :
    ∃ g', (sampler.event p).run g = some (false, g') := by
  obtain ⟨b, g', drawn⟩ := sampler.event_returns p g
  rw [sampler.event_impossible p impossible g b g' drawn] at drawn
  exact ⟨g', drawn⟩

theorem event_eq_true (sampler : Sampler) (certain : p.Certain) (g : Pcg) :
    ∃ g', (sampler.event p).run g = some (true, g') := by
  obtain ⟨b, g', drawn⟩ := sampler.event_returns p g
  rw [sampler.event_certain p certain g b g' drawn] at drawn
  exact ⟨g', drawn⟩

end Sampler

end Clausal

import Clausal.Search.State

/-!
# Decisions

A decision gives a value to an atom without one: by default to the least such atom, and the value
false. With the probability `bias` the atom is a random one, and with the probability `lean` the
value is true.
-/

namespace Clausal.Search

/-- The literal to decide, if some atom has no value. Whether the atom is to be random is drawn even
if there is none. -/
def drawDecision (s : Search) : Draw (Option Literal) := do
  let atom ←
    if ← s.sampler.event s.bias then s.sampler.choose s.valuation.unvalued
    else pure s.valuation.unvalued.head?
  match atom with
  | none => return none
  | some a => return some ⟨a, ← s.sampler.event s.lean⟩

/-- The literal to decide, if some atom has no value. Nothing is made true yet. The search stalls if
a draw never ends. -/
def decide (s : Search) : Option Literal × Search :=
  match s.drawDecision.run s.source with
  | some (l, source) => (l, { s with source := source })
  | none => (none, { s with phase := .stalled })

def branch (s : Search) (l : Literal) : Search :=
  { s with
    counters := { s.counters with decisions := s.counters.decisions + 1 }
    decisions := ⟨s.trail.size, l, false⟩ :: s.decisions }.assign l

theorem decide_keeps (s : Search) :
    s.decide.2.decisions = s.decisions ∧ s.decide.2.valuation = s.valuation := by
  unfold decide; split <;> simp

end Clausal.Search

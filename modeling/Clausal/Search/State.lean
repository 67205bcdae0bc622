import Clausal.Config
import Clausal.Purity
import Clausal.Valuation

/-!
# The state of a search

A search goes through the valuations of some atoms for models of a formula. It keeps a partial
valuation and the *trail* of its literals in the order they became true. Some of these are
decisions; the others follow from literals before them. A decision remembers the length of the trail
before it, so that the trail can be cut back, and whether it is already the flip of an earlier one.
-/

namespace Clausal

/-- What was counted while a query was answered. -/
structure Counters where
  /-- Decisions made, their flips not included. -/
  decisions : Nat := 0
  /-- Literals found by propagation. -/
  propagations : Nat := 0
  /-- Falsified clauses found. -/
  conflicts : Nat := 0
  models : Nat := 0
  resolvents : Nat := 0
  deriving DecidableEq

structure Decision where
  trailLength : Nat
  literal : Literal
  /-- Whether the opposite literal was decided before. -/
  flipped : Bool
  deriving DecidableEq

/-- How far a search has come. -/
inductive Phase where
  /-- No valuation was looked at. -/
  | fresh
  /-- The valuation is a model, and the search can go on. -/
  | model
  /-- Every valuation was looked at. -/
  | exhausted
  /-- A random draw never ends, and with it the search. -/
  | stalled
  deriving DecidableEq

/-- A search through the valuations of the atoms below the size of `valuation`. -/
structure Search where
  clauses : Formula
  /-- For each literal, by its index, the positions of the clauses it occurs in, in order and as
  often as it occurs there. -/
  occurrences : Array (Array Nat)
  valuation : PartialValuation
  trail : Array Literal
  /-- How many literals of the trail were propagated. -/
  head : Nat
  /-- The decisions on the trail, the latest first. -/
  decisions : List Decision
  /-- Literals to be made true before any decision, beyond those of unit clauses. -/
  assumptions : List Literal
  sampler : Sampler
  source : Pcg
  /-- The probability of deciding an atom true. -/
  lean : Probability
  /-- The probability of deciding on a random atom. -/
  bias : Probability
  phase : Phase
  counters : Counters

namespace Search

def occurrencesIn (clauses : Formula) (atoms : Nat) : Array (Array Nat) :=
  clauses.toList.zipIdx.foldl
    (fun table (c, i) => c.foldl (fun table l => table.modify l.index (·.push i)) table)
    (Array.replicate (2 * atoms) #[])

/-- A fresh search through the valuations of the atoms below a number, which those of the clauses
are. -/
def start (clauses : Formula) (atoms : Nat) (config : Config) : Search where
  clauses := clauses
  occurrences := occurrencesIn clauses atoms
  valuation := Array.replicate atoms none
  trail := #[]
  head := 0
  decisions := []
  assumptions := []
  sampler := config.platform.sampler
  source := config.platform.sampler.ofNumber config.seed
  lean := .ofBinary64 config.polarityChance
  bias := .ofBinary64 config.randomDecisionBias
  phase := .fresh
  counters := {}

def unvaluedCount (s : Search) : Nat := s.valuation.count none

/-- Makes a literal true, unless its atom has a value. -/
def assign (s : Search) (l : Literal) : Search :=
  if s.valuation[l.atom]? = some none then
    { s with
      valuation := s.valuation.setIfInBounds l.atom (some l.polarity)
      trail := s.trail.push l }
  else s

/-- Makes a literal true, and says whether it is. -/
def assume (s : Search) (l : Literal) : Bool × Search :=
  (s.valuation.literal? l != some false, s.assign l)

/-- Cuts the trail back to a length, and takes back the values of the literals cut off. What is left
counts as propagated. -/
def undoTo (s : Search) (length : Nat) : Search :=
  { s with
    valuation := (s.trail.toList.drop length).foldl
      (fun v l => v.setIfInBounds l.atom none) s.valuation
    trail := s.trail.take length
    head := length }

/-- Takes back decisions, the latest first, up to one that can be flipped, and flips it. If there is
none, all are taken back. -/
def backtrackOver (s : Search) : List Decision → Bool × Search
  | [] => (false, { s with decisions := [] })
  | d :: earlier =>
    let s := s.undoTo d.trailLength
    if d.flipped then s.backtrackOver earlier
    else
      let flip : Decision := ⟨d.trailLength, -d.literal, true⟩
      (true, { s with decisions := flip :: earlier }.assign flip.literal)

/-- Flips the latest decision that can be flipped, and says whether there was one. -/
def backtrack (s : Search) : Bool × Search := s.backtrackOver s.decisions

/-- Assumes the literals of all pure atoms of the formula. Only a fresh search uses them. -/
def assumePureLiterals (s : Search) : Search :=
  { s with assumptions := s.assumptions ++ s.clauses.pureLiterals }

@[simp] theorem decisions_assign (s : Search) (l : Literal) :
    (s.assign l).decisions = s.decisions := by
  unfold assign; split <;> rfl

@[simp] theorem size_valuation_assign (s : Search) (l : Literal) :
    (s.assign l).valuation.size = s.valuation.size := by
  unfold assign; split <;> simp

@[simp] theorem head_assign (s : Search) (l : Literal) : (s.assign l).head = s.head := by
  unfold assign; split <;> rfl

/-- A literal made true is one more on the trail and one less without a value. -/
theorem unvaluedCount_assign (s : Search) (l : Literal) :
    (s.assign l).unvaluedCount + (s.assign l).trail.size = s.unvaluedCount + s.trail.size ∧
      (s.assign l).unvaluedCount ≤ s.unvaluedCount := by
  unfold assign
  split
  · next free =>
    obtain ⟨inside, value⟩ := Array.getElem?_eq_some_iff.mp free
    have positive : 0 < s.valuation.count none :=
      Array.count_pos_iff.mpr (value ▸ Array.getElem_mem inside)
    simp only [unvaluedCount, Array.setIfInBounds, inside, ↓reduceDIte, Array.count_set, value,
      Array.size_push]
    simp
    omega
  · simp

@[simp] theorem size_valuation_undoTo (s : Search) (length : Nat) :
    (s.undoTo length).valuation.size = s.valuation.size := by
  simp only [undoTo]
  generalize s.trail.toList.drop length = cut
  generalize s.valuation = v
  induction cut generalizing v with
  | nil => rfl
  | cons l cut ih => simp [List.foldl_cons, ih]

end Search

end Clausal

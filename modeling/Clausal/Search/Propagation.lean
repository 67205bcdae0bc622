import Clausal.Search.State

/-!
# Unit propagation

A literal that becomes true can only turn clauses with its negation into asserting or falsified
ones. Propagation goes along the trail and looks at just those clauses, adding what they assert to
the trail, until the trail ends or a clause is falsified.
-/

namespace Clausal.Search

/-- The clause at a position; the empty one outside the formula. -/
def clauseAt (s : Search) (i : Nat) : Clause := s.clauses[i]?.getD []

def deduce (s : Search) (l : Literal) : Search :=
  { s with
    counters := { s.counters with propagations := s.counters.propagations + 1 } }.assign l

/-- Looks at the clauses at some positions in turn, up to a falsified one, and gives its position. -/
def examine (s : Search) : List Nat → Option Nat × Search
  | [] => (none, s)
  | i :: rest =>
    match (s.clauseAt i).asserts? s.valuation with
    | some l => (s.deduce l).examine rest
    | none => if (s.clauseAt i).falsified s.valuation then (some i, s) else s.examine rest

/-- The positions of the clauses with the negation of a literal. -/
def opposing (s : Search) (l : Literal) : List Nat :=
  (s.occurrences[(-l).index]?.getD #[]).toList

theorem examine_keeps (s : Search) (positions : List Nat) :
    (s.examine positions).2.decisions = s.decisions ∧
      (s.examine positions).2.valuation.size = s.valuation.size ∧
      (s.examine positions).2.head = s.head := by
  fun_induction examine s positions with
  | case1 => simp
  | case2 s i rest l _ ih => simpa [deduce] using ih
  | case3 => simp
  | case4 s i rest _ _ ih => exact ih

theorem unvaluedCount_examine (s : Search) (positions : List Nat) :
    (s.examine positions).2.unvaluedCount + (s.examine positions).2.trail.size =
        s.unvaluedCount + s.trail.size ∧
      (s.examine positions).2.unvaluedCount ≤ s.unvaluedCount := by
  fun_induction examine s positions with
  | case1 => simp
  | case2 s i rest l _ ih =>
    have step : (s.deduce l).unvaluedCount + (s.deduce l).trail.size =
        s.unvaluedCount + s.trail.size ∧ (s.deduce l).unvaluedCount ≤ s.unvaluedCount :=
      unvaluedCount_assign _ l
    omega
  | case3 => simp
  | case4 s i rest _ _ ih => exact ih

/-- Propagates the literals of the trail that were not yet, and gives the position of a clause that
is found falsified. -/
def propagate (s : Search) : Option Nat × Search :=
  match _ : s.trail[s.head]? with
  | none => (none, s)
  | some l =>
    match _ : { s with head := s.head + 1 }.examine (s.opposing l) with
    | (some conflict, s') => (some conflict, s')
    | (none, s') => s'.propagate
  termination_by 2 * s.unvaluedCount + (s.trail.size - s.head)
  decreasing_by
    next pending examined =>
    have inside := (Array.getElem?_eq_some_iff.mp pending).1
    have counts := unvaluedCount_examine { s with head := s.head + 1 } (s.opposing l)
    have head := (examine_keeps { s with head := s.head + 1 } (s.opposing l)).2.2
    rw [examined] at counts head
    simp only [unvaluedCount] at counts head ⊢
    omega

theorem propagate_keeps (s : Search) :
    s.propagate.2.decisions = s.decisions ∧ s.propagate.2.valuation.size = s.valuation.size := by
  fun_induction propagate s with
  | case1 => simp
  | case2 s l _ conflict s' examined =>
    have keeps := examine_keeps { s with head := s.head + 1 } (s.opposing l)
    rw [examined] at keeps
    exact ⟨keeps.1, keeps.2.1⟩
  | case3 s l _ s' examined ih =>
    have keeps := examine_keeps { s with head := s.head + 1 } (s.opposing l)
    rw [examined] at keeps
    exact ⟨ih.1.trans keeps.1, ih.2.trans keeps.2.1⟩

end Clausal.Search

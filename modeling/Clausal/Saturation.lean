import Clausal.Clause

/-!
# Saturation

A formula is unsatisfiable exactly if resolution derives the empty clause from it. Saturation takes
one clause at a time, the shortest first, resolves it with itself and with the clauses taken
before, and keeps the resolvents that are new. A clause that an earlier one subsumes is dropped.
The clauses ever kept are counted against a limit.
-/

namespace Clausal

structure Saturation where
  /-- The clauses taken so far, in the order taken. -/
  processed : Array Clause
  unprocessed : Array Clause
  /-- Every clause ever kept. -/
  seen : Std.TreeSet Clause
  resolvents : Nat

namespace Saturation

inductive Verdict where
  /-- No clause is left: the formula is satisfiable. -/
  | saturated
  /-- The empty clause was derived. -/
  | refuted
  /-- More clauses were kept than allowed. -/
  | exceeded
  deriving DecidableEq

/-- Adds a clause to those to be taken, unless it is there already. -/
def enter (s : Saturation) (c : Clause) : Saturation :=
  if s.seen.contains c then s
  else { s with unprocessed := s.unprocessed.push c, seen := s.seen.insert c }

/-- The saturation of a formula before its first step. Of a repeated clause the first is kept. -/
def start (clauses : List Clause) : Saturation := clauses.foldl enter ⟨#[], #[], ∅, 0⟩

/-- A step of the scan for the shortest clause. The scan carries the position it has come to, and the
position and the length of the first of the shortest clauses before it. -/
def scan : Nat × Option (Nat × Nat) → Clause → Nat × Option (Nat × Nat)
  | (i, none), c => (i + 1, some (i, c.length))
  | (i, some (j, n)), c => (i + 1, some (if c.length < n then (i, c.length) else (j, n)))

def shortest? (clauses : Array Clause) : Option Nat :=
  (clauses.foldl scan (0, none)).2.map (·.1)

/-- Removes the clause at a position, the last clause taking its place. -/
def swapRemove (clauses : Array Clause) (i : Nat) : Array Clause :=
  match clauses.back? with
  | some last => (clauses.setIfInBounds i last).pop
  | none => clauses

/-- The first of the shortest clauses, and the others. -/
def takeShortest? (clauses : Array Clause) : Option (Clause × Array Clause) := do
  let i ← shortest? clauses
  let given ← clauses[i]?
  return (given, swapRemove clauses i)

/-- The resolvents of a clause with each partner in turn, on each of its literals in turn.
Tautologies are left out. -/
def resolventsOf (given : Clause) (partners : Array Clause) : List Clause :=
  partners.toList.flatMap fun partner =>
    given.filterMap fun l => if partner.contains (-l) then given.resolve partner l else none

/-- Keeps the new ones among some resolvents, until one is empty or the limit is passed; then the
verdict says which. -/
def absorb (limit : Nat) (s : Saturation) : List Clause → Option Verdict × Saturation
  | [] => (none, s)
  | c :: cs =>
    if c.isEmpty then (some .refuted, { s with resolvents := s.resolvents + 1 })
    else if s.seen.contains c then absorb limit s cs
    else
      let s := { s with
        seen := s.seen.insert c
        resolvents := s.resolvents + 1
        unprocessed := s.unprocessed.push c }
      if limit < s.seen.size then (some .exceeded, s) else absorb limit s cs

/-- An upper bound on the steps still to be taken: the clauses not yet taken, and those that may
still be kept. -/
def remaining (limit : Nat) (s : Saturation) : Nat :=
  s.unprocessed.size + (limit - s.seen.size)

theorem size_swapRemove_lt {clauses : Array Clause} {i : Nat} (h : i < clauses.size) :
    (swapRemove clauses i).size < clauses.size := by
  unfold swapRemove
  split
  · simp; omega
  · next e => simp at e; simp [e] at h

theorem size_of_takeShortest? {clauses rest : Array Clause} {given : Clause}
    (h : takeShortest? clauses = some (given, rest)) : rest.size < clauses.size := by
  simp only [takeShortest?, Option.bind_eq_bind, Option.bind_eq_some_iff] at h
  obtain ⟨i, -, c, inside, h⟩ := h
  cases h
  exact size_swapRemove_lt (Array.getElem?_eq_some_iff.mp inside).1

theorem remaining_take {limit : Nat} {s : Saturation} {given : Clause} {rest : Array Clause}
    (h : takeShortest? s.unprocessed = some (given, rest)) :
    { s with unprocessed := rest : Saturation }.remaining limit < s.remaining limit := by
  have := size_of_takeShortest? h
  simp only [remaining]
  omega

theorem remaining_absorb (limit : Nat) (s : Saturation) (cs : List Clause)
    (h : (absorb limit s cs).1 = none) :
    (absorb limit s cs).2.remaining limit ≤ s.remaining limit := by
  induction cs generalizing s with
  | nil => simp [absorb]
  | cons c cs ih =>
    unfold absorb at h ⊢
    split at h
    · simp at h
    · split at h
      · next new => simp [*]
      · next old =>
        simp only [*, Bool.false_eq_true, ↓reduceIte] at h ⊢
        split at h
        · simp at h
        · next within =>
          rw [if_neg within]
          refine Nat.le_trans (ih _ h) ?_
          have size := Std.TreeSet.size_insert (t := s.seen) (k := c)
          simp only [old, Bool.false_eq_true, ↓reduceIte] at size
          simp only [remaining, Array.size_push, size] at within ⊢
          omega

/-- Takes clauses until none is left or a verdict is reached. -/
def run (limit : Nat) (s : Saturation) : Verdict × Saturation :=
  match _ : takeShortest? s.unprocessed with
  | none => (.saturated, s)
  | some (given, others) =>
    let rest := { s with unprocessed := others }
    if s.processed.any (Clause.subsumes · given) then run limit rest
    else
      match _ : rest.absorb limit (resolventsOf given (s.processed.push given)) with
      | (some verdict, s') => (verdict, s')
      | (none, s') => run limit { s' with processed := s'.processed.push given }
  termination_by s.remaining limit
  decreasing_by
    · exact remaining_take ‹_›
    · next absorbed =>
      have kept := remaining_absorb limit rest _ (congrArg (·.1) absorbed)
      rw [absorbed] at kept
      exact Nat.lt_of_le_of_lt kept (remaining_take ‹_›)

end Saturation

/-- The saturation of a formula at its end. The empty clause in the formula is an end at once. -/
def saturation (clauses : List Clause) (limit : Nat) : Saturation.Verdict × Saturation :=
  let start := Saturation.start clauses
  if clauses.any (·.isEmpty) then (.refuted, start) else start.run limit

/-- Decides by saturation whether normal clauses have a model, keeping at most `limit` clauses, and
counts the resolvents kept. The order of the clauses is the order in which those of equal length
are first considered. -/
def saturate (clauses : List Clause) (limit : Nat) : Saturation.Verdict × Nat :=
  (saturation clauses limit).map id Saturation.resolvents

end Clausal

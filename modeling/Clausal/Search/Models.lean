import Clausal.Search.Decision
import Clausal.Search.Propagation

/-!
# Models

The search alternates propagation with decisions. On a falsified clause it flips the latest decision
that can be flipped; when all atoms have values, the valuation is a model, and the search goes on as
from a falsified clause. So each model is found once. The search walks a binary tree, of which
`budget` bounds the part still to be walked.
-/

namespace Clausal.Search

/-- A bound on the nodes of a binary tree: more than two trees of one level less and a root. -/
def treeBound : Nat → Nat
  | 0 => 1
  | depth + 1 => 3 * treeBound depth

theorem treeBound_pos (depth : Nat) : 0 < treeBound depth := by
  induction depth with
  | zero => exact Nat.one_pos
  | succ depth ih => rw [treeBound]; omega

/-- A bound on the part of the tree that is left to walk below the decisions that can be flipped. -/
def flippable (atoms : Nat) : List Decision → Nat
  | [] => 0
  | d :: earlier =>
    flippable atoms earlier + if d.flipped then 0 else treeBound (atoms - earlier.length)

/-- A bound on the part of the tree that is left to walk. -/
def budget (s : Search) : Nat :=
  flippable s.valuation.size s.decisions +
    treeBound (s.valuation.size + 1 - s.decisions.length)

theorem budget_branch (s : Search) (l : Literal) (h : s.decisions.length ≤ s.valuation.size) :
    (s.branch l).budget < s.budget := by
  have step : s.valuation.size + 1 - s.decisions.length =
      (s.valuation.size - s.decisions.length) + 1 := by omega
  have same : s.valuation.size + 1 - (s.decisions.length + 1) =
      s.valuation.size - s.decisions.length := by omega
  have positive := treeBound_pos (s.valuation.size - s.decisions.length)
  simp only [budget, branch, size_valuation_assign, decisions_assign, flippable, List.length_cons,
    same, step, treeBound, Bool.false_eq_true, ↓reduceIte]
  omega

theorem budget_backtrackOver (s : Search) (decisions : List Decision)
    (h : (s.backtrackOver decisions).1 = true) :
    (s.backtrackOver decisions).2.budget ≤ flippable s.valuation.size decisions ∧
      0 < flippable s.valuation.size decisions := by
  induction decisions generalizing s with
  | nil => simp [backtrackOver] at h
  | cons d earlier ih =>
    unfold backtrackOver at h ⊢
    by_cases flipped : d.flipped
    · simp only [flipped, ↓reduceIte] at h ⊢
      simpa [flippable, flipped] using ih _ h
    · simp only [flipped, Bool.false_eq_true, ↓reduceIte] at h ⊢
      have same : s.valuation.size + 1 - (earlier.length + 1) =
          s.valuation.size - earlier.length := by omega
      have positive := treeBound_pos (s.valuation.size - earlier.length)
      simp only [budget, flippable, flipped, size_valuation_assign, decisions_assign,
        size_valuation_undoTo, List.length_cons, same, Bool.false_eq_true, ↓reduceIte]
      omega

theorem budget_backtrack (s : Search) (h : s.backtrack.1 = true) :
    s.backtrack.2.budget < s.budget := by
  have bound := (budget_backtrackOver s s.decisions h).1
  have positive := treeBound_pos (s.valuation.size + 1 - s.decisions.length)
  simp only [backtrack] at bound ⊢
  simp only [budget] at bound ⊢
  omega

theorem budget_eq {s t : Search} (decisions : s.decisions = t.decisions)
    (size : s.valuation.size = t.valuation.size) : s.budget = t.budget := by
  simp [budget, decisions, size]

def countConflict (s : Search) : Search :=
  { s with counters := { s.counters with conflicts := s.counters.conflicts + 1 } }

def exhaust (s : Search) : Option Valuation × Search := (none, { s with phase := .exhausted })

/-- Ends the search before all valuations were looked at. -/
def stall (s : Search) : Option Valuation × Search := (none, { s with phase := .stalled })

def yield (s : Search) : Option Valuation × Search :=
  (some (s.valuation.map (·.getD false)),
    { s with
      phase := .model
      counters := { s.counters with models := s.counters.models + 1 } })

/-- Goes on from a trail that may not be propagated yet to the next model. -/
def settle (s : Search) : Option Valuation × Search :=
  match _ : s.propagate with
  | (some _, s₁) =>
    match _ : s₁.countConflict.backtrack with
    | (true, s₂) => s₂.settle
    | (false, s₂) => s₂.exhaust
  | (none, s₁) =>
    match _ : s₁.decide with
    | (some l, s₂) =>
      -- always so, since each decision is on an atom of its own
      if _ : s₂.decisions.length ≤ s₂.valuation.size then (s₂.branch l).settle else s₂.stall
    | (none, s₂) => if s₂.phase = .stalled then (none, s₂) else s₂.yield
  termination_by s.budget
  decreasing_by
    · next propagated backtracked =>
      have kept := propagate_keeps s
      have less := budget_backtrack s₁.countConflict (congrArg (·.1) backtracked)
      rw [propagated] at kept
      rw [backtracked] at less
      exact Nat.lt_of_lt_of_eq less (budget_eq kept.1 kept.2)
    · next propagated decided within =>
      have kept := propagate_keeps s
      have keeps := decide_keeps s₁
      rw [propagated] at kept
      rw [decided] at keeps
      exact Nat.lt_of_lt_of_eq (budget_branch s₂ l within)
        (budget_eq (keeps.1.trans kept.1) ((congrArg Array.size keeps.2).trans kept.2))

/-- Makes some literals true, and says whether none was false. -/
def assumeAll (s : Search) : List Literal → Bool × Search
  | [] => (true, s)
  | l :: rest =>
    match s.assume l with
    | (true, s) => s.assumeAll rest
    | (false, s) => (false, s)

/-- Makes the literals of unit clauses true, and says whether none was false and no clause empty. -/
def assumeUnits (s : Search) : List Clause → Bool × Search
  | [] => (true, s)
  | [] :: _ => (false, s)
  | [l] :: rest =>
    match s.assume l with
    | (true, s) => s.assumeUnits rest
    | (false, s) => (false, s)
  | _ :: rest => s.assumeUnits rest

/-- Makes true what holds before any decision: the unit clauses, then the assumptions, which are
used up. -/
def valueRoot (s : Search) : Bool × Search :=
  match s.assumeUnits s.clauses.toList with
  | (true, s) => { s with assumptions := [] }.assumeAll s.assumptions
  | (false, s) => (false, s)

def next (s : Search) : Option Valuation × Search :=
  match s.phase with
  | .exhausted | .stalled => (none, s)
  | .model =>
    match s.backtrack with
    | (true, s) => s.settle
    | (false, s) => s.exhaust
  | .fresh =>
    match s.valueRoot with
    | (true, s) => s.settle
    | (false, s) => s.exhaust

/-- Adds the next models to some, at most `cap` of them. -/
def collect (s : Search) (found : Array Valuation) (cap : Nat) : Array Valuation × Search :=
  match cap with
  | 0 => (found, s)
  | cap + 1 =>
    match s.next with
    | (some v, s) => s.collect (found.push v) cap
    | (none, s) => (found, s)

/-- The next models, at most `cap` of them. -/
def take (s : Search) (cap : Nat) : Array Valuation × Search := s.collect #[] cap

/-- All models left: there are no more than valuations, and the search is asked once more. -/
def rest (s : Search) : Array Valuation × Search := s.take ((1 <<< s.valuation.size) + 1)

end Clausal.Search

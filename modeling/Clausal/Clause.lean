import Clausal.Literal

/-!
# Clauses

A clause is a list of literals, read as their disjunction; the empty clause never holds. A clause
is *normal* if its literals strictly increase and no two of them are complementary. `normalise`
gives the normal form of a clause, or `none` for a tautology.
-/

namespace Clausal

abbrev Clause := List Literal

namespace Clause

/-- Puts a literal in its place among increasing literals, unless it is there already. -/
def place (l : Literal) : Clause → Clause
  | [] => [l]
  | m :: c =>
    match compare l m with
    | .lt => l :: m :: c
    | .eq => m :: c
    | .gt => m :: place l c

/-- The literals of a clause in increasing order, each once. -/
def ordered (c : Clause) : Clause := c.foldr place []

/-- Whether two neighbours of a clause are complementary. -/
def clashes : Clause → Bool
  | l :: m :: c => l.complements m || clashes (m :: c)
  | _ => false

/-- The normal form of a clause: its literals in increasing order, each once. A tautology has none.
In increasing order the two literals of an atom are neighbours, so looking at neighbours finds
every complementary pair. -/
def normalise (c : Clause) : Option Clause :=
  if c.ordered.clashes then none else some c.ordered

/-- Strictly increasing, and without a complementary pair. -/
def Normal (c : Clause) : Prop :=
  c.Pairwise (fun l m => compare l m = .lt) ∧ ∀ l ∈ c, -l ∉ c

theorem mem_place {l m : Literal} {c : Clause} : m ∈ place l c ↔ m = l ∨ m ∈ c := by
  induction c with
  | nil => simp [place]
  | cons k c ih =>
    unfold place
    split
    · simp
    · next h => simp [Std.LawfulEqOrd.eq_of_compare h]
    · simp only [List.mem_cons, ih]
      exact or_left_comm

theorem mem_ordered {m : Literal} {c : Clause} : m ∈ c.ordered ↔ m ∈ c := by
  induction c with
  | nil => simp [ordered]
  | cons l c ih =>
    have : ordered (l :: c) = place l (ordered c) := rfl
    rw [this, mem_place, ih, List.mem_cons]

/-- The resolvent of two clauses on a literal of the first: what is left of both once the literal
and its negation are struck out, or `none` if that is a tautology. -/
def resolve (left right : Clause) (pivot : Literal) : Option Clause :=
  normalise (left.filter (· != pivot) ++ right.filter (· != -pivot))

/-- Whether every literal of a clause is one of the other. -/
def subsumes (c d : Clause) : Bool := c.length ≤ d.length && c.all d.contains

end Clause

end Clausal

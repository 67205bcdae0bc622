import Clausal.KnowledgeBase.Model

/-!
What expressions mean. An assignment gives boolean symbols truth values and integer
symbols integers; an expression has a value or a truth value under it if all its
symbols have one. Sums are sums of integers, without bounds.
-/

namespace Clausal

/-- Values of some symbols. -/
structure Assignment where
  boolean? : Symbol → Option Bool
  integer? : Symbol → Option Int

namespace Expr

variable (α : Assignment)

/-- The value of an integer expression. -/
def value? : Expr → Option Int
  | symbol s => α.integer? s
  | constant value => some value
  | sum left right => do return (← left.value?) + (← right.value?)
  | not _ => none
  | compare _ _ _ => none

/-- The truth value of a boolean expression. -/
def truth? : Expr → Option Bool
  | symbol s => α.boolean? s
  | not e => e.truth?.map (!·)
  | compare op left right => do return op.holds (← left.value? α) (← right.value? α)
  | constant _ => none
  | sum _ _ => none

/-- The symbols in an expression. -/
def symbols : Expr → List Symbol
  | symbol s => [s]
  | constant _ => []
  | not e => e.symbols
  | sum left right => left.symbols ++ right.symbols
  | compare _ left right => left.symbols ++ right.symbols

variable {α : Assignment} {left right : Expr} {a b : Int}

theorem value?_sum (first : left.value? α = some a) (second : right.value? α = some b) :
    (sum left right).value? α = some (a + b) := by
  simp [value?, first, second]

theorem truth?_compare (op : Comparison) (first : left.value? α = some a)
    (second : right.value? α = some b) : (compare op left right).truth? α = some (op.holds a b) := by
  simp [truth?, first, second]

end Expr

/-- Some disjunct holds under an assignment. -/
def Assignment.Satisfies (α : Assignment) (disjuncts : List Expr) : Prop :=
  ∃ e ∈ disjuncts, e.truth? α = some true

namespace Domain

variable {d e f : Domain} {n m : Int} {i : Nat}

theorem contains_iff : d.contains n = true ↔ d.min ≤ n ∧ n ≤ d.max := by
  simp [contains]

theorem contains_value_iff : d.contains (d.value i) = true ↔ i < d.count := by
  rw [contains_iff, value, count]
  omega

theorem value_inj {j : Nat} : d.value i = d.value j ↔ i = j := by
  rw [value, value]
  omega

theorem index?_eq_some : d.index? n = some i ↔ d.value i = n ∧ i < d.count := by
  unfold index?
  split
  · next inside =>
    rw [contains_iff] at inside
    rw [Option.some.injEq, value, count]
    omega
  · next outside =>
    refine iff_of_false (by simp) ?_
    rintro ⟨rfl, within⟩
    exact outside (contains_value_iff.mpr within)

/-- Every value of a domain has a position. -/
theorem exists_index (inside : d.contains n = true) : ∃ i, d.value i = n ∧ i < d.count := by
  have found : d.index? n = some (n - d.min).toNat := if_pos inside
  exact ⟨_, index?_eq_some.mp found⟩

theorem isEmpty_iff : d.isEmpty = true ↔ d.max < d.min := by
  simp [isEmpty]

/-- The domain of a sum is empty if one of the two is, and otherwise reaches from the sum of the least values to
that of the greatest, as far as both fit a word. -/
theorem sum?_eq_some_iff : d.sum? e = some f ↔
    (d.isEmpty = true ∨ e.isEmpty = true) ∧ f = empty ∨
      ¬ (d.isEmpty = true ∨ e.isEmpty = true) ∧ (Word.Fits (d.min + e.min) ∧ Word.Fits (d.max + e.max)) ∧
        f = ⟨d.min + e.min, d.max + e.max⟩ := by
  rw [sum?, ← Bool.or_eq_true]
  by_cases empty : (d.isEmpty || e.isEmpty) = true
  · simp [empty, eq_comm]
  · by_cases min : Word.Fits (d.min + e.min)
    · by_cases max : Word.Fits (d.max + e.max)
      · simp [empty, Word.check?, min, max, eq_comm]
      · simp [empty, Word.check?, min, max]
    · simp [empty, Word.check?, min]

/-- The domain of a sum has the sums of the values of both domains. -/
theorem contains_sum? (h : d.sum? e = some f) (first : d.contains n = true)
    (second : e.contains m = true) : f.contains (n + m) = true := by
  rw [contains_iff] at first second ⊢
  rcases sum?_eq_some_iff.mp h with ⟨empty, -⟩ | ⟨-, -, rfl⟩
  · rw [isEmpty_iff, isEmpty_iff] at empty
    omega
  · exact ⟨Int.add_le_add first.1 second.1, Int.add_le_add first.2 second.2⟩

theorem not_contains_of_isEmpty (empty : d.isEmpty = true) (n : Int) : d.contains n = false := by
  simp only [isEmpty, decide_eq_true_eq] at empty
  simp only [contains, Bool.and_eq_false_iff, decide_eq_false_iff_not]
  omega

end Domain

end Clausal

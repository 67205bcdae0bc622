import Clausal.Valuation
import Clausal.Purity

/-!
The truth of literals and clauses in a valuation, and what a clause asserts
under a partial one. A total valuation of the atoms below a number that
satisfies every clause is a model; the literals true in a model are closed under
the unit consequences of the clauses.
-/

namespace Clausal

namespace Valuation

theorem holds_iff {v : Valuation} {l : Literal} :
    v.holds l = true ↔ v[l.atom]? = some l.polarity := by
  simp [holds]

theorem satisfies_iff {v : Valuation} {c : Clause} :
    v.satisfies c = true ↔ ∃ l ∈ c, v.holds l = true := by
  simp [satisfies]

/-- Of the two literals of an atom of the valuation exactly one is true. -/
theorem holds_neg {v : Valuation} {l : Literal} (inside : l.atom < v.size) :
    v.holds (-l) = !v.holds l := by
  have found : v[l.atom]? = some v[l.atom] := Array.getElem?_eq_getElem inside
  simp only [holds, Literal.atom_neg, Literal.polarity_neg, found]
  cases v[l.atom] <;> cases l.polarity <;> rfl

theorem not_holds_of_neg {v : Valuation} {l : Literal} (opposite : v.holds (-l) = true) :
    v.holds l = false := by
  have found := holds_iff.mp opposite
  rw [Literal.atom_neg] at found
  simp [holds, found]

/-- A valuation of the atoms below a number that satisfies every clause of a formula. -/
def Models (v : Valuation) (f : Formula) (atoms : Nat) : Prop :=
  v.size = atoms ∧ ∀ c ∈ f, v.satisfies c = true

end Valuation

/-- Every atom of a formula is below a number. -/
def Formula.Below (f : Formula) (atoms : Nat) : Prop := ∀ c ∈ f, ∀ l ∈ c, l.atom < atoms

/-- A set of literals that has, with the negations of all other literals of a clause, the last one. -/
def Formula.UnitClosed (f : Formula) (P : Literal → Prop) : Prop :=
  ∀ c ∈ f, ∀ l ∈ c, (∀ m ∈ c, m ≠ l → P (-m)) → P l

theorem Valuation.Models.unitClosed {v : Valuation} {f : Formula} {atoms : Nat}
    (model : v.Models f atoms) : f.UnitClosed fun l => v.holds l = true := by
  intro c member l _ others
  obtain ⟨m, inside, holds⟩ := satisfies_iff.mp (model.2 c member)
  by_cases same : m = l
  · exact same ▸ holds
  · have fails := not_holds_of_neg (others m inside same)
    rw [holds] at fails
    cases fails

namespace PartialValuation

/-- The literals of a list are exactly the ones that are true. -/
def Lists (v : PartialValuation) (trail : List Literal) : Prop :=
  ∀ l : Literal, v[l.atom]? = some (some l.polarity) ↔ l ∈ trail

variable {v : PartialValuation} {trail : List Literal} {l : Literal}

theorem literal?_eq_true_iff (lists : v.Lists trail) : v.literal? l = some true ↔ l ∈ trail := by
  rw [← lists l]
  simp only [literal?, value?]
  cases v[l.atom]? with
  | none => simp
  | some value => cases value <;> simp

theorem literal?_eq_false_iff (lists : v.Lists trail) : v.literal? l = some false ↔ -l ∈ trail := by
  rw [← lists (-l)]
  simp only [literal?, value?, Literal.atom_neg, Literal.polarity_neg]
  cases v[l.atom]? with
  | none => simp
  | some value =>
    cases value with
    | none => simp
    | some b => cases b <;> cases l.polarity <;> simp

theorem literal?_eq_none_iff (lists : v.Lists trail) :
    v.literal? l = none ↔ l ∉ trail ∧ -l ∉ trail := by
  rw [← literal?_eq_true_iff lists, ← literal?_eq_false_iff lists]
  cases v.literal? l with
  | none => simp
  | some b => cases b <;> simp

/-- A literal without a value is on an atom without one, or outside the valuation. -/
theorem free_of_literal? (inside : l.atom < v.size) (free : v.literal? l = none) :
    v[l.atom]? = some none := by
  rw [Array.getElem?_eq_getElem inside]
  simp only [literal?, value?, Array.getElem?_eq_getElem inside] at free
  cases value : v[l.atom] with
  | none => rfl
  | some b => simp [value] at free

end PartialValuation

namespace Clause

variable {v : PartialValuation} {l k : Literal}

private theorem assertsFrom_some (c : Clause) (h : assertsFrom v (some l) c = some k) :
    k = l ∧ ∀ m ∈ c, v.literal? m = some false := by
  induction c with
  | nil => simpa [assertsFrom, eq_comm] using h
  | cons n c ih =>
    unfold assertsFrom at h
    split at h
    · cases h
    · next isFalse =>
      obtain ⟨same, rest⟩ := ih h
      exact ⟨same, by simpa [isFalse] using rest⟩
    · next heq => cases heq
    · cases h

/-- What a clause asserts is one of its literals, the only one that is not false. -/
theorem asserts?_some {c : Clause} (h : c.asserts? v = some k) :
    k ∈ c ∧ v.literal? k = none ∧ ∀ m ∈ c, m ≠ k → v.literal? m = some false := by
  unfold asserts? at h
  induction c with
  | nil => cases h
  | cons n c ih =>
    unfold assertsFrom at h
    split at h
    · cases h
    · next isFalse =>
      obtain ⟨inside, free, rest⟩ := ih h
      refine ⟨List.mem_cons_of_mem n inside, free, ?_⟩
      intro m member different
      rcases List.mem_cons.mp member with rfl | later
      · exact isFalse
      · exact rest m later different
    · next free _ =>
      obtain ⟨rfl, rest⟩ := assertsFrom_some c h
      refine ⟨List.mem_cons_self, free, ?_⟩
      intro m member different
      rcases List.mem_cons.mp member with same | later
      · exact absurd same different
      · exact rest m later
    · cases h

private theorem assertsFrom_of_false {c : Clause} (found : Option Literal)
    (others : ∀ m ∈ c, v.literal? m = some false) : assertsFrom v found c = found := by
  induction c with
  | nil => rfl
  | cons n c ih =>
    obtain ⟨first, rest⟩ := List.forall_mem_cons.mp others
    unfold assertsFrom
    rw [first]
    exact ih rest

/-- A clause without repeated literals asserts the only one that is not false, if it has no value. -/
theorem asserts?_of_distinct {c : Clause} (distinct : c.Nodup) (inside : k ∈ c) (free : v.literal? k = none)
    (others : ∀ m ∈ c, m ≠ k → v.literal? m = some false) : c.asserts? v = some k := by
  unfold asserts?
  induction c with
  | nil => cases inside
  | cons n c ih =>
    obtain ⟨absent, rest⟩ := List.nodup_cons.mp distinct
    unfold assertsFrom
    by_cases same : n = k
    · subst same
      rw [free]
      exact assertsFrom_of_false (some n) fun m member =>
        others m (List.mem_cons_of_mem n member) fun equal => absent (equal ▸ member)
    · rw [others n List.mem_cons_self same]
      exact ih rest ((List.mem_cons.mp inside).resolve_left (Ne.symm same)) fun m member =>
        others m (List.mem_cons_of_mem n member)

theorem falsified_iff {c : Clause} {trail : List Literal} (lists : v.Lists trail) :
    c.falsified v = true ↔ ∀ l ∈ c, -l ∈ trail := by
  simp only [falsified, List.all_eq_true, beq_iff_eq, PartialValuation.literal?_eq_false_iff lists]

end Clause

end Clausal

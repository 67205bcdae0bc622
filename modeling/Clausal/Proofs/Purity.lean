import Clausal.Proofs.Valuation

/-!
Pure literals. A literal is pure in a formula if it occurs in it and its negation
does not. Making all pure literals true keeps a model a model, so looking only for
models with pure literals true does not miss that there is one.
-/

namespace Clausal

namespace Formula

variable {f : Formula} {a : Atom} {l : Literal}

/-- The literals of a clause add their atoms, if they have the polarity. -/
private theorem mem_insertAtoms {polarity : Bool} {c : Clause} {atoms : Std.TreeSet Atom} :
    a ∈ c.foldl (fun atoms l => if l.polarity == polarity then atoms.insert l.atom else atoms) atoms ↔
      a ∈ atoms ∨ ⟨a, polarity⟩ ∈ c := by
  induction c generalizing atoms with
  | nil => simp
  | cons l c ih =>
    rw [List.foldl_cons, ih, List.mem_cons, ← or_assoc]
    refine or_congr_left ?_
    obtain ⟨b, sign⟩ := l
    rw [Literal.mk.injEq]
    by_cases same : sign = polarity
    · rw [if_pos (beq_iff_eq.mpr same), Std.TreeSet.mem_insert, Std.LawfulEqCmp.compare_eq_iff_eq,
        or_comm, eq_comm, and_iff_left same.symm]
    · have apart : ¬ (sign == polarity) = true := fun equal => same (beq_iff_eq.mp equal)
      rw [if_neg apart, iff_self_or]
      exact fun equal => absurd equal.2.symm same

theorem mem_atomsWith {polarity : Bool} : a ∈ f.atomsWith polarity ↔ ∃ c ∈ f, ⟨a, polarity⟩ ∈ c := by
  have among : ∀ (cs : List Clause) (atoms : Std.TreeSet Atom), a ∈ cs.foldl (fun atoms c =>
      c.foldl (fun atoms l => if l.polarity == polarity then atoms.insert l.atom else atoms) atoms) atoms ↔
        a ∈ atoms ∨ ∃ c ∈ cs, ⟨a, polarity⟩ ∈ c := by
    intro cs
    induction cs with
    | nil => simp
    | cons c cs ih =>
      intro atoms
      rw [List.foldl_cons, ih, mem_insertAtoms, or_assoc]
      simp
  rw [atomsWith, ← Array.foldl_toList, among]
  simp

theorem mem_pureAtoms {polarity : Bool} : a ∈ f.pureAtoms polarity ↔
    (∃ c ∈ f, ⟨a, polarity⟩ ∈ c) ∧ ∀ c ∈ f, ⟨a, !polarity⟩ ∉ c := by
  have opposed : (f.atomsWith !polarity).contains a = false ↔ ∀ c ∈ f, ⟨a, !polarity⟩ ∉ c := by
    rw [Bool.eq_false_iff, Ne, Std.TreeSet.contains_iff_mem, mem_atomsWith]
    simp
  rw [pureAtoms, List.mem_filter, Std.TreeSet.mem_toList, mem_atomsWith, Bool.not_eq_true', opposed]

/-- A literal is pure if it occurs and its negation does not. -/
theorem mem_pureLiterals : l ∈ f.pureLiterals ↔ (∃ c ∈ f, l ∈ c) ∧ ∀ c ∈ f, -l ∉ c := by
  obtain ⟨a, polarity⟩ := l
  have listed : ⟨a, polarity⟩ ∈ f.pureLiterals ↔ a ∈ f.pureAtoms polarity := by
    cases polarity <;> simp [pureLiterals]
  rw [listed, mem_pureAtoms]
  rfl

theorem pureLiterals_below {atoms : Nat} (below : f.Below atoms) :
    ∀ l ∈ f.pureLiterals, l.atom < atoms := by
  intro l member
  obtain ⟨⟨c, inside, listed⟩, -⟩ := mem_pureLiterals.mp member
  exact below c inside l listed

end Formula

/-- The valuation with all pure literals of a formula made true. -/
def Valuation.purify (v : Valuation) (f : Formula) : Valuation :=
  v.mapIdx fun a b => if ⟨a, !b⟩ ∈ f.pureLiterals then !b else b

namespace Valuation

variable {v : Valuation} {f : Formula} {l : Literal}

/-- A literal stays true unless its negation is pure. -/
theorem holds_purify (holds : v.holds l = true) (mixed : -l ∉ f.pureLiterals) :
    (v.purify f).holds l = true := by
  obtain ⟨a, polarity⟩ := l
  have value := holds_iff.mp holds
  have same : ¬ (⟨a, !polarity⟩ : Literal) ∈ f.pureLiterals := mixed
  rw [holds_iff, purify, Array.getElem?_mapIdx, value, Option.map_some, if_neg same]

theorem purify_pure (inside : l.atom < v.size) (isPure : l ∈ f.pureLiterals) :
    (v.purify f).holds l = true := by
  obtain ⟨⟨c, member, listed⟩, -⟩ := Formula.mem_pureLiterals.mp isPure
  by_cases holds : v.holds l = true
  · refine holds_purify holds fun opposite => ?_
    refine (Formula.mem_pureLiterals.mp opposite).2 c member ?_
    rwa [Literal.neg_neg]
  · obtain ⟨a, polarity⟩ := l
    have value : v[a]? = some v[a] := Array.getElem?_eq_getElem inside
    have opposite : v[a] = !polarity := by
      rw [holds_iff, value, Option.some.injEq] at holds
      exact Bool.eq_not_of_ne holds
    have same : (⟨a, !!polarity⟩ : Literal) ∈ f.pureLiterals := by rwa [Bool.not_not]
    rw [holds_iff, purify, Array.getElem?_mapIdx, value, opposite, Option.map_some, if_pos same,
      Bool.not_not]

/-- Making the pure literals true keeps a model a model. -/
theorem Models.purify {atoms : Nat} (model : v.Models f atoms) : (v.purify f).Models f atoms := by
  refine ⟨by simpa [Valuation.purify] using model.1, fun c member => ?_⟩
  obtain ⟨l, listed, holds⟩ := satisfies_iff.mp (model.2 c member)
  refine satisfies_iff.mpr ⟨l, listed, holds_purify holds fun opposite => ?_⟩
  refine (Formula.mem_pureLiterals.mp opposite).2 c member ?_
  rwa [Literal.neg_neg]

/-- A formula with a model has one in which all pure literals are true. -/
theorem exists_models_pure {atoms : Nat} (below : f.Below atoms) (model : v.Models f atoms) :
    ∃ w : Valuation, w.Models f atoms ∧ ∀ l ∈ f.pureLiterals, w.holds l = true := by
  refine ⟨v.purify f, model.purify, fun l isPure => purify_pure ?_ isPure⟩
  rw [model.1]
  exact Formula.pureLiterals_below below l isPure

end Valuation

end Clausal

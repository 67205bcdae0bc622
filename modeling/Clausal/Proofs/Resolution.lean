import Clausal.Proofs.Normalisation
import Mathlib.Data.Set.Basic
import Mathlib.Logic.Function.Basic

/-!
Resolution of clauses. Resolvents follow from the clauses they are made of, and
clauses without the empty one that are closed under resolution, up to tautologies
and to literals left out, have a model. The model gives the atoms their values in
increasing order: if neither value of an atom would do, two clauses falsified by
the one and by the other have a resolvent on smaller atoms that is falsified too.
-/

namespace Clausal

/-- A truth value for every atom. -/
abbrev Interpretation := Atom → Bool

/-- A literal is true under an interpretation. -/
def Literal.TrueIn (β : Interpretation) (l : Literal) : Prop := β l.atom = l.polarity

/-- A clause is true under an interpretation. -/
def Clause.TrueIn (β : Interpretation) (c : Clause) : Prop := ∃ l ∈ c, l.TrueIn β

/-- A literal is left of two clauses resolved on a literal of the first. -/
def Clause.Leaves (c d : Clause) (pivot l : Literal) : Prop :=
  l ∈ c ∧ l ≠ pivot ∨ l ∈ d ∧ l ≠ -pivot

/-- The resolvent of two clauses on a literal of the first is a tautology, or one of some clauses has no
literals but those of the resolvent. -/
def Clause.ResolvedIn (c : Clause) (clauses : Set Clause) (d : Clause) (l : Literal) : Prop :=
  (∃ m, c.Leaves d l m ∧ c.Leaves d l (-m)) ∨ ∃ e ∈ clauses, ∀ m ∈ e, c.Leaves d l m

theorem Literal.trueIn_neg {β : Interpretation} {l : Literal} : (-l).TrueIn β ↔ ¬ l.TrueIn β := by
  rw [TrueIn, TrueIn, atom_neg, polarity_neg]
  cases β l.atom <;> cases l.polarity <;> simp

namespace Clause

variable {c d r : Clause} {l m : Literal} {β : Interpretation}

theorem resolve_some (h : c.resolve d l = some r) : r.Normal ∧ ∀ m, m ∈ r ↔ c.Leaves d l m := by
  obtain ⟨normal, members⟩ := normalise_some h
  exact ⟨normal, fun m => by simp [members, Leaves]⟩

/-- Only tautologies are left out. -/
theorem resolve_none (h : c.resolve d l = none) : ∃ m, c.Leaves d l m ∧ c.Leaves d l (-m) := by
  obtain ⟨m, member, opposite⟩ := normalise_none h
  exact ⟨m, by simpa [Leaves] using member, by simpa [Leaves] using opposite⟩

/-- The same literals are left whichever of the clauses comes first. -/
theorem leaves_comm : c.Leaves d l m ↔ d.Leaves c (-l) m := by
  rw [Leaves, Leaves, Literal.neg_neg]
  exact Or.comm

theorem ResolvedIn.mono {clauses more : Set Clause} (h : c.ResolvedIn clauses d l)
    (sub : clauses ⊆ more) : c.ResolvedIn more d l := by
  rcases h with tautology | ⟨e, listed, within⟩
  · exact .inl tautology
  · exact .inr ⟨e, sub listed, within⟩

theorem ResolvedIn.symm {clauses : Set Clause} (h : c.ResolvedIn clauses d l) :
    d.ResolvedIn clauses c (-l) := by
  rcases h with ⟨m, here, opposite⟩ | ⟨e, listed, within⟩
  · exact .inl ⟨m, leaves_comm.mp here, leaves_comm.mp opposite⟩
  · exact .inr ⟨e, listed, fun m member => leaves_comm.mp (within m member)⟩

/-- Resolution is sound: one literal that is left is true if both clauses are. -/
theorem TrueIn.leaves (left : c.TrueIn β) (right : d.TrueIn β) (l : Literal) :
    ∃ m, c.Leaves d l m ∧ m.TrueIn β := by
  obtain ⟨m, member, holds⟩ := left
  by_cases pivot : m = l
  · obtain ⟨k, listed, holds'⟩ := right
    refine ⟨k, .inr ⟨listed, ?_⟩, holds'⟩
    rintro rfl
    exact Literal.trueIn_neg.mp holds' (pivot ▸ holds)
  · exact ⟨m, .inl ⟨member, pivot⟩, holds⟩

theorem TrueIn.resolve (left : c.TrueIn β) (right : d.TrueIn β) (h : c.resolve d l = some r) :
    r.TrueIn β := by
  obtain ⟨m, leaves, holds⟩ := left.leaves right l
  exact ⟨m, ((resolve_some h).2 m).mpr leaves, holds⟩

end Clause

/-- Clauses without the empty one that are closed under resolution. -/
structure Resolved (clauses : Set Clause) : Prop where
  nonempty : [] ∉ clauses
  closed : ∀ c ∈ clauses, ∀ d ∈ clauses, ∀ l ∈ c, -l ∈ d → c.ResolvedIn clauses d l

section Model

variable {β : Interpretation} {n : Nat} {b : Bool} {c : Clause} {l : Literal}

private theorem trueIn_update_of_below (below : l.atom < n) :
    l.TrueIn (Function.update β n b) ↔ l.TrueIn β := by
  rw [Literal.TrueIn, Literal.TrueIn, Function.update_of_ne (Nat.ne_of_lt below)]

/-- Under an interpretation that gives an atom a value a literal on this or a smaller atom fails only
if it is the opposite of the value, or fails anyway. -/
private theorem fails_update (below : l.atom < n + 1) (fails : ¬ l.TrueIn (Function.update β n b)) :
    l = ⟨n, !b⟩ ∨ l.atom < n ∧ ¬ l.TrueIn β := by
  rcases Nat.lt_or_eq_of_le (Nat.le_of_lt_succ below) with less | equal
  · exact .inr ⟨less, fun holds => fails ((trueIn_update_of_below less).mpr holds)⟩
  · left
    obtain ⟨a, p⟩ := l
    obtain rfl : a = n := equal
    rw [Literal.TrueIn, Function.update_self] at fails
    cases b <;> cases p <;> simp_all

/-- If the clauses on smaller atoms hold, one that a value of the next atom falsifies has the
opposite literal of it, and its other literals are on smaller atoms and fail. -/
private theorem clause_update (holds : (∀ l ∈ c, l.atom < n) → c.TrueIn β)
    (below : ∀ l ∈ c, l.atom < n + 1) (fails : ¬ c.TrueIn (Function.update β n b)) :
    ⟨n, !b⟩ ∈ c ∧ ∀ m ∈ c, m ≠ ⟨n, !b⟩ → m.atom < n ∧ ¬ m.TrueIn β := by
  have each : ∀ m ∈ c, m = ⟨n, !b⟩ ∨ m.atom < n ∧ ¬ m.TrueIn β := fun m member =>
    fails_update (below m member) fun holds => fails ⟨m, member, holds⟩
  refine ⟨?_, fun m member other => (each m member).resolve_left other⟩
  by_contra absent
  have smaller : ∀ m ∈ c, m.atom < n ∧ ¬ m.TrueIn β := by
    intro m member
    refine (each m member).resolve_left ?_
    rintro rfl
    exact absent member
  obtain ⟨m, member, isTrue⟩ := holds fun m member => (smaller m member).1
  exact (smaller m member).2 isTrue

/-- The clauses on the atoms below a number have a model, by induction on the number. -/
theorem Resolved.model_below {clauses : Set Clause} (resolved : Resolved clauses) (n : Nat) :
    ∃ β : Interpretation, ∀ c ∈ clauses, (∀ l ∈ c, l.atom < n) → c.TrueIn β := by
  induction n with
  | zero =>
    refine ⟨fun _ => false, fun c member below => ?_⟩
    cases c with
    | nil => exact absurd member resolved.nonempty
    | cons l c => exact absurd (below l List.mem_cons_self) (Nat.not_lt_zero _)
  | succ n ih =>
    obtain ⟨β, holds⟩ := ih
    by_contra without
    have falsified : ∀ b, ∃ c ∈ clauses, ⟨n, !b⟩ ∈ c ∧
        ∀ m ∈ c, m ≠ ⟨n, !b⟩ → m.atom < n ∧ ¬ m.TrueIn β := by
      intro b
      by_contra all
      refine without ⟨Function.update β n b, fun c member below => ?_⟩
      by_contra fails
      exact all ⟨c, member, clause_update (holds c member) below fails⟩
    obtain ⟨c, first, positive, left⟩ := falsified false
    obtain ⟨d, second, negative, right⟩ := falsified true
    have leaves : ∀ m, c.Leaves d ⟨n, true⟩ m → m.atom < n ∧ ¬ m.TrueIn β := by
      rintro m (⟨member, other⟩ | ⟨member, other⟩)
      · exact left m member other
      · exact right m member other
    rcases resolved.closed c first d second ⟨n, true⟩ positive negative with
      ⟨m, here, opposite⟩ | ⟨e, member, within⟩
    · exact (leaves _ opposite).2 (Literal.trueIn_neg.mpr (leaves m here).2)
    · obtain ⟨m, listed, isTrue⟩ := holds e member fun m listed => (leaves m (within m listed)).1
      exact (leaves m (within m listed)).2 isTrue

/-- Refutation completeness of resolution. -/
theorem Resolved.model {clauses : Set Clause} (resolved : Resolved clauses) {n : Nat}
    (below : ∀ c ∈ clauses, ∀ l ∈ c, l.atom < n) : ∃ β : Interpretation, ∀ c ∈ clauses, c.TrueIn β := by
  obtain ⟨β, holds⟩ := resolved.model_below n
  exact ⟨β, fun c member => holds c member (below c member)⟩

end Model

end Clausal

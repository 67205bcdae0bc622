import Clausal.Clause
import Mathlib.Data.Finset.Dedup
import Mathlib.Data.Finset.Lattice.Fold
import Mathlib.Data.Fintype.BigOperators
import Mathlib.Data.Fintype.Option

/-!
Normal forms of clauses. In increasing order the two literals of an atom are
neighbours, so a clause without a normal form is a tautology, and a normal form
has the literals of the clause, each once, and no complementary pair. On some
atoms there are no more normal clauses than ways to give each atom a polarity
or none.
-/

namespace Clausal

namespace Literal

/-- The order of literals: the negative literal of an atom comes right before the positive one. -/
theorem compare_eq_lt {l m : Literal} : compare l m = .lt ↔
    l.atom < m.atom ∨ l.atom = m.atom ∧ l.polarity = false ∧ m.polarity = true := by
  obtain ⟨a, p⟩ := l
  obtain ⟨b, q⟩ := m
  have whole : compare (⟨a, p⟩ : Literal) ⟨b, q⟩ = (compare a b).then (compare p q) := rfl
  rw [whole, Ordering.then_eq_lt, Nat.compare_eq_lt, Nat.compare_eq_eq]
  cases p <;> cases q <;> simp [compare]

end Literal

namespace Clause

/-- Strictly increasing literals. -/
def Increasing (c : Clause) : Prop := c.Pairwise fun l m => compare l m = .lt

theorem place_increasing {c : Clause} (l : Literal) (increasing : c.Increasing) :
    (place l c).Increasing := by
  induction c with
  | nil => exact List.pairwise_singleton _ _
  | cons m c ih =>
    obtain ⟨above, rest⟩ := List.pairwise_cons.mp increasing
    unfold place
    split
    · next less =>
      refine List.pairwise_cons.mpr ⟨fun k member => ?_, increasing⟩
      rcases List.mem_cons.mp member with rfl | later
      · exact less
      · exact Std.TransCmp.lt_trans less (above k later)
    · exact increasing
    · next greater =>
      refine List.pairwise_cons.mpr ⟨fun k member => ?_, ih rest⟩
      rcases mem_place.mp member with rfl | later
      · exact Std.OrientedCmp.lt_of_gt greater
      · exact above k later

theorem ordered_increasing (c : Clause) : c.ordered.Increasing := by
  induction c with
  | nil => exact List.Pairwise.nil
  | cons l c ih => exact place_increasing l ih

/-- Between the literals of an atom there is no other literal. -/
private theorem neighbours {l m k : Literal} (first : compare l m = .lt) (second : compare m k = .lt) :
    k ≠ -l := by
  rintro rfl
  rw [Literal.compare_eq_lt] at first second
  simp only [Literal.atom_neg, Literal.polarity_neg] at second
  rcases first with less | ⟨same, -, positive⟩
  · rcases second with below | ⟨equal, -, -⟩
    · exact Nat.lt_asymm less below
    · exact Nat.ne_of_gt less equal
  · rcases second with below | ⟨-, negative, -⟩
    · exact Nat.ne_of_gt below same
    · rw [positive] at negative
      cases negative

/-- In increasing order a complementary pair shows at neighbours. -/
theorem clashes_iff {c : Clause} (increasing : c.Increasing) :
    c.clashes = true ↔ ∃ l ∈ c, -l ∈ c := by
  induction c with
  | nil => simp [clashes]
  | cons l c ih =>
    obtain ⟨above, rest⟩ := List.pairwise_cons.mp increasing
    cases c with
    | nil =>
      have apart : l ≠ -l := fun same => Literal.neg_ne_self l same.symm
      simpa [clashes] using apart.symm
    | cons m c =>
      have beyond := (List.pairwise_cons.mp rest).1
      have only : -l ∈ m :: c → m = -l := by
        intro member
        rcases List.mem_cons.mp member with same | later
        · exact same.symm
        · exact absurd rfl (neighbours (above m List.mem_cons_self) (beyond _ later))
      rw [clashes, Bool.or_eq_true, Literal.complements_iff, ih rest]
      constructor
      · rintro (same | ⟨k, member, opposite⟩)
        · exact ⟨l, by simp, by simp [same]⟩
        · exact ⟨k, List.mem_cons_of_mem _ member, List.mem_cons_of_mem _ opposite⟩
      · rintro ⟨k, member, opposite⟩
        rcases List.mem_cons.mp member with rfl | inside
        · rcases List.mem_cons.mp opposite with same | outside
          · exact absurd same (Literal.neg_ne_self k)
          · exact .inl (only outside)
        · rcases List.mem_cons.mp opposite with same | outside
          · exact .inl (only (by rw [← same, Literal.neg_neg]; exact inside))
          · exact .inr ⟨k, inside, outside⟩

theorem normalise_some {c d : Clause} (h : c.normalise = some d) :
    d.Normal ∧ ∀ l, l ∈ d ↔ l ∈ c := by
  unfold normalise at h
  split at h
  · cases h
  · next calm =>
    cases h
    refine ⟨⟨ordered_increasing c, fun l member opposite => calm ?_⟩, fun l => mem_ordered⟩
    exact (clashes_iff (ordered_increasing c)).mpr ⟨l, member, opposite⟩

theorem normalise_none {c : Clause} (h : c.normalise = none) : ∃ l ∈ c, -l ∈ c := by
  unfold normalise at h
  split at h
  · next clash =>
    obtain ⟨l, member, opposite⟩ := (clashes_iff (ordered_increasing c)).mp clash
    exact ⟨l, mem_ordered.mp member, mem_ordered.mp opposite⟩
  · cases h

theorem subsumes_iff {c d : Clause} : c.subsumes d = true ↔ c.length ≤ d.length ∧ ∀ l ∈ c, l ∈ d := by
  simp [subsumes]

/-- The atoms of some clauses. -/
def atomsOf (clauses : List Clause) : Finset Atom := (clauses.flatten.map Literal.atom).toFinset

theorem mem_atomsOf {clauses : List Clause} {a : Atom} :
    a ∈ atomsOf clauses ↔ ∃ c ∈ clauses, ∃ l ∈ c, l.atom = a := by
  simp only [atomsOf, List.mem_toFinset, List.mem_map, List.mem_flatten]
  constructor
  · rintro ⟨l, ⟨c, member, listed⟩, same⟩
    exact ⟨c, member, l, listed, same⟩
  · rintro ⟨c, member, l, listed, same⟩
    exact ⟨l, ⟨c, member, listed⟩, same⟩

theorem exists_below (clauses : List Clause) : ∃ n, ∀ c ∈ clauses, ∀ l ∈ c, l.atom < n := by
  refine ⟨(atomsOf clauses).sup id + 1, fun c member l listed => Nat.lt_succ_of_le ?_⟩
  exact Finset.le_sup (f := id) (mem_atomsOf.mpr ⟨c, member, l, listed, rfl⟩)

/-- The polarity in which a clause has an atom, if it does. -/
def polarity? (c : Clause) (a : Atom) : Option Bool :=
  if ⟨a, true⟩ ∈ c then some true else if ⟨a, false⟩ ∈ c then some false else none

theorem Normal.mem_iff {c : Clause} (normal : c.Normal) {l : Literal} :
    l ∈ c ↔ c.polarity? l.atom = some l.polarity := by
  obtain ⟨a, p⟩ := l
  have opposite : ⟨a, true⟩ ∈ c → ⟨a, false⟩ ∉ c := fun positive => normal.2 ⟨a, true⟩ positive
  unfold polarity?
  by_cases positive : ⟨a, true⟩ ∈ c
  · cases p <;> simp [positive, opposite positive]
  · cases p <;> simp [positive]

/-- No literal is twice in a normal clause. -/
theorem Normal.nodup {c : Clause} (normal : c.Normal) : c.Nodup :=
  normal.1.imp fun less equal => by simp [equal, Std.ReflCmp.compare_self] at less

/-- The literals of a normal clause come in one order only. -/
theorem Normal.eq_of_mem {c d : Clause} (first : c.Normal) (second : d.Normal)
    (same : ∀ l, l ∈ c ↔ l ∈ d) : c = d := by
  have perm := (List.perm_ext_iff_of_nodup first.nodup second.nodup).mpr same
  refine perm.eq_of_pairwise (fun l m _ _ less greater => ?_) first.1 second.1
  rw [Std.OrientedCmp.gt_of_lt greater] at less
  cases less

/-- There are at most `3 ^ k` normal clauses on `k` atoms. -/
theorem length_le_of_normal {atoms : Finset Atom} {clauses : List Clause} (distinct : clauses.Nodup)
    (normal : ∀ c ∈ clauses, c.Normal) (inside : ∀ c ∈ clauses, ∀ l ∈ c, l.atom ∈ atoms) :
    clauses.length ≤ 3 ^ atoms.card := by
  let shape (c : Clause) : atoms → Option Bool := fun a => c.polarity? a
  have injective : ∀ c ∈ clauses, ∀ d ∈ clauses, shape c = shape d → c = d := by
    intro c first d second same
    have within : ∀ {c d : Clause}, c ∈ clauses → d ∈ clauses → shape c = shape d → ∀ l ∈ c, l ∈ d := by
      intro c d first second same l member
      have found := (normal c first).mem_iff.mp member
      have equal : c.polarity? l.atom = d.polarity? l.atom :=
        congrFun same ⟨l.atom, inside c first l member⟩
      exact (normal d second).mem_iff.mpr (equal ▸ found)
    exact (normal c first).eq_of_mem (normal d second) fun l =>
      ⟨within first second same l, within second first same.symm l⟩
  have bound := (distinct.map_on injective).length_le_card
  simpa using bound

end Clause

end Clausal

import Clausal.Proofs.Invariant

/-!
What storing a clause keeps of it. A clause always holds, once the atom that always holds is true, just
if that literal or a complementary pair is among its literals: any other clause fails under the valuation
that gives every atom the value against its literal. These are the clauses that are not stored, and of any
other its normal form says the same. Main statement: `store_exact`.
-/

namespace Clausal

namespace Clause

variable {c d : Clause} {v : Valuation}

section Normalising

theorem normalise_eq_none_iff : c.normalise = none ↔ ∃ l ∈ c, -l ∈ c := by
  refine ⟨normalise_none, fun ⟨l, member, opposite⟩ => ?_⟩
  cases found : c.normalise with
  | none => rfl
  | some d =>
    obtain ⟨normal, same⟩ := normalise_some found
    exact absurd ((same _).mpr opposite) (normal.2 l ((same l).mpr member))

/-- The normal form is the only normal clause with the literals of the clause. -/
theorem normalise_eq_some_iff : c.normalise = some d ↔ d.Normal ∧ ∀ l, l ∈ d ↔ l ∈ c := by
  refine ⟨normalise_some, fun ⟨normal, same⟩ => ?_⟩
  cases found : c.normalise with
  | none =>
    obtain ⟨l, member, opposite⟩ := normalise_none found
    exact absurd ((same _).mpr opposite) (normal.2 l ((same l).mpr member))
  | some e =>
    obtain ⟨normal', same'⟩ := normalise_some found
    exact congrArg some (normal'.eq_of_mem normal fun l => (same' l).trans (same l).symm)

theorem Normal.normalise (normal : d.Normal) : d.normalise = some d :=
  normalise_eq_some_iff.mpr ⟨normal, fun _ => Iff.rfl⟩

end Normalising

/-- The form in which a clause is stored, or `none` if it is not stored. -/
def stored? (c : Clause) : Option Clause :=
  if c.contains Literal.top then none else normalise (c.filter (· != -Literal.top))

theorem stored?_eq_none_iff : c.stored? = none ↔ Literal.top ∈ c ∨ ∃ l ∈ c, -l ∈ c := by
  unfold stored?
  split
  · next always => exact iff_of_true rfl (.inl (by simpa using always))
  · next absent =>
    have missing : Literal.top ∉ c := by simpa using absent
    rw [normalise_eq_none_iff, or_iff_right missing]
    constructor
    · rintro ⟨l, member, opposite⟩
      exact ⟨l, List.mem_of_mem_filter member, List.mem_of_mem_filter opposite⟩
    · -- Neither of the two is the literal left out, as the other one would be the one that is missing.
      rintro ⟨l, member, opposite⟩
      refine ⟨l, List.mem_filter.mpr ⟨member, ?_⟩, List.mem_filter.mpr ⟨opposite, ?_⟩⟩
      · rw [bne_iff_ne]
        rintro rfl
        exact missing (by simpa using opposite)
      · rw [bne_iff_ne]
        intro same
        have equal : l = Literal.top := by rw [← Literal.neg_neg l, same, Literal.neg_neg]
        exact missing (equal ▸ member)

theorem stored?_some (found : c.stored? = some d) :
    Literal.top ∉ c ∧ d.Normal ∧ ∀ l, l ∈ d ↔ l ∈ c ∧ l ≠ -Literal.top := by
  unfold stored? at found
  split at found
  · cases found
  · next absent =>
    obtain ⟨normal, same⟩ := normalise_some found
    refine ⟨by simpa using absent, normal, fun l => ?_⟩
    rw [same l, List.mem_filter, bne_iff_ne]

/-- What is stored has no literal on the atom that always holds. -/
theorem settled_of_stored? (found : c.stored? = some d) : d.Settled := by
  obtain ⟨missing, -, same⟩ := stored?_some found
  intro l member
  obtain ⟨listed, different⟩ := (same l).mp member
  obtain ⟨a, p⟩ := l
  rintro rfl
  cases p with
  | true => exact missing listed
  | false => exact different rfl

/-- What is stored says the same as the clause. -/
theorem satisfies_stored? (top : v.holds Literal.top = true) (found : c.stored? = some d) :
    v.satisfies d = true ↔ v.satisfies c = true := by
  rw [← KnowledgeBase.satisfies_filter top (c := c), Valuation.satisfies_iff, Valuation.satisfies_iff]
  refine exists_congr fun l => and_congr_left fun _ => ?_
  rw [(stored?_some found).2.2 l, List.mem_filter, bne_iff_ne]

/-- What is not stored always holds. -/
theorem satisfies_of_stored?_none (top : v.holds Literal.top = true) (covers : v.Covers c)
    (nothing : c.stored? = none) : v.satisfies c = true := by
  rcases stored?_eq_none_iff.mp nothing with member | ⟨l, member, opposite⟩
  · exact Valuation.satisfies_iff.mpr ⟨Literal.top, member, top⟩
  · exact KnowledgeBase.satisfies_of_opposite (covers l member) member opposite

section Refuting

variable {atoms : Nat}

/-- The valuation that goes against every literal of a clause, and makes the atom that always holds true. -/
def against (c : Clause) (atoms : Nat) : Valuation :=
  Array.ofFn fun a : Fin atoms => decide (a.val = Atom.top ∨ ⟨a, false⟩ ∈ c)

theorem size_against : (c.against atoms).size = atoms := Array.size_ofFn

theorem getElem?_against {a : Atom} (inside : a < atoms) :
    (c.against atoms)[a]? = some (decide (a = Atom.top ∨ ⟨a, false⟩ ∈ c)) := by
  simp [against, inside]

/-- A clause that is stored does not always hold. -/
theorem not_satisfies_against (below : ∀ l ∈ c, l.atom < atoms) (found : c.stored? ≠ none) :
    ¬ (c.against atoms).satisfies c = true := by
  rw [Ne, stored?_eq_none_iff, not_or, not_exists] at found
  obtain ⟨missing, apart⟩ := found
  rw [Valuation.satisfies_iff]
  rintro ⟨⟨a, p⟩, member, holds⟩
  rw [Valuation.holds_iff, getElem?_against (below _ member), Option.some.injEq] at holds
  cases p with
  | true =>
    rcases of_decide_eq_true holds with rfl | opposite
    · exact missing member
    · exact apart _ ⟨member, opposite⟩
  | false => exact of_decide_eq_false holds (.inr member)

end Refuting

end Clause

namespace KnowledgeBase

variable {kb : KnowledgeBase} {allowed : Config → Prop} {c d : Clause} {cs : List Clause} {v : Valuation}

/-- A valuation of the atoms of a knowledge base under which the atom that always holds is true. -/
structure Grounds (kb : KnowledgeBase) (v : Valuation) : Prop where
  size : v.size = kb.atomCount
  top : v.holds Literal.top = true

theorem store_eq (kb : KnowledgeBase) (c : Clause) : kb.store c = match c.stored? with
    | none => (.tautology, kb)
    | some d => (.added, { kb with clauses := kb.clauses.push d }) := by
  unfold store Clause.stored?
  split <;> rfl

/-- Storing clauses appends the forms of those that are stored. -/
theorem storeAll_clauses (kb : KnowledgeBase) (cs : List Clause) :
    (kb.storeAll cs).clauses.toList = kb.clauses.toList ++ cs.filterMap Clause.stored? := by
  induction cs generalizing kb with
  | nil => simp [storeAll]
  | cons c cs ih =>
    change ((kb.store c).2.storeAll cs).clauses.toList = _
    rw [ih, store_eq, List.filterMap_cons]
    cases c.stored? with
    | none => rfl
    | some d => simp

/-- What is stored of some clauses says the same as they do. -/
theorem all_stored (top : v.holds Literal.top = true) (covers : ∀ c ∈ cs, v.Covers c) :
    v.All (cs.filterMap Clause.stored?) ↔ v.All cs := by
  induction cs with
  | nil => exact Iff.rfl
  | cons c cs ih =>
    obtain ⟨first, rest⟩ := List.forall_mem_cons.mp covers
    rw [List.filterMap_cons, Valuation.all_cons, ← ih rest]
    cases found : c.stored? with
    | none => exact (and_iff_right (Clause.satisfies_of_stored?_none top first found)).symm
    | some d => rw [Valuation.all_cons, Clause.satisfies_stored? top found]

/-- A clause is not stored exactly if it holds whenever the atom that always holds is true. -/
theorem stored?_eq_none_iff_always (nonempty : 0 < kb.atomCount) (below : ∀ l ∈ c, l.atom < kb.atomCount) :
    c.stored? = none ↔ ∀ v, kb.Grounds v → v.satisfies c = true := by
  constructor
  · intro nothing v ground
    exact Clause.satisfies_of_stored?_none ground.top (fun l member => ground.size ▸ below l member) nothing
  · intro always
    by_contra found
    have top : (c.against kb.atomCount).holds Literal.top = true :=
      Valuation.holds_iff.mpr ((Clause.getElem?_against nonempty).trans (congrArg some (decide_eq_true (.inl rfl))))
    exact Clause.not_satisfies_against below found (always _ ⟨Clause.size_against, top⟩)

/-- Storing a clause over the atoms of a knowledge base says nothing, and changes nothing, exactly if the
clause always holds. Otherwise it appends one clause that says the same, normal and without a literal of
the atom that always holds. A clause has no normal form exactly if it has a complementary pair; its normal
form is the one normal clause with its literals, and is its own normal form. -/
theorem store_exact (reached : Reachable allowed kb) (below : ∀ l ∈ c, l.atom < kb.atomCount) :
    ((kb.store c).1 = .tautology ↔ ∀ v, kb.Grounds v → v.satisfies c = true) ∧
      ((kb.store c).1 = .tautology → (kb.store c).2 = kb) ∧
      ((kb.store c).1 ≠ .tautology → ∃ d : Clause, kb.store c = (.added, { kb with clauses := kb.clauses.push d }) ∧
        d.Normal ∧ (∀ l ∈ d, l.atom ≠ Atom.top) ∧
        ∀ v, kb.Grounds v → (v.satisfies d = true ↔ v.satisfies c = true)) ∧
      (∀ e : Clause, e.normalise = none ↔ ∃ l ∈ e, -l ∈ e) ∧
      (∀ e d : Clause, e.normalise = some d ↔ d.Normal ∧ ∀ l, l ∈ d ↔ l ∈ e) ∧
      ∀ e d : Clause, e.normalise = some d → d.normalise = some d := by
  obtain ⟨added, faithful⟩ := reached.faithful
  have always := stored?_eq_none_iff_always faithful.nonempty below
  have normalising : ∀ e d : Clause, e.normalise = some d → d.normalise = some d :=
    fun e d found => (Clause.normalise_some found).1.normalise
  rw [store_eq, ← always]
  refine ⟨?_, ?_, ?_, fun e => Clause.normalise_eq_none_iff, fun e d => Clause.normalise_eq_some_iff, normalising⟩
  · cases c.stored? <;> simp
  · cases c.stored? <;> simp
  · intro kept
    cases found : c.stored? with
    | none => simp [found] at kept
    | some d =>
      exact ⟨d, rfl, (Clause.stored?_some found).2.1, Clause.settled_of_stored? found,
        fun v ground => Clause.satisfies_stored? ground.top found⟩

/-- Over three atoms, a clause out of order with a literal twice and the literal that never holds, and one
whose complementary pair is apart. -/
theorem store_exact_disorder :
    let p : Expr := .symbol ⟨0, 0, "p", .boolean⟩
    let q : Expr := .symbol ⟨0, 1, "q", .boolean⟩
    let kb := ((KnowledgeBase.empty {}).add [p, q]).2
    let c : Clause := [⟨2, false⟩, -Literal.top, ⟨1, true⟩, ⟨2, false⟩]
    let t : Clause := [⟨2, true⟩, ⟨1, true⟩, ⟨2, false⟩]
    Reachable (fun _ => True) kb ∧ (∀ l ∈ c ++ t, l.atom < kb.atomCount) ∧
      kb.store c = (.added, { kb with clauses := kb.clauses.push [⟨1, true⟩, ⟨2, false⟩] }) ∧
      (¬ ∀ v, kb.Grounds v → v.satisfies c = true) ∧
      kb.store t = (.tautology, kb) ∧ ∀ v, kb.Grounds v → v.satisfies t = true := by
  intro p q kb c t
  have reached : Reachable (fun _ => True) kb := .add (.empty trivial) _
  have below : ∀ l ∈ c, l.atom < kb.atomCount := by decide
  have below' : ∀ l ∈ t, l.atom < kb.atomCount := by decide
  exact ⟨reached, List.forall_mem_append.mpr ⟨below, below'⟩, rfl,
    (store_exact reached below).1.not.mp (by decide), rfl, (store_exact reached below').1.mp rfl⟩

end KnowledgeBase

end Clausal

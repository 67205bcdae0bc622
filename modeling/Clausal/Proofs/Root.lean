import Clausal.Proofs.Propagation

/-!
The root of the search. Valuing the root puts on the trail exactly the literals of
unit clauses and the assumptions; it fails only if the formula has the empty clause
or two of those literals are complementary.
-/

namespace Clausal.Search

/-- The second search differs in its trail only, on which it has literals of a set besides those of
the first. -/
structure Adds (s : Search) (P : Literal → Prop) (t : Search) : Prop where
  frame : t = { s with
    valuation := t.valuation
    trail := t.trail }
  size : t.valuation.size = s.valuation.size
  records : t.valuation.Records t.path
  keeps : ∀ l ∈ s.path, l ∈ t.path
  only : ∀ l ∈ t.path, l ∈ s.path ∨ P l

variable {s t u : Search} {P Q : Literal → Prop} {l : Literal}

theorem Adds.refl (records : s.valuation.Records s.path) : s.Adds P s :=
  ⟨rfl, rfl, records, fun _ listed => listed, fun _ listed => .inl listed⟩

theorem Adds.trans (first : s.Adds P t) (second : t.Adds P u) : s.Adds P u := by
  refine ⟨?_, second.size.trans first.size, second.records,
    fun l listed => second.keeps l (first.keeps l listed), ?_⟩
  · rw [second.frame, first.frame]
  · intro l listed
    rcases second.only l listed with before | added
    · exact first.only l before
    · exact .inr added

theorem Adds.weaken (adds : s.Adds P t) (sub : ∀ l, P l → Q l) : s.Adds Q t :=
  ⟨adds.frame, adds.size, adds.records, adds.keeps, fun l listed => (adds.only l listed).imp_right (sub l)⟩

/-- Assuming a literal makes it true, unless it is false. -/
theorem assume_spec {b : Bool} (records : s.valuation.Records s.path)
    (inside : l.atom < s.valuation.size) (h : s.assume l = (b, t)) :
    s.Adds (· = l) t ∧ (b = true → l ∈ t.path) ∧ (b = false → -l ∈ t.path) := by
  obtain ⟨rfl, rfl⟩ := (Prod.mk.injEq ..).mp h
  cases value : s.valuation.literal? l with
  | none =>
    have free := PartialValuation.free_of_literal? inside value
    have path : (s.assign l).path = s.path ++ [l] := by simp [assign_of_free free, Search.path]
    refine ⟨⟨?_, by simp, ?_, ?_, ?_⟩, by simp [path], by simp⟩
    · rw [assign_of_free free]
    · rw [path, assign_of_free free]
      exact records.push free
    · intro m listed
      simp [path, listed]
    · intro m listed
      simpa [path] using listed
  | some b =>
    have valued : s.valuation[l.atom]? ≠ some none := by
      intro free
      simp [PartialValuation.literal?, PartialValuation.value?, free] at value
    rw [assign_of_valued valued]
    refine ⟨.refl records, ?_, ?_⟩
    · intro notFalse
      rw [← PartialValuation.literal?_eq_true_iff records.lists, value]
      cases b <;> simp at notFalse ⊢
    · intro isFalse
      rw [← PartialValuation.literal?_eq_false_iff records.lists, value]
      cases b <;> simp at isFalse ⊢

/-- Assuming literals in turn makes them true, up to one that is false. -/
theorem assumeAll_spec {literals : List Literal} {b : Bool} (records : s.valuation.Records s.path)
    (inside : ∀ l ∈ literals, l.atom < s.valuation.size) (h : s.assumeAll literals = (b, t)) :
    s.Adds (· ∈ literals) t ∧ (b = true → ∀ l ∈ literals, l ∈ t.path) ∧
      (b = false → ∃ l ∈ literals, -l ∈ t.path) := by
  induction literals generalizing s with
  | nil =>
    cases h
    exact ⟨.refl records, by simp, by simp⟩
  | cons l rest ih =>
    have head : ∀ m, m = l → m ∈ l :: rest := fun m same => same ▸ List.mem_cons_self
    unfold assumeAll at h
    split at h
    · next middle assumed =>
      obtain ⟨first, listed, -⟩ := assume_spec records (inside l List.mem_cons_self) assumed
      have within : ∀ m ∈ rest, m.atom < middle.valuation.size := fun m member => by
        rw [first.size]
        exact inside m (List.mem_cons_of_mem l member)
      obtain ⟨others, all, refused⟩ := ih first.records within h
      refine ⟨(first.weaken head).trans (others.weaken fun m => List.mem_cons_of_mem l), ?_, ?_⟩
      · intro success m member
        rcases List.mem_cons.mp member with rfl | later
        · exact others.keeps m (listed rfl)
        · exact all success m later
      · intro failure
        obtain ⟨m, member, opposite⟩ := refused failure
        exact ⟨m, List.mem_cons_of_mem l member, opposite⟩
    · next middle refused =>
      obtain ⟨first, -, opposite⟩ := assume_spec records (inside l List.mem_cons_self) refused
      cases h
      exact ⟨first.weaken head, by simp, fun _ => ⟨l, List.mem_cons_self, opposite rfl⟩⟩

/-- Going through the clauses makes the literals of unit clauses true, up to one that is false or to
an empty clause. -/
theorem assumeUnits_spec {clauses : List Clause} {b : Bool} (records : s.valuation.Records s.path)
    (inside : ∀ c ∈ clauses, ∀ l ∈ c, l.atom < s.valuation.size)
    (h : s.assumeUnits clauses = (b, t)) :
    s.Adds ([·] ∈ clauses) t ∧
      (b = true → [] ∉ clauses ∧ ∀ l, [l] ∈ clauses → l ∈ t.path) ∧
      (b = false → [] ∈ clauses ∨ ∃ l, [l] ∈ clauses ∧ -l ∈ t.path) := by
  fun_induction assumeUnits s clauses with
  | case1 s =>
    cases h
    exact ⟨.refl records, by simp, by simp⟩
  | case2 s rest =>
    cases h
    exact ⟨.refl records, by simp, by simp⟩
  | case3 s l rest middle assumed ih =>
    obtain ⟨first, listed, -⟩ := assume_spec records (inside _ List.mem_cons_self l (by simp)) assumed
    have within : ∀ c ∈ rest, ∀ m ∈ c, m.atom < middle.valuation.size := fun c member => by
      rw [first.size]
      exact inside c (List.mem_cons_of_mem _ member)
    obtain ⟨others, all, refused⟩ := ih first.records within h
    refine ⟨(first.weaken fun m same => same ▸ List.mem_cons_self).trans
      (others.weaken fun m => List.mem_cons_of_mem _), ?_, ?_⟩
    · intro success
      refine ⟨by simp [(all success).1], ?_⟩
      intro m member
      rcases List.mem_cons.mp member with same | later
      · cases same
        exact others.keeps _ (listed rfl)
      · exact (all success).2 m later
    · intro failure
      rcases refused failure with empty | ⟨m, member, opposite⟩
      · exact .inl (List.mem_cons_of_mem _ empty)
      · exact .inr ⟨m, List.mem_cons_of_mem _ member, opposite⟩
  | case4 s l rest middle refused =>
    obtain ⟨first, -, opposite⟩ := assume_spec records (inside _ List.mem_cons_self l (by simp)) refused
    cases h
    exact ⟨first.weaken fun m same => same ▸ List.mem_cons_self, by simp,
      fun _ => .inr ⟨l, List.mem_cons_self, opposite rfl⟩⟩
  | case5 s c rest notEmpty notUnit ih =>
    obtain ⟨adds, all, refused⟩ := ih records (fun d member => inside d (List.mem_cons_of_mem c member)) h
    refine ⟨adds.weaken fun m => List.mem_cons_of_mem c, ?_, ?_⟩
    · intro success
      refine ⟨?_, ?_⟩
      · intro member
        rcases List.mem_cons.mp member with same | later
        · exact notEmpty same.symm
        · exact (all success).1 later
      · intro m member
        rcases List.mem_cons.mp member with same | later
        · exact absurd same.symm (notUnit m)
        · exact (all success).2 m later
    · intro failure
      rcases refused failure with empty | ⟨m, member, opposite⟩
      · exact .inl (List.mem_cons_of_mem c empty)
      · exact .inr ⟨m, List.mem_cons_of_mem c member, opposite⟩

/-- What holds of a search before its first step. -/
structure Blank (s : Search) : Prop extends WellFormed s where
  path : s.path = []
  decisions : s.decisions = []
  assumptions : ∀ l ∈ s.assumptions, l.atom < s.valuation.size

/-- The literals that hold before any decision. -/
def Rooted (s : Search) (l : Literal) : Prop := [l] ∈ s.clauses ∨ l ∈ s.assumptions

/-- The second search is the first one with its root valued, as far as that goes. -/
structure Roots (s t : Search) : Prop where
  frame : t = { s with
    valuation := t.valuation
    trail := t.trail
    assumptions := t.assumptions }
  size : t.valuation.size = s.valuation.size
  records : t.valuation.Records t.path
  only : ∀ l ∈ t.path, s.Rooted l

/-- Valuing the root puts exactly the literals that hold there on the trail, unless the formula has
the empty clause or two of them are complementary. -/
theorem valueRoot_spec {b : Bool} (blank : s.Blank) (h : s.valueRoot = (b, t)) :
    s.Roots t ∧
      (b = true → [] ∉ s.clauses ∧ ∀ l, s.Rooted l → l ∈ t.path) ∧
      (b = false → [] ∈ s.clauses ∨ ∃ l, s.Rooted l ∧ s.Rooted (-l)) := by
  have inside : ∀ c ∈ s.clauses.toList, ∀ l ∈ c, l.atom < s.valuation.size := fun c member =>
    blank.below c (Array.mem_toList_iff.mp member)
  have unit : ∀ l : Literal, [l] ∈ s.clauses.toList → s.Rooted l :=
    fun l member => .inl (Array.mem_toList_iff.mp member)
  unfold valueRoot at h
  split at h
  · next middle units =>
    obtain ⟨first, all, -⟩ := assumeUnits_spec blank.records inside units
    obtain ⟨noEmpty, listed⟩ := all rfl
    have assumptions : middle.assumptions = s.assumptions := by rw [first.frame]
    have within : ∀ l ∈ middle.assumptions, l.atom < middle.valuation.size := by
      rw [assumptions, first.size]
      exact blank.assumptions
    obtain ⟨second, assumed, refused⟩ :=
      assumeAll_spec (s := { middle with assumptions := [] }) first.records within h
    have only : ∀ l ∈ t.path, s.Rooted l := by
      intro l member
      rcases second.only l member with before | added
      · rcases first.only l before with earlier | isUnit
        · rw [blank.path] at earlier
          cases earlier
        · exact unit l isUnit
      · exact .inr (assumptions ▸ added)
    refine ⟨⟨?_, second.size.trans first.size, second.records, only⟩, ?_, ?_⟩
    · rw [second.frame, first.frame]
    · intro success
      refine ⟨fun empty => noEmpty (Array.mem_toList_iff.mpr empty), ?_⟩
      rintro l (isUnit | isAssumed)
      · exact second.keeps l (listed l (Array.mem_toList_iff.mpr isUnit))
      · exact assumed success l (assumptions.symm ▸ isAssumed)
    · intro failure
      obtain ⟨l, member, opposite⟩ := refused failure
      exact .inr ⟨l, .inr (assumptions ▸ member), only _ opposite⟩
  · next middle units =>
    obtain ⟨first, -, failed⟩ := assumeUnits_spec blank.records inside units
    have only : ∀ l ∈ middle.path, s.Rooted l := by
      intro l member
      rcases first.only l member with earlier | isUnit
      · rw [blank.path] at earlier
        cases earlier
      · exact unit l isUnit
    cases h
    refine ⟨⟨?_, first.size, first.records, only⟩, by simp, fun _ => ?_⟩
    · rw [first.frame]
    · rcases failed rfl with empty | ⟨l, isUnit, opposite⟩
      · exact .inl (Array.mem_toList_iff.mp empty)
      · exact .inr ⟨l, unit l isUnit, only _ opposite⟩

theorem Roots.task (roots : s.Roots t) : s.SameTask t :=
  ⟨by rw [roots.frame], by rw [roots.frame], roots.size, by rw [roots.frame], by rw [roots.frame],
    by rw [roots.frame]⟩

/-- A valued root is without decisions, and nothing of it is propagated yet. -/
theorem Roots.wellFormed (roots : s.Roots t) (blank : s.Blank) :
    t.WellFormed ∧ t.decisions = [] ∧ t.head = 0 := by
  have decisions : t.decisions = [] := by rw [roots.frame, blank.decisions]
  have head : t.head = 0 := by
    have bound := blank.propagated
    rw [blank.path] at bound
    rw [roots.frame]
    exact Nat.le_zero.mp bound
  have kept : t.Disciplined :=
    ⟨roots.records, by simp [head], by simp [decisions], by simp [decisions]⟩
  exact ⟨blank.toWellFormed.of_task roots.task kept, decisions, head⟩

/-- What holds at the root holds in every model in which the assumptions do. -/
theorem Rooted.holds {v : Valuation} {atoms : Nat} (rooted : s.Rooted l)
    (model : v.Models s.clauses atoms) (assumed : ∀ l ∈ s.assumptions, v.holds l = true) :
    v.holds l = true := by
  rcases rooted with unit | assumption
  · obtain ⟨m, inside, holds⟩ := Valuation.satisfies_iff.mp (model.2 _ unit)
    rwa [List.mem_singleton.mp inside] at holds
  · exact assumed l assumption

end Clausal.Search

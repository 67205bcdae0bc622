import Clausal.Proofs.Trail

/-!
Unit propagation: every literal it adds to the trail is a unit consequence of the
literals before it. When the trail ends without a conflict no clause is falsified,
although only the clauses with the negation of a new literal are looked at; a
conflict is a clause all literals of which are false.
-/

namespace Clausal

private theorem double_add_inj {a b : Nat} {p q : Bool} (same : 2 * a + p.toNat = 2 * b + q.toNat) :
    a = b ∧ p = q := by
  cases p <;> cases q <;> simp only [Bool.toNat_true, Bool.toNat_false] at same ⊢ <;> simp <;> omega

private theorem double_add_lt {a n : Nat} (p : Bool) (inside : a < n) :
    2 * a + p.toNat < 2 * n := by
  have bound := Bool.toNat_le p
  omega

theorem Literal.index_inj {l m : Literal} : l.index = m.index ↔ l = m := by
  refine ⟨fun same => ?_, fun same => same ▸ rfl⟩
  obtain ⟨atom, polarity⟩ := double_add_inj same
  cases l
  cases m
  exact (Literal.mk.injEq ..).mpr ⟨atom, polarity⟩

namespace Search

private theorem mem_clauseOccurrences (c : Clause) (i : Nat) (table : Array (Array Nat))
    {k : Nat} (inside : k < table.size) (j : Nat) :
    j ∈ (c.foldl (fun table l => table.modify l.index (·.push i)) table)[k]?.getD #[] ↔
      j ∈ table[k]?.getD #[] ∨ j = i ∧ ∃ l ∈ c, l.index = k := by
  induction c generalizing table with
  | nil => simp
  | cons l c ih =>
    rw [List.foldl_cons, ih _ (by simpa using inside), Array.getElem?_modify,
      Array.getElem?_eq_getElem inside]
    by_cases same : l.index = k
    · by_cases last : j = i
      · simp [same, last]
      · simp [same, last]
    · simp [same]

private theorem size_clauseOccurrences (c : Clause) (i : Nat) (table : Array (Array Nat)) :
    (c.foldl (fun table l => table.modify l.index (·.push i)) table).size = table.size := by
  induction c generalizing table with
  | nil => rfl
  | cons l c ih => rw [List.foldl_cons, ih, Array.size_modify]

private theorem mem_formulaOccurrences (entries : List (Clause × Nat)) (table : Array (Array Nat))
    {k : Nat} (inside : k < table.size) (j : Nat) :
    j ∈ (entries.foldl (fun table (c, i) =>
        c.foldl (fun table l => table.modify l.index (·.push i)) table) table)[k]?.getD #[] ↔
      j ∈ table[k]?.getD #[] ∨ ∃ c, (c, j) ∈ entries ∧ ∃ l ∈ c, l.index = k := by
  induction entries generalizing table with
  | nil => simp
  | cons entry entries ih =>
    obtain ⟨c, i⟩ := entry
    rw [List.foldl_cons, ih _ (by rwa [size_clauseOccurrences]), mem_clauseOccurrences c i table inside]
    constructor
    · rintro ((before | ⟨rfl, found⟩) | ⟨d, later, found⟩)
      · exact .inl before
      · exact .inr ⟨c, List.mem_cons_self, found⟩
      · exact .inr ⟨d, List.mem_cons_of_mem _ later, found⟩
    · rintro (before | ⟨d, member, found⟩)
      · exact .inl (.inl before)
      · rcases List.mem_cons.mp member with same | later
        · cases same
          exact .inl (.inr ⟨rfl, found⟩)
        · exact .inr ⟨d, later, found⟩

/-- The clauses listed for a literal are the ones it occurs in. -/
theorem mem_occurrencesIn (f : Formula) {atoms : Nat} {l : Literal} (inside : l.atom < atoms) (i : Nat) :
    i ∈ (occurrencesIn f atoms)[l.index]?.getD #[] ↔ ∃ c, f[i]? = some c ∧ l ∈ c := by
  have room : l.index < (Array.replicate (2 * atoms) (#[] : Array Nat)).size := by
    rw [Array.size_replicate]
    exact double_add_lt l.polarity inside
  rw [occurrencesIn, mem_formulaOccurrences _ _ room]
  have empty : (Array.replicate (2 * atoms) (#[] : Array Nat))[l.index]?.getD #[] = #[] := by
    rw [Array.getElem?_eq_getElem room]
    simp
  simp only [empty, Array.not_mem_empty, false_or, List.mem_zipIdx_iff_getElem?, Literal.index_inj]
  simp

/-- Notes the position of a clause for a literal, if the table has an entry for the literal. -/
def note? (i : Nat) (table : Array (Array Nat)) (l : Literal) : Option (Array (Array Nat)) :=
  if inside : l.index < table.size then some (table.set l.index (table[l.index].push i)) else none

/-- The table of occurrences, if it is only ever written inside. -/
def occurrencesIn? (clauses : Formula) (atoms : Nat) : Option (Array (Array Nat)) :=
  clauses.toList.zipIdx.foldlM (fun table entry => entry.1.foldlM (note? entry.2) table)
    (Array.replicate (2 * atoms) #[])

private theorem note?_eq {i : Nat} {table : Array (Array Nat)} {l : Literal}
    (inside : l.index < table.size) : note? i table l = some (table.modify l.index (·.push i)) := by
  rw [note?, dif_pos inside]
  refine congrArg some (Array.ext_getElem? fun k => ?_)
  rw [Array.getElem?_set, Array.getElem?_modify]
  by_cases same : l.index = k
  · subst same
    simp [inside]
  · simp [same]

private theorem clauseOccurrences?_eq {c : Clause} {i : Nat} {table : Array (Array Nat)}
    (inside : ∀ l ∈ c, l.index < table.size) :
    c.foldlM (note? i) table = some (c.foldl (fun table l => table.modify l.index (·.push i)) table) := by
  induction c generalizing table with
  | nil => rfl
  | cons l c ih =>
    obtain ⟨first, rest⟩ := List.forall_mem_cons.mp inside
    rw [List.foldlM_cons, note?_eq first]
    exact ih (by simpa using rest)

private theorem formulaOccurrences?_eq {entries : List (Clause × Nat)} {table : Array (Array Nat)}
    (inside : ∀ entry ∈ entries, ∀ l ∈ entry.1, l.index < table.size) :
    entries.foldlM (fun table entry => entry.1.foldlM (note? entry.2) table) table =
      some (entries.foldl (fun table (c, i) =>
        c.foldl (fun table l => table.modify l.index (·.push i)) table) table) := by
  induction entries generalizing table with
  | nil => rfl
  | cons entry entries ih =>
    obtain ⟨first, rest⟩ := List.forall_mem_cons.mp inside
    rw [List.foldlM_cons, clauseOccurrences?_eq first]
    exact ih (by simpa [size_clauseOccurrences] using rest)

/-- The table is only written inside if the clauses are on its atoms. -/
theorem occurrencesIn?_eq {clauses : Formula} {atoms : Nat} (below : clauses.Below atoms) :
    occurrencesIn? clauses atoms = some (occurrencesIn clauses atoms) := by
  refine formulaOccurrences?_eq fun entry member l listed => ?_
  rw [Array.size_replicate]
  exact double_add_lt l.polarity
    (below entry.1 (Array.mem_toList_iff.mp (List.fst_mem_of_mem_zipIdx member)) l listed)

/-- What holds of a search between any two of its steps: the trail discipline, and that the clauses
are on its atoms and found by their literals. -/
structure WellFormed (s : Search) : Prop extends Disciplined s where
  below : s.clauses.Below s.valuation.size
  indexed : s.occurrences = occurrencesIn s.clauses s.valuation.size

theorem WellFormed.of_task {s t : Search} (formed : s.WellFormed) (task : s.SameTask t)
    (kept : t.Disciplined) : t.WellFormed := by
  refine ⟨kept, ?_, ?_⟩
  · rw [task.clauses, task.size]
    exact formed.below
  · rw [task.occurrences, task.clauses, task.size]
    exact formed.indexed

/-- No clause is falsified by the first literals of the trail. -/
def Clean (s : Search) (length : Nat) : Prop := ∀ c ∈ s.clauses, ∃ l ∈ c, -l ∉ s.path.take length

/-- The second search has found unit consequences of the trail of the first. -/
structure Deduces (s t : Search) : Prop where
  frame : t = { s with
    valuation := t.valuation
    trail := t.trail
    head := t.head
    counters := t.counters }
  size : t.valuation.size = s.valuation.size
  grows : s.path <+: t.path
  follows : ∀ P, s.clauses.UnitClosed P → (∀ l ∈ s.path, P l) → ∀ l ∈ t.path, P l

theorem Deduces.refl (s : Search) : s.Deduces s :=
  ⟨rfl, rfl, List.prefix_rfl, fun _ _ holds => holds⟩

theorem Deduces.clauses {s t : Search} (h : s.Deduces t) : t.clauses = s.clauses := by rw [h.frame]

theorem Deduces.decisions {s t : Search} (h : s.Deduces t) : t.decisions = s.decisions := by
  rw [h.frame]

theorem Deduces.trans {s t u : Search} (first : s.Deduces t) (second : t.Deduces u) : s.Deduces u := by
  refine ⟨?_, second.size.trans first.size, first.grows.trans second.grows, ?_⟩
  · rw [second.frame, first.frame]
  · intro P closed holds
    exact second.follows P (first.clauses ▸ closed) (first.follows P closed holds)

theorem Deduces.moves {s t : Search} (h : s.Deduces t) : s.Moves t := ⟨by rw [h.frame], h.size⟩

theorem WellFormed.of_deduces {s t : Search} (formed : s.WellFormed) (h : s.Deduces t)
    (kept : t.Disciplined) : t.WellFormed := formed.of_task h.moves.task kept

theorem mem_opposing {s : Search} (formed : s.WellFormed) {l : Literal} (listed : l ∈ s.path) (i : Nat) :
    i ∈ s.opposing l ↔ ∃ c, s.clauses[i]? = some c ∧ -l ∈ c := by
  have inside : l.atom < s.valuation.size := formed.records.inside listed
  rw [opposing, Array.mem_toList_iff, formed.indexed, mem_occurrencesIn s.clauses (l := -l) inside]

theorem deduce_of_free {s : Search} {l : Literal} (free : s.valuation[l.atom]? = some none) :
    s.deduce l = { s with
      valuation := s.valuation.setIfInBounds l.atom (some l.polarity)
      trail := s.trail.push l
      counters := { s.counters with propagations := s.counters.propagations + 1 } } := by
  unfold deduce
  exact assign_of_free free

/-- A clause with a literal is one of the formula. -/
theorem clauseAt_mem {s : Search} {i : Nat} {l : Literal} (inside : l ∈ s.clauseAt i) : s.clauseAt i ∈ s.clauses := by
  unfold clauseAt at inside ⊢
  cases found : s.clauses[i]? with
  | none => simp [found] at inside
  | some c => exact Array.mem_of_getElem? found

/-- What a clause asserts is a unit consequence of the trail. -/
theorem deduces_deduce {s : Search} (formed : s.WellFormed) {i : Nat} {l : Literal}
    (asserts : (s.clauseAt i).asserts? s.valuation = some l) :
    s.Deduces (s.deduce l) ∧ (s.deduce l).Disciplined := by
  obtain ⟨inside, unvalued, others⟩ := Clause.asserts?_some asserts
  have member := clauseAt_mem inside
  have free := PartialValuation.free_of_literal? (formed.below _ member l inside) unvalued
  have counted : Disciplined { s with
      counters := { s.counters with propagations := s.counters.propagations + 1 } } :=
    ⟨formed.records, formed.propagated, formed.stacked, formed.placed⟩
  refine ⟨?_, counted.assign l⟩
  rw [deduce_of_free free]
  refine ⟨rfl, by simp, by simp [path], ?_⟩
  intro P closed holds m listed
  rcases List.mem_append.mp (by simpa [path] using listed : m ∈ s.path ++ [l]) with before | last
  · exact holds m before
  · rw [List.mem_singleton.mp last]
    refine closed _ member l inside fun k there different => holds _ ?_
    exact (PartialValuation.literal?_eq_false_iff formed.records.lists).mp (others k there different)

/-- The clauses looked at without a conflict were not falsified by the trail before. -/
theorem examine_none {s t : Search} (formed : s.WellFormed) {positions : List Nat}
    (h : s.examine positions = (none, t)) :
    t.Disciplined ∧ s.Deduces t ∧ ∀ i ∈ positions, ∃ l ∈ s.clauseAt i, -l ∉ s.path := by
  fun_induction examine s positions with
  | case1 s =>
    cases h
    exact ⟨formed.toDisciplined, .refl _, by simp⟩
  | case2 s i rest l asserts ih =>
    obtain ⟨step, kept⟩ := deduces_deduce formed asserts
    obtain ⟨last, deduces, clear⟩ := ih (formed.of_deduces step kept) h
    refine ⟨last, step.trans deduces, ?_⟩
    intro j member
    rcases List.mem_cons.mp member with rfl | later
    · obtain ⟨inside, unvalued, -⟩ := Clause.asserts?_some asserts
      exact ⟨l, inside, ((PartialValuation.literal?_eq_none_iff formed.records.lists).mp unvalued).2⟩
    · obtain ⟨m, inside, absent⟩ := clear j later
      have same : (s.deduce l).clauseAt j = s.clauseAt j := by rw [clauseAt, step.clauses, clauseAt]
      exact ⟨m, same ▸ inside, fun listed => absent (step.grows.subset listed)⟩
  | case3 => cases h
  | case4 s i rest _ notFalsified ih =>
    obtain ⟨last, deduces, clear⟩ := ih formed h
    refine ⟨last, deduces, ?_⟩
    intro j member
    rcases List.mem_cons.mp member with rfl | later
    · rw [Clause.falsified_iff formed.records.lists] at notFalsified
      simpa using notFalsified
    · exact clear j later

/-- The clause that ends an examination is one of those looked at, and falsified. -/
theorem examine_some {s t : Search} (formed : s.WellFormed) {positions : List Nat} {i : Nat}
    (h : s.examine positions = (some i, t)) :
    t.Disciplined ∧ s.Deduces t ∧ i ∈ positions ∧ ∀ l ∈ s.clauseAt i, -l ∈ t.path := by
  fun_induction examine s positions with
  | case1 => cases h
  | case2 s j rest l asserts ih =>
    obtain ⟨step, kept⟩ := deduces_deduce formed asserts
    obtain ⟨last, deduces, member, falsified⟩ := ih (formed.of_deduces step kept) h
    have same : (s.deduce l).clauseAt i = s.clauseAt i := by rw [clauseAt, step.clauses, clauseAt]
    exact ⟨last, step.trans deduces, List.mem_cons_of_mem j member, same ▸ falsified⟩
  | case3 s j rest _ falsified =>
    cases h
    exact ⟨formed.toDisciplined, .refl _, List.mem_cons_self,
      (Clause.falsified_iff formed.records.lists).mp falsified⟩
  | case4 s j rest _ _ ih =>
    obtain ⟨last, deduces, member, falsified⟩ := ih formed h
    exact ⟨last, deduces, List.mem_cons_of_mem j member, falsified⟩

/-- One literal further the trail still falsifies no clause, if none of the clauses with its negation
is falsified. -/
private theorem clean_advance {s t : Search} {l : Literal} (clean : s.Clean s.head)
    (clauses : t.clauses = s.clauses) (grows : s.path <+: t.path) (pending : s.path[s.head]? = some l)
    (clear : ∀ c ∈ s.clauses, -l ∈ c → ∃ m ∈ c, -m ∉ s.path) : t.Clean (s.head + 1) := by
  have inside := (List.getElem?_eq_some_iff.mp pending).1
  have taken : t.path.take (s.head + 1) = s.path.take s.head ++ [l] := by
    obtain ⟨more, whole⟩ := grows
    rw [← whole, List.take_append_of_le_length inside, List.take_add_one, pending]
    rfl
  intro c member
  rw [clauses] at member
  by_cases opposed : -l ∈ c
  · obtain ⟨m, there, absent⟩ := clear c member opposed
    refine ⟨m, there, fun listed => absent ?_⟩
    obtain ⟨more, whole⟩ := grows
    rw [← whole, List.take_append_of_le_length inside] at listed
    exact List.mem_of_mem_take listed
  · obtain ⟨m, there, absent⟩ := clean c member
    refine ⟨m, there, ?_⟩
    rw [taken]
    intro listed
    rcases List.mem_append.mp listed with before | last
    · exact absent before
    · rw [← List.mem_singleton.mp last, Literal.neg_neg] at opposed
      exact opposed there

/-- The head moves one literal on. -/
theorem advance {s : Search} (formed : s.WellFormed) {l : Literal}
    (pending : s.trail[s.head]? = some l) :
    WellFormed { s with head := s.head + 1 } ∧ s.Deduces { s with head := s.head + 1 } := by
  have inside := (Array.getElem?_eq_some_iff.mp pending).1
  exact ⟨⟨⟨formed.records, inside, formed.stacked, formed.placed⟩, formed.below, formed.indexed⟩,
    rfl, rfl, List.prefix_rfl, fun _ _ holds => holds⟩

/-- Propagation without a conflict goes to the end of the trail. If no clause was falsified below
the head, none is then. -/
theorem propagate_none {s t : Search} (formed : s.WellFormed) (h : s.propagate = (none, t)) :
    t.WellFormed ∧ s.Deduces t ∧ t.head = t.path.length ∧ (s.Clean s.head → t.Clean t.head) := by
  fun_induction propagate s with
  | case1 s done =>
    have finished : s.path.length ≤ s.head := by simpa using done
    cases h
    exact ⟨formed, .refl _, Nat.le_antisymm formed.propagated finished, id⟩
  | case2 => cases h
  | case3 s l pending s' examined ih =>
    obtain ⟨formed₁, step⟩ := advance formed pending
    obtain ⟨kept, deduces, clear⟩ := examine_none formed₁ examined
    have formed' : s'.WellFormed := formed₁.of_deduces deduces kept
    have head : s'.head = s.head + 1 := by
      simpa [examined] using (examine_keeps { s with head := s.head + 1 } (s.opposing l)).2.2
    have onPath : s.path[s.head]? = some l := by simpa using pending
    have clean' : s.Clean s.head → s'.Clean s'.head := by
      intro clean
      rw [head]
      refine clean_advance clean deduces.clauses deduces.grows onPath ?_
      intro c member opposed
      obtain ⟨i, found⟩ := Array.mem_iff_getElem?.mp member
      have position := (mem_opposing formed (List.mem_of_getElem? onPath) i).mpr ⟨c, found, opposed⟩
      obtain ⟨m, there, absent⟩ := clear i position
      have same : clauseAt { s with head := s.head + 1 } i = c := by simp [clauseAt, found]
      exact ⟨m, same ▸ there, absent⟩
    obtain ⟨last, further, finish, cleared⟩ := ih formed' h
    exact ⟨last, (step.trans deduces).trans further, finish, fun clean => cleared (clean' clean)⟩

/-- The clause that ends a propagation is one of the formula, and all its literals are false. -/
theorem propagate_some {s t : Search} (formed : s.WellFormed) {i : Nat}
    (h : s.propagate = (some i, t)) :
    t.WellFormed ∧ s.Deduces t ∧ ∃ c, s.clauses[i]? = some c ∧ ∀ l ∈ c, -l ∈ t.path := by
  fun_induction propagate s with
  | case1 => cases h
  | case2 s l pending conflict s' examined =>
    cases h
    obtain ⟨formed₁, step⟩ := advance formed pending
    obtain ⟨kept, deduces, member, falsified⟩ := examine_some formed₁ examined
    have onPath : s.path[s.head]? = some l := by simpa using pending
    obtain ⟨c, found, -⟩ := (mem_opposing formed (List.mem_of_getElem? onPath) i).mp member
    have same : clauseAt { s with head := s.head + 1 } i = c := by simp [clauseAt, found]
    exact ⟨formed₁.of_deduces deduces kept, step.trans deduces, c, found, same ▸ falsified⟩
  | case3 s l pending s' examined ih =>
    obtain ⟨formed₁, step⟩ := advance formed pending
    obtain ⟨kept, deduces, -⟩ := examine_none formed₁ examined
    obtain ⟨last, further, c, found, falsified⟩ := ih (formed₁.of_deduces deduces kept) h
    have clauses : s'.clauses = s.clauses := deduces.clauses
    exact ⟨last, (step.trans deduces).trans further, c, clauses ▸ found, falsified⟩

end Search

end Clausal

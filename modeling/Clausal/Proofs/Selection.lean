import Clausal.Saturation

/-!
The parts of an iteration of saturation: taking the shortest clause removes just
this one, and absorbing resolvents keeps some of them, all that are new unless a
verdict is reached.
-/

namespace Clausal.Saturation

section Taking

variable {clauses rest : Array Clause} {given c : Clause} {i : Nat}

/-- A scan has come to a position, and has found one before it unless this is the first. -/
private def Scanned (k : Nat) (best : Nat × Option (Nat × Nat)) : Prop :=
  best.1 = k ∧ (best.2 = none → k = 0) ∧ ∀ j n, best.2 = some (j, n) → j < k

private theorem Scanned.scan {k : Nat} {best : Nat × Option (Nat × Nat)} (scanned : Scanned k best)
    (c : Clause) : Scanned (k + 1) (scan best c) := by
  obtain ⟨i, best⟩ := best
  obtain ⟨rfl, -, inside⟩ := scanned
  cases best with
  | none =>
    refine ⟨rfl, by simp [Saturation.scan], ?_⟩
    rintro j n ⟨⟩
    exact Nat.lt_succ_self i
  | some pair =>
    obtain ⟨j, n⟩ := pair
    have earlier : j < i := inside j n rfl
    refine ⟨rfl, by simp [Saturation.scan], ?_⟩
    intro k m found
    simp only [Saturation.scan, Option.some.injEq] at found
    split at found
    · cases found
      exact Nat.lt_succ_self i
    · cases found
      exact Nat.lt_succ_of_lt earlier

/-- The scan finds a position unless there is no clause. -/
theorem shortest?_spec (clauses : Array Clause) :
    (shortest? clauses = none → clauses.size = 0) ∧ ∀ i, shortest? clauses = some i → i < clauses.size := by
  obtain ⟨-, empty, inside⟩ : Scanned clauses.size (clauses.foldl scan (0, none)) :=
    Array.foldl_induction Scanned ⟨rfl, fun _ => rfl, by simp⟩ fun i _ scanned => scanned.scan clauses[i]
  refine ⟨fun nothing => empty (Option.map_eq_none_iff.mp nothing), fun i position => ?_⟩
  obtain ⟨⟨j, n⟩, found, rfl⟩ := Option.map_eq_some_iff.mp position
  exact inside j n found

/-- The last clause takes the place of the removed one. -/
private theorem getElem?_swapRemove (inside : i < clauses.size) (j : Nat) :
    (swapRemove clauses i)[j]? =
      if j < clauses.size - 1 then if i = j then clauses[clauses.size - 1]? else clauses[j]?
      else none := by
  have final : clauses.back? = some clauses[clauses.size - 1] := by
    rw [Array.back?_eq_getElem?, Array.getElem?_eq_getElem]
  simp only [swapRemove, final, Array.getElem?_pop, Array.size_setIfInBounds,
    Array.getElem?_setIfInBounds, inside, ↓reduceIte]
  rw [Array.getElem?_eq_getElem (Nat.sub_one_lt_of_lt inside)]

theorem mem_swapRemove (inside : i < clauses.size) :
    c ∈ clauses ↔ c = clauses[i] ∨ c ∈ swapRemove clauses i := by
  simp only [Array.mem_iff_getElem?, getElem?_swapRemove inside]
  constructor
  · rintro ⟨j, found⟩
    have within := (Array.getElem?_eq_some_iff.mp found).1
    by_cases same : j = i
    · subst same
      rw [Array.getElem?_eq_getElem inside, Option.some.injEq] at found
      exact .inl found.symm
    by_cases last : j = clauses.size - 1
    · have before : i < clauses.size - 1 := by omega
      exact .inr ⟨i, by rw [if_pos before, if_pos rfl, ← last, found]⟩
    · have before : j < clauses.size - 1 := by omega
      exact .inr ⟨j, by rw [if_pos before, if_neg (Ne.symm same), found]⟩
  · rintro (rfl | ⟨j, found⟩)
    · exact ⟨i, Array.getElem?_eq_getElem inside⟩
    · split at found
      · split at found
        · exact ⟨clauses.size - 1, found⟩
        · exact ⟨j, found⟩
      · cases found

theorem takeShortest?_none (h : takeShortest? clauses = none) : clauses.size = 0 := by
  cases position : shortest? clauses with
  | none => exact (shortest?_spec clauses).1 position
  | some i =>
    have inside := (shortest?_spec clauses).2 i position
    simp [takeShortest?, position, inside] at h

theorem mem_of_takeShortest? (h : takeShortest? clauses = some (given, rest)) :
    c ∈ clauses ↔ c = given ∨ c ∈ rest := by
  simp only [takeShortest?, Option.bind_eq_bind, Option.bind_eq_some_iff] at h
  obtain ⟨i, position, d, found, equal⟩ := h
  cases equal
  obtain ⟨inside, rfl⟩ := Array.getElem?_eq_some_iff.mp found
  exact mem_swapRemove inside

end Taking

section Absorbing

variable {given r c : Clause} {partners : Array Clause}

theorem mem_resolventsOf : r ∈ resolventsOf given partners ↔
    ∃ d ∈ partners, ∃ l ∈ given, -l ∈ d ∧ given.resolve d l = some r := by
  simp only [resolventsOf, List.mem_flatMap, List.mem_filterMap, Array.mem_toList_iff]
  constructor
  · rintro ⟨d, partner, l, member, found⟩
    split at found
    · next opposite => exact ⟨d, partner, l, member, by simpa using opposite, found⟩
    · cases found
  · rintro ⟨d, partner, l, member, opposite, found⟩
    exact ⟨d, partner, l, member, by simpa [opposite] using found⟩

theorem mem_insert {seen : Std.TreeSet Clause} : c ∈ seen.insert r ↔ c = r ∨ c ∈ seen := by
  rw [Std.TreeSet.mem_insert, Std.LawfulEqCmp.compare_eq_iff_eq]
  exact or_congr_left eq_comm

/-- Some clauses were kept and wait to be taken; nothing else happened to those seen, waiting and
processed. -/
structure Keeps (s t : Saturation) (kept : List Clause) : Prop where
  processed : t.processed = s.processed
  unprocessed : ∀ c, c ∈ t.unprocessed ↔ c ∈ s.unprocessed ∨ c ∈ kept
  seen : ∀ c, c ∈ t.seen ↔ c ∈ s.seen ∨ c ∈ kept

theorem Keeps.none (s : Saturation) {count : Nat} : s.Keeps { s with resolvents := count } [] :=
  ⟨rfl, by simp, by simp⟩

theorem Keeps.one (s : Saturation) (c : Clause) {count : Nat} :
    s.Keeps ⟨s.processed, s.unprocessed.push c, s.seen.insert c, count⟩ [c] := by
  refine ⟨rfl, by simp, fun d => ?_⟩
  rw [mem_insert, List.mem_singleton]
  exact Or.comm

theorem Keeps.cons {s t u : Saturation} {kept : List Clause} (first : s.Keeps t [c])
    (rest : t.Keeps u kept) : s.Keeps u (c :: kept) := by
  refine ⟨rest.processed.trans first.processed, fun d => ?_, fun d => ?_⟩
  · rw [rest.unprocessed, first.unprocessed, List.mem_singleton, List.mem_cons, or_assoc]
  · rw [rest.seen, first.seen, List.mem_singleton, List.mem_cons, or_assoc]

/-- What it means that absorbing some clauses ended with a verdict, or with none. -/
def Reached (t : Saturation) (limit : Nat) (cs : List Clause) : Option Verdict → Prop
  | none => ∀ c ∈ cs, c ∈ t.seen
  | some .saturated => False
  | some .refuted => [] ∈ cs
  | some .exceeded => limit < t.seen.size

private theorem Reached.cons {limit : Nat} {t : Saturation} {cs : List Clause}
    {verdict : Option Verdict} (reached : t.Reached limit cs verdict) (there : c ∈ t.seen) :
    t.Reached limit (c :: cs) verdict := by
  match verdict, reached with
  | none, all => exact List.forall_mem_cons.mpr ⟨there, all⟩
  | some .refuted, empty => exact List.mem_cons_of_mem _ empty
  | some .exceeded, beyond => exact beyond

/-- Absorbing clauses keeps some of them, none of which is empty. -/
theorem absorb_spec {limit : Nat} {s t : Saturation} {cs : List Clause} {verdict : Option Verdict}
    (h : absorb limit s cs = (verdict, t)) :
    (∃ kept, s.Keeps t kept ∧ [] ∉ kept ∧ ∀ c ∈ kept, c ∈ cs) ∧ t.Reached limit cs verdict := by
  induction cs generalizing s with
  | nil =>
    cases h
    exact ⟨⟨[], .none t, by simp, by simp⟩, by simp [Reached]⟩
  | cons c cs ih =>
    unfold absorb at h
    split at h
    · next empty =>
      cases h
      obtain rfl := List.isEmpty_iff.mp empty
      exact ⟨⟨[], .none s, by simp, by simp⟩, List.mem_cons_self⟩
    have proper : c ≠ [] := fun empty => absurd (List.isEmpty_iff.mpr empty) ‹_›
    split at h
    · next old =>
      obtain ⟨⟨kept, keeps, full, among⟩, reached⟩ := ih h
      refine ⟨⟨kept, keeps, full, fun d member => List.mem_cons_of_mem _ (among d member)⟩, ?_⟩
      have there : c ∈ t.seen := (keeps.seen c).mpr (.inl (Std.TreeSet.mem_iff_contains.mpr old))
      exact reached.cons there
    · dsimp only at h
      split at h
      · next beyond =>
        cases h
        exact ⟨⟨[c], .one s c, by simpa using proper.symm, by simp⟩, beyond⟩
      · obtain ⟨⟨kept, keeps, full, among⟩, reached⟩ := ih h
        have both := (Keeps.one s c).cons keeps
        refine ⟨⟨c :: kept, both, by simp [full, proper.symm], ?_⟩, ?_⟩
        · exact List.forall_mem_cons.mpr
            ⟨List.mem_cons_self, fun d member => List.mem_cons_of_mem _ (among d member)⟩
        · exact reached.cons ((both.seen c).mpr (.inr List.mem_cons_self))

end Absorbing

end Clausal.Saturation

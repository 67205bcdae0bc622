import Clausal.Proofs.Valuation
import Clausal.Search.Models

/-!
Trail discipline: the trail lists the literals that are true, each atom once, and
each decision stands on the trail at the place it remembers. Assigning and cutting
back keep this; backtracking cuts the trail back to a decision that was not flipped
yet and puts the opposite literal in its place.
-/

namespace Clausal

namespace PartialValuation

/-- The trail lists the literals that are true, each atom once. -/
structure Records (v : PartialValuation) (trail : List Literal) : Prop where
  lists : v.Lists trail
  distinct : (trail.map Literal.atom).Nodup

variable {v : PartialValuation} {trail : List Literal}

theorem Records.inside (records : v.Records trail) {l : Literal} (listed : l ∈ trail) :
    l.atom < v.size :=
  (Array.getElem?_eq_some_iff.mp ((records.lists l).mpr listed)).1

/-- No two literals of a trail are complementary. -/
theorem Records.consistent (records : v.Records trail) {l : Literal} (listed : l ∈ trail) :
    -l ∉ trail := by
  intro opposite
  have positive := (records.lists l).mpr listed
  have negative := (records.lists (-l)).mpr opposite
  rw [Literal.atom_neg, positive] at negative
  simp at negative

theorem Records.push (records : v.Records trail) {l : Literal} (free : v[l.atom]? = some none) :
    Records (v.setIfInBounds l.atom (some l.polarity)) (trail ++ [l]) := by
  have absent : l.atom ∉ trail.map Literal.atom := by
    intro member
    obtain ⟨m, listed, same⟩ := List.mem_map.mp member
    have valued := (records.lists m).mpr listed
    rw [same, free] at valued
    cases valued
  refine ⟨?_, ?_⟩
  · intro m
    have inside := (Array.getElem?_eq_some_iff.mp free).1
    by_cases same : m.atom = l.atom
    · rw [same, Array.getElem?_setIfInBounds_self_of_lt inside]
      have unlisted : m ∉ trail := fun listed => absent (same ▸ List.mem_map_of_mem listed)
      simp only [List.mem_append, List.mem_singleton, unlisted, false_or]
      obtain ⟨a, p⟩ := m
      obtain ⟨b, q⟩ := l
      simp only at same
      simp [same, eq_comm]
    · rw [Array.getElem?_setIfInBounds_ne (Ne.symm same), records.lists m]
      have different : m ≠ l := fun equal => same (congrArg Literal.atom equal)
      simp [different]
  · rw [List.map_append, List.map_singleton, List.nodup_append]
    refine ⟨records.distinct, by simp, ?_⟩
    intro a member b last
    rw [List.mem_singleton.mp last]
    exact fun same => absent (same ▸ member)

private theorem getElem?_clear (cut : List Literal) (v : PartialValuation) (a : Atom) :
    (cut.foldl (fun v l => v.setIfInBounds l.atom none) v)[a]? =
      if a ∈ cut.map Literal.atom then v[a]?.map (fun _ => none) else v[a]? := by
  induction cut generalizing v with
  | nil => simp
  | cons l cut ih =>
    rw [List.foldl_cons, ih, List.map_cons]
    by_cases same : l.atom = a
    · subst same
      by_cases inside : l.atom < v.size
      · simp [inside]
      · simp [inside]
    · simp [Array.getElem?_setIfInBounds_ne same, Ne.symm same]

theorem Records.cut (records : v.Records trail) (length : Nat) :
    Records ((trail.drop length).foldl (fun v l => v.setIfInBounds l.atom none) v)
      (trail.take length) := by
  have whole := records.distinct
  rw [← List.take_append_drop length trail, List.map_append, List.nodup_append] at whole
  obtain ⟨distinct, -, apart⟩ := whole
  refine ⟨?_, distinct⟩
  intro l
  rw [getElem?_clear]
  constructor
  · intro valued
    split at valued
    · simp at valued
    · next kept =>
      have listed := (records.lists l).mp valued
      rw [← List.take_append_drop length trail] at listed
      rcases List.mem_append.mp listed with before | after
      · exact before
      · exact absurd (List.mem_map_of_mem after) kept
  · intro listed
    have kept : l.atom ∉ (trail.drop length).map Literal.atom :=
      fun after => apart _ (List.mem_map_of_mem listed) _ after rfl
    rw [if_neg kept]
    exact (records.lists l).mpr (List.mem_of_mem_take listed)

end PartialValuation

namespace Search

/-- The trail of a search as a list. -/
abbrev path (s : Search) : List Literal := s.trail.toList

/-- The trail discipline of a search. -/
structure Disciplined (s : Search) : Prop where
  records : s.valuation.Records s.path
  propagated : s.head ≤ s.path.length
  stacked : s.decisions.Pairwise fun later earlier => earlier.trailLength < later.trailLength
  placed : ∀ d ∈ s.decisions, s.path[d.trailLength]? = some d.literal

theorem assign_of_free {s : Search} {l : Literal} (free : s.valuation[l.atom]? = some none) :
    s.assign l = { s with
      valuation := s.valuation.setIfInBounds l.atom (some l.polarity)
      trail := s.trail.push l } := by
  rw [assign, if_pos free]

theorem assign_of_valued {s : Search} {l : Literal} (valued : s.valuation[l.atom]? ≠ some none) :
    s.assign l = s := by
  rw [assign, if_neg valued]

theorem branch_of_free {s : Search} {l : Literal} (free : s.valuation[l.atom]? = some none) :
    s.branch l = { s with
      valuation := s.valuation.setIfInBounds l.atom (some l.polarity)
      trail := s.trail.push l
      decisions := ⟨s.trail.size, l, false⟩ :: s.decisions
      counters := { s.counters with decisions := s.counters.decisions + 1 } } := by
  unfold branch
  exact assign_of_free free

theorem Disciplined.assign {s : Search} (kept : s.Disciplined) (l : Literal) :
    (s.assign l).Disciplined := by
  by_cases free : s.valuation[l.atom]? = some none
  · rw [assign_of_free free]
    refine ⟨?_, ?_, kept.stacked, ?_⟩
    · simpa [path] using kept.records.push free
    · rw [path, Array.toList_push, List.length_append]
      exact Nat.le_add_right_of_le kept.propagated
    · intro d member
      have inside := kept.placed d member
      have bound := (List.getElem?_eq_some_iff.mp inside).1
      simpa [path, List.getElem?_append_left bound] using inside
  · rw [assign_of_valued free]
    exact kept

/-- A decision on an atom without a value goes on top of the trail. -/
theorem Disciplined.branch {s : Search} (kept : s.Disciplined) {l : Literal}
    (free : s.valuation[l.atom]? = some none) : (s.branch l).Disciplined := by
  have below : ∀ d ∈ s.decisions, d.trailLength < s.path.length :=
    fun d member => (List.getElem?_eq_some_iff.mp (kept.placed d member)).1
  rw [branch_of_free free]
  refine ⟨?_, ?_, ?_, ?_⟩
  · simpa [path] using kept.records.push free
  · rw [path, Array.toList_push, List.length_append]
    exact Nat.le_add_right_of_le kept.propagated
  · exact List.pairwise_cons.mpr ⟨by simpa [path] using below, kept.stacked⟩
  · intro d member
    rcases List.mem_cons.mp member with rfl | earlier
    · simp [path]
    · have inside := kept.placed d earlier
      have bound := (List.getElem?_eq_some_iff.mp inside).1
      simpa [path, List.getElem?_append_left bound] using inside

theorem path_undoTo (s : Search) (length : Nat) :
    (s.undoTo length).path = s.path.take length := by
  simp [undoTo, path]

theorem records_undoTo {s : Search} (records : s.valuation.Records s.path) (length : Nat) :
    (s.undoTo length).valuation.Records (s.undoTo length).path := by
  rw [path_undoTo]
  exact records.cut length

/-- The second search goes through the same valuations for models of the same formula, with the same
draws. -/
structure SameTask (s t : Search) : Prop where
  clauses : t.clauses = s.clauses
  occurrences : t.occurrences = s.occurrences
  size : t.valuation.size = s.valuation.size
  sampler : t.sampler = s.sampler
  lean : t.lean = s.lean
  bias : t.bias = s.bias

theorem SameTask.refl (s : Search) : s.SameTask s := ⟨rfl, rfl, rfl, rfl, rfl, rfl⟩

theorem SameTask.trans {s t u : Search} (first : s.SameTask t) (second : t.SameTask u) :
    s.SameTask u :=
  ⟨second.clauses.trans first.clauses, second.occurrences.trans first.occurrences,
    second.size.trans first.size, second.sampler.trans first.sampler, second.lean.trans first.lean,
    second.bias.trans first.bias⟩

/-- The second search differs from the first one only in how far it has come. -/
structure Moves (s t : Search) : Prop where
  frame : t = { s with
    valuation := t.valuation
    trail := t.trail
    head := t.head
    decisions := t.decisions
    source := t.source
    counters := t.counters }
  size : t.valuation.size = s.valuation.size

namespace Moves

variable {s t u : Search}

theorem trans (first : s.Moves t) (second : t.Moves u) : s.Moves u :=
  ⟨by rw [second.frame, first.frame], second.size.trans first.size⟩

theorem phase (h : s.Moves t) : t.phase = s.phase := by rw [h.frame]

theorem task (h : s.Moves t) : s.SameTask t :=
  ⟨by rw [h.frame], by rw [h.frame], h.size, by rw [h.frame], by rw [h.frame], by rw [h.frame]⟩

end Moves

/-- Whether the first search is cut back to a decision, and the opposite literal put in its place. -/
structure Flips (s : Search) (d : Decision) (earlier : List Decision) (t : Search) : Prop where
  frame : t = { s with
    valuation := t.valuation
    trail := t.trail
    head := d.trailLength
    decisions := ⟨d.trailLength, -d.literal, true⟩ :: earlier }
  size : t.valuation.size = s.valuation.size
  path : t.path = s.path.take d.trailLength ++ [-d.literal]
  records : t.valuation.Records t.path

theorem Flips.decisions {s t : Search} {d : Decision} {earlier : List Decision}
    (flips : s.Flips d earlier t) : t.decisions = ⟨d.trailLength, -d.literal, true⟩ :: earlier := by
  rw [flips.frame]

theorem Flips.head {s t : Search} {d : Decision} {earlier : List Decision}
    (flips : s.Flips d earlier t) : t.head = d.trailLength := by rw [flips.frame]

theorem Flips.moves {s t : Search} {d : Decision} {earlier : List Decision}
    (flips : s.Flips d earlier t) : s.Moves t :=
  ⟨by rw [flips.frame], flips.size⟩

private theorem flips_latest {s : Search} (records : s.valuation.Records s.path) {d : Decision}
    (placed : s.path[d.trailLength]? = some d.literal) (earlier : List Decision) :
    s.Flips d earlier ({ s.undoTo d.trailLength with
      decisions := ⟨d.trailLength, -d.literal, true⟩ :: earlier }.assign (-d.literal)) := by
  have cut := records_undoTo records d.trailLength
  obtain ⟨inside, found⟩ := List.getElem?_eq_some_iff.mp placed
  -- The decision's own literal is what is cut off first, so its atom has no value any more.
  have unlisted : ∀ l ∈ (s.undoTo d.trailLength).path, l.atom ≠ d.literal.atom := by
    intro l listed
    rw [path_undoTo] at listed
    have distinct := records.distinct
    rw [← List.take_append_drop d.trailLength s.path, List.map_append, List.nodup_append] at distinct
    have dropped : d.literal ∈ s.path.drop d.trailLength := by
      rw [List.drop_eq_getElem_cons inside, found]
      exact List.mem_cons_self
    exact distinct.2.2 _ (List.mem_map_of_mem listed) _ (List.mem_map_of_mem dropped)
  have within : d.literal.atom < (s.undoTo d.trailLength).valuation.size := by
    rw [size_valuation_undoTo]
    exact records.inside (found ▸ List.getElem_mem inside)
  have free : (s.undoTo d.trailLength).valuation[(-d.literal).atom]? = some none := by
    rw [Literal.atom_neg, Array.getElem?_eq_getElem within]
    cases value : (s.undoTo d.trailLength).valuation[d.literal.atom] with
    | none => rfl
    | some p =>
      have listed : (⟨d.literal.atom, p⟩ : Literal) ∈ (s.undoTo d.trailLength).path := by
        rw [← cut.lists, Array.getElem?_eq_getElem within, value]
      exact absurd rfl (unlisted ⟨d.literal.atom, p⟩ listed)
  have assigned := assign_of_free (s := { s.undoTo d.trailLength with
    decisions := ⟨d.trailLength, -d.literal, true⟩ :: earlier }) free
  rw [assigned]
  refine ⟨rfl, by simp, ?_, ?_⟩
  · simp [Search.path, undoTo]
  · simpa [Search.path] using cut.push free

private theorem placed_undoTo {s : Search} {d : Decision} {earlier : List Decision}
    (stacked : (d :: earlier).Pairwise fun later earlier => earlier.trailLength < later.trailLength)
    (placed : ∀ e ∈ d :: earlier, s.path[e.trailLength]? = some e.literal) :
    ∀ e ∈ earlier, (s.undoTo d.trailLength).path[e.trailLength]? = some e.literal := by
  intro e member
  have below := List.rel_of_pairwise_cons stacked member
  rw [path_undoTo, List.getElem?_take_of_lt below]
  exact placed e (List.mem_cons_of_mem d member)

/-- Backtracking with success flips the latest decision that was not flipped yet. -/
theorem backtrackOver_true {decisions : List Decision} {s t : Search}
    (records : s.valuation.Records s.path)
    (stacked : decisions.Pairwise fun later earlier => earlier.trailLength < later.trailLength)
    (placed : ∀ d ∈ decisions, s.path[d.trailLength]? = some d.literal)
    (h : s.backtrackOver decisions = (true, t)) :
    ∃ popped d earlier, decisions = popped ++ d :: earlier ∧
      (∀ e ∈ popped, e.flipped = true) ∧ d.flipped = false ∧ s.Flips d earlier t := by
  induction decisions generalizing s with
  | nil => cases h
  | cons d earlier ih =>
    unfold backtrackOver at h
    by_cases flipped : d.flipped = true
    · rw [if_pos flipped] at h
      obtain ⟨popped, e, rest, rfl, all, notYet, flips⟩ := ih (records_undoTo records d.trailLength)
        stacked.of_cons (placed_undoTo stacked placed) h
      have below : e.trailLength < d.trailLength := List.rel_of_pairwise_cons stacked (by simp)
      refine ⟨d :: popped, e, rest, rfl, by simpa [flipped] using all, notYet, ?_⟩
      refine ⟨flips.frame, flips.size.trans (size_valuation_undoTo s _), ?_, flips.records⟩
      rw [flips.path, path_undoTo, List.take_take, Nat.min_eq_left (Nat.le_of_lt below)]
    · rw [if_neg flipped] at h
      obtain rfl := (Prod.mk.injEq ..).mp h |>.2
      exact ⟨[], d, earlier, rfl, by simp, by simpa using flipped,
        flips_latest records (placed d List.mem_cons_self) earlier⟩

/-- Backtracking without success finds every decision flipped, and takes all back. -/
theorem backtrackOver_false {decisions : List Decision} {s t : Search}
    (records : s.valuation.Records s.path) (propagated : s.head ≤ s.path.length)
    (placed : ∀ d ∈ decisions, s.path[d.trailLength]? = some d.literal)
    (stacked : decisions.Pairwise fun later earlier => earlier.trailLength < later.trailLength)
    (h : s.backtrackOver decisions = (false, t)) :
    (∀ d ∈ decisions, d.flipped = true) ∧ t.Disciplined ∧ s.Moves t ∧ t.decisions = [] := by
  induction decisions generalizing s with
  | nil =>
    obtain rfl := (Prod.mk.injEq ..).mp h |>.2
    exact ⟨by simp, ⟨records, propagated, .nil, by simp⟩, ⟨rfl, rfl⟩, rfl⟩
  | cons d earlier ih =>
    unfold backtrackOver at h
    by_cases flipped : d.flipped = true
    · rw [if_pos flipped] at h
      have bound : (s.undoTo d.trailLength).head ≤ (s.undoTo d.trailLength).path.length := by
        have inside := (List.getElem?_eq_some_iff.mp (placed d List.mem_cons_self)).1
        rw [path_undoTo, List.length_take, Nat.min_eq_left (Nat.le_of_lt inside)]
        exact Nat.le_refl _
      obtain ⟨all, kept, moves, empty⟩ := ih (records_undoTo records d.trailLength) bound
        (placed_undoTo stacked placed) stacked.of_cons h
      have back : s.Moves (s.undoTo d.trailLength) := ⟨rfl, size_valuation_undoTo s _⟩
      exact ⟨by simpa [flipped] using all, kept, back.trans moves, empty⟩
    · rw [if_neg flipped] at h
      cases (Prod.mk.injEq ..).mp h |>.1

/-- A flip keeps the discipline: what lies below the decision is as it was. -/
theorem Disciplined.of_flips {s t : Search} (kept : s.Disciplined) {popped earlier : List Decision}
    {d : Decision} (split : s.decisions = popped ++ d :: earlier) (flips : s.Flips d earlier t) :
    t.Disciplined := by
  have stacked := kept.stacked
  rw [split] at stacked
  have top := (List.pairwise_append.mp stacked).2.1
  have inside := (List.getElem?_eq_some_iff.mp (kept.placed d (by simp [split]))).1
  have length : (s.path.take d.trailLength).length = d.trailLength := by
    rw [List.length_take, Nat.min_eq_left (Nat.le_of_lt inside)]
  refine ⟨flips.records, ?_, ?_, ?_⟩
  · rw [flips.head, flips.path, List.length_append, length]
    exact Nat.le_add_right _ _
  · rw [flips.decisions]
    exact List.pairwise_cons.mpr ⟨fun e member => List.rel_of_pairwise_cons top member, top.of_cons⟩
  · rw [flips.decisions, flips.path]
    intro e member
    rcases List.mem_cons.mp member with rfl | before
    · rw [List.getElem?_append_right (Nat.le_of_eq length), length]
      simp
    · have below := List.rel_of_pairwise_cons top before
      rw [List.getElem?_append_left (by omega), List.getElem?_take_of_lt below]
      exact kept.placed e (by simp [split, before])

end Search

end Clausal

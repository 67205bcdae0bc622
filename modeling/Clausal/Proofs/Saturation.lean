import Clausal.Proofs.Resolution
import Clausal.Proofs.Selection
import Clausal.Proofs.Valuation
import Mathlib.Logic.Relation

/-!
The loop of saturation, whatever the order of the clauses it starts with. Each
iteration keeps what makes both verdicts right: what was seen follows from the
formula, all resolvents of processed clauses were seen, and what was seen is
either still to be taken or has no fewer literals than a processed clause.
-/

namespace Clausal.Saturation

/-- An iteration of the loop that is not the last one. -/
inductive Iteration (limit : Nat) : Saturation → Saturation → Prop where
  | drop {s : Saturation} {given : Clause} {others : Array Clause}
      (taken : takeShortest? s.unprocessed = some (given, others))
      (subsumed : s.processed.any (Clause.subsumes · given) = true) :
      Iteration limit s { s with unprocessed := others }
  | process {s t : Saturation} {given : Clause} {others : Array Clause}
      (taken : takeShortest? s.unprocessed = some (given, others))
      (new : ¬ s.processed.any (Clause.subsumes · given) = true)
      (absorbed : absorb limit { s with unprocessed := others }
        (resolventsOf given (s.processed.push given)) = (none, t)) :
      Iteration limit s { t with processed := t.processed.push given }

/-- Any number of iterations. -/
abbrev Iterations (limit : Nat) : Saturation → Saturation → Prop :=
  Relation.ReflTransGen (Iteration limit)

/-- The last iteration of the loop. -/
inductive Finishes (limit : Nat) : Saturation → Verdict × Saturation → Prop where
  | saturated {s : Saturation} (nothing : takeShortest? s.unprocessed = none) :
      Finishes limit s (.saturated, s)
  | stopped {s t : Saturation} {given : Clause} {others : Array Clause} {verdict : Verdict}
      (taken : takeShortest? s.unprocessed = some (given, others))
      (new : ¬ s.processed.any (Clause.subsumes · given) = true)
      (absorbed : absorb limit { s with unprocessed := others }
        (resolventsOf given (s.processed.push given)) = (some verdict, t)) :
      Finishes limit s (verdict, t)

/-- There is no endless run of iterations. -/
theorem iteration_wellFounded (limit : Nat) : WellFounded fun t s => Iteration limit s t := by
  refine Subrelation.wf (fun {t s} step => ?_) (measure (remaining limit)).wf
  change t.remaining limit < s.remaining limit
  cases step with
  | drop taken _ => exact remaining_take taken
  | @process u given others taken _ absorbed =>
    have kept := remaining_absorb limit { s with unprocessed := others } _ (congrArg (·.1) absorbed)
    rw [absorbed] at kept
    exact Nat.lt_of_le_of_lt kept (remaining_take taken)

theorem run_finishes (limit : Nat) (s : Saturation) :
    ∃ t, Iterations limit s t ∧ Finishes limit t (run limit s) := by
  fun_induction run limit s with
  | case1 s nothing => exact ⟨s, .refl, .saturated nothing⟩
  | case2 s given others taken rest subsumed ih =>
    obtain ⟨t, steps, finishes⟩ := ih
    exact ⟨t, .head (.drop taken subsumed) steps, finishes⟩
  | case3 s given others taken rest new verdict t absorbed =>
    exact ⟨s, .refl, .stopped taken new absorbed⟩
  | case4 s given others taken rest new t absorbed ih =>
    obtain ⟨u, steps, finishes⟩ := ih
    exact ⟨u, .head (.process taken new absorbed) steps, finishes⟩

/-- A normal clause on the atoms of a formula that follows from it. -/
structure Derived (clauses : List Clause) (c : Clause) : Prop where
  normal : c.Normal
  atoms : ∀ l ∈ c, l.atom ∈ Clause.atomsOf clauses
  follows : ∀ β : Interpretation, (∀ d ∈ clauses, d.TrueIn β) → c.TrueIn β

/-- What holds whenever an iteration starts. -/
structure Sound (clauses : List Clause) (s : Saturation) : Prop where
  derived : ∀ c ∈ s.seen, Derived clauses c
  initial : ∀ c ∈ clauses, c ∈ s.seen
  nonempty : [] ∉ s.seen
  waiting : ∀ c ∈ s.unprocessed, c ∈ s.seen
  taken : ∀ c ∈ s.processed, c ∈ s.seen
  covered : ∀ c ∈ s.seen, c ∈ s.unprocessed ∨ ∃ p ∈ s.processed, ∀ l ∈ p, l ∈ c
  closed : ∀ c ∈ s.processed, ∀ d ∈ s.processed, ∀ l ∈ c, -l ∈ d → c.ResolvedIn {e | e ∈ s.seen} d l

variable {clauses : List Clause} {limit : Nat} {s t : Saturation} {given c d r : Clause} {l : Literal}
  {others : Array Clause}

theorem Derived.resolve (left : Derived clauses c) (right : Derived clauses d)
    (h : c.resolve d l = some r) : Derived clauses r := by
  obtain ⟨normal, members⟩ := Clause.resolve_some h
  refine ⟨normal, fun m member => ?_, fun β all => ?_⟩
  · rcases (members m).mp member with ⟨here, -⟩ | ⟨here, -⟩
    · exact left.atoms m here
    · exact right.atoms m here
  · exact (left.follows β all).resolve (right.follows β all) h

/-- The resolvents of an iteration follow from the formula. -/
theorem Sound.derived_resolvents (sound : s.Sound clauses)
    (taken : takeShortest? s.unprocessed = some (given, others))
    (member : r ∈ resolventsOf given (s.processed.push given)) : Derived clauses r := by
  obtain ⟨d, partner, l, -, -, resolved⟩ := mem_resolventsOf.mp member
  have first := sound.derived given (sound.waiting given ((mem_of_takeShortest? taken).mpr (.inl rfl)))
  rcases Array.mem_push.mp partner with before | rfl
  · exact first.resolve (sound.derived d (sound.taken d before)) resolved
  · exact first.resolve first resolved

/-- A given clause that a processed one subsumes can be dropped. -/
theorem Sound.drop (sound : s.Sound clauses)
    (taken : takeShortest? s.unprocessed = some (given, others))
    (subsumed : s.processed.any (Clause.subsumes · given) = true) :
    Sound clauses { s with unprocessed := others } := by
  obtain ⟨p, processed, subsumes⟩ := Array.any_eq_true'.mp subsumed
  refine ⟨sound.derived, sound.initial, sound.nonempty, fun c member => ?_, sound.taken, fun c seen => ?_,
    sound.closed⟩
  · exact sound.waiting c ((mem_of_takeShortest? taken).mpr (.inr member))
  · rcases sound.covered c seen with waits | covered
    · rcases (mem_of_takeShortest? taken).mp waits with rfl | left
      · exact .inr ⟨p, processed, (Clause.subsumes_iff.mp subsumes).2⟩
      · exact .inl left
    · exact .inr covered

/-- The given clause is resolved with each of its partners once all resolvents were seen. -/
theorem resolvedIn_of_seen {partners : Array Clause} (all : ∀ r ∈ resolventsOf given partners, r ∈ t.seen) :
    ∀ d ∈ partners, ∀ l ∈ given, -l ∈ d → given.ResolvedIn {e | e ∈ t.seen} d l := by
  intro d partner l member opposite
  cases result : given.resolve d l with
  | none => exact .inl (Clause.resolve_none result)
  | some r =>
    have listed := mem_resolventsOf.mpr ⟨d, partner, l, member, opposite, result⟩
    exact .inr ⟨r, all r listed, fun m inside => ((Clause.resolve_some result).2 m).mp inside⟩

/-- Of two processed clauses the later one was the given one when they were resolved. -/
theorem Sound.closed_push (sound : s.Sound clauses) (grows : ∀ c ∈ s.seen, c ∈ t.seen)
    (resolved : ∀ d ∈ s.processed.push given, ∀ l ∈ given, -l ∈ d → given.ResolvedIn {e | e ∈ t.seen} d l) :
    ∀ c ∈ s.processed.push given, ∀ d ∈ s.processed.push given, ∀ l ∈ c, -l ∈ d →
      c.ResolvedIn {e | e ∈ t.seen} d l := by
  intro c first d second l member opposite
  rcases Array.mem_push.mp first with before | rfl
  · rcases Array.mem_push.mp second with earlier | rfl
    · exact (sound.closed c before d earlier l member opposite).mono grows
    · have swapped := resolved c (Array.mem_push.mpr (.inl before)) (-l) opposite
        (by rwa [Literal.neg_neg])
      simpa only [Literal.neg_neg] using swapped.symm
  · exact resolved d second l member opposite

/-- A given clause is processed when all resolvents with the processed ones were seen. -/
theorem Sound.process (sound : s.Sound clauses)
    (taken : takeShortest? s.unprocessed = some (given, others))
    (absorbed : absorb limit { s with unprocessed := others }
      (resolventsOf given (s.processed.push given)) = (none, t)) :
    Sound clauses { t with processed := t.processed.push given } := by
  obtain ⟨⟨kept, ⟨processed, unprocessed, seen⟩, full, among⟩, complete⟩ := absorb_spec absorbed
  have grows : ∀ c ∈ s.seen, c ∈ t.seen := fun c member => (seen c).mpr (.inl member)
  have waited := sound.waiting given ((mem_of_takeShortest? taken).mpr (.inl rfl))
  refine ⟨fun c member => ?_, fun c member => grows c (sound.initial c member), fun empty => ?_,
    fun c member => ?_, fun c member => ?_, fun c member => ?_, ?_⟩
  · rcases (seen c).mp member with old | new
    · exact sound.derived c old
    · exact sound.derived_resolvents taken (among c new)
  · rcases (seen []).mp empty with old | new
    · exact sound.nonempty old
    · exact full new
  · rcases (unprocessed c).mp member with old | new
    · exact grows c (sound.waiting c ((mem_of_takeShortest? taken).mpr (.inr old)))
    · exact (seen c).mpr (.inr new)
  · rw [processed] at member
    rcases Array.mem_push.mp member with old | rfl
    · exact grows c (sound.taken c old)
    · exact grows c waited
  · rw [processed]
    rcases (seen c).mp member with old | new
    · rcases sound.covered c old with waits | ⟨p, before, within⟩
      · rcases (mem_of_takeShortest? taken).mp waits with rfl | left
        · exact .inr ⟨c, Array.mem_push.mpr (.inr rfl), fun l inside => inside⟩
        · exact .inl ((unprocessed c).mpr (.inl left))
      · exact .inr ⟨p, Array.mem_push.mpr (.inl before), within⟩
    · exact .inl ((unprocessed c).mpr (.inr new))
  · rw [processed]
    exact sound.closed_push grows (resolvedIn_of_seen complete)

/-- Step lemma of the loop. -/
theorem Sound.iteration (sound : s.Sound clauses) (step : Iteration limit s t) : t.Sound clauses := by
  cases step with
  | drop taken subsumed => exact sound.drop taken subsumed
  | process taken _ absorbed => exact sound.process taken absorbed

/-- Run lemma of the loop. -/
theorem Sound.iterations (sound : s.Sound clauses) (steps : Iterations limit s t) : t.Sound clauses := by
  induction steps with
  | refl => exact sound
  | tail _ step ih => exact ih.iteration step

private theorem mem_enter {c : Clause} (waiting : ∀ d, d ∈ s.unprocessed ↔ d ∈ s.seen) :
    (s.enter c).processed = s.processed ∧ (∀ d, d ∈ (s.enter c).unprocessed ↔ d ∈ (s.enter c).seen) ∧
      ∀ d, d ∈ (s.enter c).seen ↔ d ∈ s.seen ∨ d = c := by
  unfold enter
  split
  · next old =>
    refine ⟨rfl, waiting, fun d => ⟨.inl, fun either => either.elim id ?_⟩⟩
    rintro rfl
    exact Std.TreeSet.mem_iff_contains.mpr old
  · refine ⟨rfl, fun d => ?_, fun d => by rw [mem_insert, Or.comm]⟩
    rw [Array.mem_push, mem_insert, waiting d, Or.comm]

/-- Before the first iteration all clauses were seen, and wait to be taken. -/
theorem mem_start (order : List Clause) : (start order).processed = #[] ∧
    (∀ c, c ∈ (start order).unprocessed ↔ c ∈ order) ∧ ∀ c, c ∈ (start order).seen ↔ c ∈ order := by
  have entered : ∀ (cs : List Clause) (s : Saturation), (∀ c, c ∈ s.unprocessed ↔ c ∈ s.seen) →
      (cs.foldl enter s).processed = s.processed ∧
        (∀ c, c ∈ (cs.foldl enter s).unprocessed ↔ c ∈ (cs.foldl enter s).seen) ∧
        ∀ c, c ∈ (cs.foldl enter s).seen ↔ c ∈ s.seen ∨ c ∈ cs := by
    intro cs
    induction cs with
    | nil => exact fun s waiting => ⟨rfl, waiting, by simp⟩
    | cons d cs ih =>
      intro s waiting
      obtain ⟨processed, waiting', seen⟩ := mem_enter (c := d) waiting
      obtain ⟨processed', last, seen'⟩ := ih (s.enter d) waiting'
      refine ⟨processed'.trans processed, last, fun c => (seen' c).trans ?_⟩
      rw [seen c, List.mem_cons, or_assoc]
  obtain ⟨processed, waiting, seen⟩ := entered order ⟨#[], #[], ∅, 0⟩ (by simp)
  have members : ∀ c, c ∈ (start order).seen ↔ c ∈ order := fun c => (seen c).trans (by simp)
  exact ⟨processed, fun c => (waiting c).trans (members c), members⟩

theorem Sound.start {order : List Clause} (normal : ∀ c ∈ clauses, c.Normal)
    (same : ∀ c, c ∈ order ↔ c ∈ clauses) (full : [] ∉ clauses) : Sound clauses (start order) := by
  obtain ⟨processed, waiting, seen⟩ := mem_start order
  have all : ∀ c, c ∈ (Saturation.start order).seen ↔ c ∈ clauses := fun c => (seen c).trans (same c)
  refine ⟨fun c member => ?_, fun c => (all c).mpr, fun empty => full ((all []).mp empty),
    fun c member => (seen c).mpr ((waiting c).mp member), by simp [processed],
    fun c member => .inl ((waiting c).mpr ((seen c).mp member)), by simp [processed]⟩
  have listed := (all c).mp member
  exact ⟨normal c listed, fun l inside => Clause.mem_atomsOf.mpr ⟨c, listed, l, inside, rfl⟩,
    fun β holds => holds c listed⟩

/-- When no clause is left to be taken, the processed clauses are closed under resolution. -/
theorem Sound.resolved (sound : s.Sound clauses) (nothing : takeShortest? s.unprocessed = none) :
    Resolved {c | c ∈ s.processed} := by
  refine ⟨fun empty => sound.nonempty (sound.taken [] empty), fun c first d second l member opposite => ?_⟩
  rcases sound.closed c first d second l member opposite with tautology | ⟨e, seen, within⟩
  · exact .inl tautology
  · rcases sound.covered e seen with waits | ⟨p, processed, inside⟩
    · rw [Array.eq_empty_of_size_eq_zero (takeShortest?_none nothing)] at waits
      simp at waits
    · exact .inr ⟨p, processed, fun m listed => within m (inside m listed)⟩

/-- The run ends with the right verdict. -/
theorem Sound.finishes {verdict : Verdict} (sound : s.Sound clauses)
    (h : Finishes limit s (verdict, t)) :
    (verdict = .saturated → ∃ β : Interpretation, ∀ c ∈ clauses, c.TrueIn β) ∧
      (verdict = .refuted → ∀ β : Interpretation, ∃ c ∈ clauses, ¬ c.TrueIn β) ∧
      (verdict = .exceeded → limit < t.seen.size ∧ ∀ c ∈ t.seen, Derived clauses c) := by
  cases h with
  | saturated nothing =>
    refine ⟨fun _ => ?_, by simp, by simp⟩
    obtain ⟨n, below⟩ := Clause.exists_below s.processed.toList
    obtain ⟨β, model⟩ := (sound.resolved nothing).model (n := n) (fun c processed =>
      below c (Array.mem_toList_iff.mpr processed))
    refine ⟨β, fun c member => ?_⟩
    rcases sound.covered c (sound.initial c member) with waits | ⟨p, processed, inside⟩
    · rw [Array.eq_empty_of_size_eq_zero (takeShortest?_none nothing)] at waits
      simp at waits
    · obtain ⟨l, listed, holds⟩ := model p processed
      exact ⟨l, inside l listed, holds⟩
  | stopped taken _ absorbed =>
    obtain ⟨⟨kept, keeps, -, among⟩, reached⟩ := absorb_spec absorbed
    refine ⟨?_, ?_, ?_⟩
    · rintro rfl
      exact reached.elim
    · rintro rfl β
      by_contra all
      have follows := (sound.derived_resolvents taken reached).follows β (by simpa using all)
      simp [Clause.TrueIn] at follows
    · rintro rfl
      refine ⟨reached, fun c member => ?_⟩
      rcases (keeps.seen c).mp member with old | new
      · exact sound.derived c old
      · exact sound.derived_resolvents taken (among c new)

end Clausal.Saturation

namespace Clausal

/-- A clause satisfied by a valuation is true under it, whatever the atoms outside are given. -/
theorem Valuation.trueIn_of_satisfies {v : Valuation} {c : Clause} (h : v.satisfies c = true) :
    c.TrueIn fun a => v[a]?.getD false := by
  obtain ⟨l, member, holds⟩ := satisfies_iff.mp h
  refine ⟨l, member, ?_⟩
  simp [Literal.TrueIn, holds_iff.mp holds]

/-- A clause true under an interpretation is satisfied by the values of enough atoms. -/
theorem Clause.TrueIn.satisfies {β : Interpretation} {c : Clause} {n : Nat} (h : c.TrueIn β)
    (below : ∀ l ∈ c, l.atom < n) : Valuation.satisfies (Array.ofFn fun a : Fin n => β a) c = true := by
  obtain ⟨l, member, holds⟩ := h
  refine Valuation.satisfies_iff.mpr ⟨l, member, Valuation.holds_iff.mpr ?_⟩
  have inside : l.atom < (Array.ofFn fun a : Fin n => β a).size := by simpa using below l member
  rw [Array.getElem?_eq_getElem inside, Array.getElem_ofFn]
  exact congrArg some holds

section Outcome

variable {clauses order : List Clause} {limit : Nat}

/-- Saturation gives the right verdict, and exceeds its limit only by clauses that follow. -/
theorem saturation_spec (limit : Nat) (normal : ∀ c ∈ clauses, c.Normal) (same : ∀ c, c ∈ order ↔ c ∈ clauses) :
    ((saturate order limit).1 = .saturated → ∃ β : Interpretation, ∀ c ∈ clauses, c.TrueIn β) ∧
      ((saturate order limit).1 = .refuted → ∀ β : Interpretation, ∃ c ∈ clauses, ¬ c.TrueIn β) ∧
      ((saturate order limit).1 = .exceeded → limit < (saturation order limit).2.seen.size ∧
        ∀ c ∈ (saturation order limit).2.seen, Saturation.Derived clauses c) := by
  have verdict : (saturate order limit).1 = (saturation order limit).1 := rfl
  rw [verdict]
  by_cases empty : order.any (·.isEmpty) = true
  · have refuted : saturation order limit = (.refuted, .start order) := if_pos empty
    have member : [] ∈ clauses := by
      obtain ⟨c, listed, blank⟩ := List.any_eq_true.mp empty
      exact (same []).mp (List.isEmpty_iff.mp blank ▸ listed)
    rw [refuted]
    exact ⟨by simp, fun _ β => ⟨[], member, by simp [Clause.TrueIn]⟩, by simp⟩
  · have runs : saturation order limit = (Saturation.start order).run limit := if_neg empty
    have full : [] ∉ clauses := fun member =>
      empty (List.any_eq_true.mpr ⟨[], (same []).mpr member, rfl⟩)
    obtain ⟨t, steps, finishes⟩ := Saturation.run_finishes limit (.start order)
    rw [runs]
    exact ((Saturation.Sound.start normal same full).iterations steps).finishes finishes

theorem saturation_finishes (full : [] ∉ order) : ∃ t, Saturation.Iterations limit (.start order) t ∧
    Saturation.Finishes limit t (saturation order limit) := by
  have runs : saturation order limit = (Saturation.start order).run limit := by
    refine if_neg fun empty => full ?_
    obtain ⟨c, listed, blank⟩ := List.any_eq_true.mp empty
    exact List.isEmpty_iff.mp blank ▸ listed
  rw [runs]
  exact Saturation.run_finishes limit (.start order)

theorem nodup_toList (seen : Std.TreeSet Clause) : seen.toList.Nodup := by
  refine Std.TreeSet.distinct_toList.imp fun apart equal => apart ?_
  rw [equal]
  exact Std.ReflCmp.compare_self

/-- If saturation does not give up, its verdict says whether there is a model. -/
theorem saturated_iff (normal : ∀ c ∈ clauses, c.Normal) (same : ∀ c, c ∈ order ↔ c ∈ clauses)
    (ended : (saturate order limit).1 ≠ .exceeded) : (saturate order limit).1 = .saturated ↔
      ∃ β : Interpretation, ∀ c ∈ clauses, c.TrueIn β := by
  obtain ⟨model, refuted, -⟩ := saturation_spec limit normal same
  refine ⟨model, ?_⟩
  rintro ⟨β, holds⟩
  cases verdict : (saturate order limit).1 with
  | saturated => rfl
  | refuted =>
    obtain ⟨c, member, fails⟩ := refuted verdict β
    exact absurd (holds c member) fails
  | exceeded => exact absurd verdict ended

/-- Saturation of normal clauses ends, whatever the limit and the order in which it comes to the
clauses, and says rightly whether some valuation satisfies them all. It gives up only when it has
kept more clauses than the limit, so never with a limit of all normal clauses on the atoms. -/
theorem saturate_decides (normal : ∀ c ∈ clauses, c.Normal) :
    (∀ limit, WellFounded fun t s => Saturation.Iteration limit s t) ∧
      (∀ order limit, (∀ c, c ∈ order ↔ c ∈ clauses) →
        ([] ∉ order → ∃ t, Saturation.Iterations limit (.start order) t ∧
          Saturation.Finishes limit t (saturation order limit)) ∧
        ((saturate order limit).1 = .saturated →
          ∃ v : Valuation, ∀ c ∈ clauses, v.satisfies c = true) ∧
        ((saturate order limit).1 = .refuted →
          ∀ v : Valuation, ∃ c ∈ clauses, v.satisfies c = false) ∧
        ((saturate order limit).1 = .exceeded →
          let retained := (saturation order limit).2.seen.toList
          retained.Nodup ∧ limit < retained.length ∧
            ∀ c ∈ retained, c.Normal ∧ ∀ l ∈ c, l.atom ∈ Clause.atomsOf clauses) ∧
        (3 ^ (Clause.atomsOf clauses).card ≤ limit → (saturate order limit).1 ≠ .exceeded)) ∧
      ∀ order₁ order₂ limit₁ limit₂, (∀ c, c ∈ order₁ ↔ c ∈ clauses) →
        (∀ c, c ∈ order₂ ↔ c ∈ clauses) → (saturate order₁ limit₁).1 ≠ .exceeded →
        (saturate order₂ limit₂).1 ≠ .exceeded →
        (saturate order₁ limit₁).1 = (saturate order₂ limit₂).1 := by
  have gaveUp : ∀ order limit, (∀ c, c ∈ order ↔ c ∈ clauses) → (saturate order limit).1 = .exceeded →
      let retained := (saturation order limit).2.seen.toList
      retained.Nodup ∧ limit < retained.length ∧
        ∀ c ∈ retained, c.Normal ∧ ∀ l ∈ c, l.atom ∈ Clause.atomsOf clauses := by
    intro order limit same exceeded
    obtain ⟨beyond, derived⟩ := (saturation_spec limit normal same).2.2 exceeded
    refine ⟨nodup_toList _, by rwa [Std.TreeSet.length_toList], fun c member => ?_⟩
    have kept := derived c (Std.TreeSet.mem_toList.mp member)
    exact ⟨kept.normal, kept.atoms⟩
  refine ⟨Saturation.iteration_wellFounded, fun order limit same => ⟨saturation_finishes,
    fun saturated => ?_, fun refuted v => ?_, gaveUp order limit same, fun enough exceeded => ?_⟩, ?_⟩
  · obtain ⟨β, model⟩ := (saturation_spec limit normal same).1 saturated
    obtain ⟨n, below⟩ := Clause.exists_below clauses
    exact ⟨_, fun c member => (model c member).satisfies (below c member)⟩
  · obtain ⟨c, member, fails⟩ := (saturation_spec limit normal same).2.1 refuted _
    exact ⟨c, member, Bool.eq_false_iff.mpr fun holds => fails (Valuation.trueIn_of_satisfies holds)⟩
  · obtain ⟨distinct, beyond, inside⟩ := gaveUp order limit same exceeded
    have bound := Clause.length_le_of_normal distinct (fun c member => (inside c member).1)
      fun c member => (inside c member).2
    exact Nat.not_lt.mpr (Nat.le_trans bound enough) beyond
  · intro order₁ order₂ limit₁ limit₂ same₁ same₂ ended₁ ended₂
    have agree := (saturated_iff normal same₁ ended₁).trans (saturated_iff normal same₂ ended₂).symm
    revert ended₁ ended₂ agree
    cases (saturate order₁ limit₁).1 <;> cases (saturate order₂ limit₂).1 <;> simp

/-- The four clauses on two atoms are refuted in whatever order, with room for nine clauses. -/
theorem saturate_decides_square :
    let clauses : List Clause := [[⟨1, true⟩, ⟨2, true⟩], [⟨1, false⟩, ⟨2, true⟩],
      [⟨1, true⟩, ⟨2, false⟩], [⟨1, false⟩, ⟨2, false⟩]]
    (∀ c ∈ clauses, c.Normal) ∧
      ∀ order, (∀ c, c ∈ order ↔ c ∈ clauses) → (saturate order 9).1 = .refuted := by
  intro clauses
  have normal : ∀ c ∈ clauses, c.Normal := by
    simp only [Clause.Normal]
    decide
  refine ⟨normal, fun order same => ?_⟩
  obtain ⟨-, model, -, -, room⟩ := (saturate_decides normal).2.1 order 9 same
  have ended := room (by decide)
  cases verdict : (saturate order 9).1 with
  | saturated =>
    obtain ⟨v, holds⟩ := model verdict
    simp [clauses, Valuation.satisfies_iff, Valuation.holds_iff] at holds
    grind
  | refuted => rfl
  | exceeded => exact absurd verdict ended

end Outcome

end Clausal

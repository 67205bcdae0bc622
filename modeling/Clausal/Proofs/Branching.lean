import Clausal.Proofs.Decision
import Clausal.Proofs.Propagation
import Mathlib.Data.List.Perm.Subperm
import Mathlib.Logic.Relation

/-!
The binary tree that the search walks. A model is still open if it agrees with the
trail, or with the trail below some decision not flipped yet and with the opposite
of that decision. One iteration of the loop keeps the set of open models: a
decision splits it, propagation and conflicts exclude no model, and a flip goes
over to the models that are open beside the trail.
-/

namespace Clausal.Search

/-- A valuation agrees with the trail. -/
def Current (s : Search) (v : Valuation) : Prop := ∀ l ∈ s.path, v.holds l = true

/-- A valuation agrees with the trail below a decision not flipped yet, and not with the decision. -/
def Pending (s : Search) (v : Valuation) : Prop :=
  ∃ d ∈ s.decisions, d.flipped = false ∧ (∀ l ∈ s.path.take d.trailLength, v.holds l = true) ∧
    v.holds (-d.literal) = true

/-- The search may still come to a valuation. -/
def Open (s : Search) (v : Valuation) : Prop := s.Current v ∨ s.Pending v

/-- What holds whenever an iteration of the loop starts: below the head, where all decisions
are, no clause is falsified. -/
structure Ready (s : Search) : Prop extends WellFormed s where
  passed : ∀ d ∈ s.decisions, d.trailLength ≤ s.head
  clean : s.Clean s.head

/-- One iteration of the loop that ends neither with a model nor with the search. -/
inductive Iteration : Search → Search → Prop where
  | flip {s t u : Search} {i : Nat} (conflict : s.propagate = (some i, t))
      (flipped : t.countConflict.backtrack = (true, u)) : Iteration s u
  | branch {s t u : Search} {l : Literal} (propagated : s.propagate = (none, t))
      (decided : t.decide = (some l, u)) : Iteration s (u.branch l)

/-- Any number of iterations. -/
abbrev Iterations : Search → Search → Prop := Relation.ReflTransGen Iteration

/-- The last iteration of the loop. -/
inductive Finishes : Search → Option Valuation × Search → Prop where
  | exhausted {s t u : Search} {i : Nat} (conflict : s.propagate = (some i, t))
      (ending : t.countConflict.backtrack = (false, u)) : Finishes s u.exhaust
  | model {s t u : Search} (propagated : s.propagate = (none, t)) (decided : t.decide = (none, u)) :
      Finishes s u.yield

/-- If an iteration makes a decision, the draw for it returns. -/
def DecisionReturns (s : Search) : Prop := ∀ t, s.propagate = (none, t) → t.DrawReturns

/-- The second search has the same trail and decisions on the same clauses. -/
def Relabels (s t : Search) : Prop :=
  t = { s with
    assumptions := t.assumptions
    source := t.source
    phase := t.phase
    counters := t.counters }

theorem WellFormed.relabel {s t : Search} (formed : s.WellFormed) (h : s.Relabels t) :
    t.WellFormed := by
  rw [h]
  exact ⟨⟨formed.records, formed.propagated, formed.stacked, formed.placed⟩, formed.below,
    formed.indexed⟩

theorem SameTask.relabel {first s t : Search} (task : first.SameTask s) (h : s.Relabels t) : first.SameTask t := by
  rw [h]
  exact ⟨task.clauses, task.occurrences, task.size, task.sampler, task.lean, task.bias⟩

theorem Clean.mono {s : Search} {k n : Nat} (clean : s.Clean n) (le : k ≤ n) : s.Clean k := by
  intro c member
  obtain ⟨l, there, absent⟩ := clean c member
  refine ⟨l, there, fun listed => absent ?_⟩
  exact (List.take_subset_take_left _ le) listed

section Deductions

variable {s t : Search} {v : Valuation}

theorem current_of_deduces (deduces : s.Deduces t) (model : v.Models s.clauses s.valuation.size) :
    t.Current v ↔ s.Current v := by
  constructor
  · intro all l listed
    exact all l (deduces.grows.subset listed)
  · intro all
    exact deduces.follows _ model.unitClosed all

theorem take_of_deduces (deduces : s.Deduces t) {k : Nat} (inside : k ≤ s.path.length) :
    t.path.take k = s.path.take k := by
  obtain ⟨more, whole⟩ := deduces.grows
  rw [← whole, List.take_append_of_le_length inside]

theorem Disciplined.decision_lt (kept : s.Disciplined) {d : Decision} (member : d ∈ s.decisions) :
    d.trailLength < s.path.length :=
  (List.getElem?_eq_some_iff.mp (kept.placed d member)).1

theorem pending_of_deduces (kept : s.Disciplined) (deduces : s.Deduces t) :
    t.Pending v ↔ s.Pending v := by
  have same : ∀ d ∈ s.decisions, t.path.take d.trailLength = s.path.take d.trailLength :=
    fun d member => take_of_deduces deduces (Nat.le_of_lt (kept.decision_lt member))
  rw [Pending, Pending, deduces.decisions]
  constructor
  · rintro ⟨d, member, fresh, below, opposite⟩
    exact ⟨d, member, fresh, same d member ▸ below, opposite⟩
  · rintro ⟨d, member, fresh, below, opposite⟩
    exact ⟨d, member, fresh, (same d member).symm ▸ below, opposite⟩

/-- A model does not agree with a trail on which some clause is falsified. -/
theorem not_current_of_falsified {atoms : Nat} {c : Clause} (model : v.Models s.clauses atoms)
    (member : c ∈ s.clauses) (falsified : ∀ l ∈ c, -l ∈ s.path) : ¬ s.Current v := by
  intro all
  obtain ⟨l, there, holds⟩ := Valuation.satisfies_iff.mp (model.2 c member)
  have fails := Valuation.not_holds_of_neg (all _ (falsified l there))
  rw [holds] at fails
  cases fails

/-- Propagation without a conflict keeps the open models. -/
theorem Ready.propagate_none (ready : s.Ready) (h : s.propagate = (none, t)) :
    t.Ready ∧ s.Deduces t ∧ t.head = t.path.length ∧
      ∀ v, v.Models s.clauses s.valuation.size → (t.Open v ↔ s.Open v) := by
  obtain ⟨formed, deduces, finished, clean⟩ := Search.propagate_none ready.toWellFormed h
  refine ⟨⟨formed, ?_, clean ready.clean⟩, deduces, finished, ?_⟩
  · intro d member
    rw [finished]
    exact Nat.le_of_lt (formed.decision_lt member)
  · intro v model
    exact or_congr (current_of_deduces deduces model) (pending_of_deduces ready.toDisciplined deduces)

/-- On a conflict no model agrees with the trail, and what was clean before stays so. -/
theorem Ready.propagate_some (ready : s.Ready) {i : Nat} (h : s.propagate = (some i, t)) :
    t.WellFormed ∧ s.Deduces t ∧ t.Clean s.head ∧ (∀ d ∈ t.decisions, d.trailLength ≤ s.head) ∧
      ∀ v, v.Models s.clauses s.valuation.size → (t.Pending v ↔ s.Open v) := by
  obtain ⟨formed, deduces, c, found, falsified⟩ := Search.propagate_some ready.toWellFormed h
  refine ⟨formed, deduces, ?_, ?_, ?_⟩
  · intro c member
    rw [take_of_deduces deduces ready.propagated]
    exact ready.clean c (deduces.clauses ▸ member)
  · rw [deduces.decisions]
    exact ready.passed
  · intro v model
    have away : ¬ s.Current v := by
      rw [← current_of_deduces deduces model]
      rw [← deduces.clauses] at model found
      exact not_current_of_falsified model (Array.mem_of_getElem? found) falsified
    rw [pending_of_deduces ready.toDisciplined deduces, Open]
    exact (or_iff_right away).symm

end Deductions

section Flips

variable {s t : Search}

/-- Below a decision the trail of a flip is as it was. -/
theorem take_of_flips {d : Decision} {earlier : List Decision} (flips : s.Flips d earlier t)
    (inside : d.trailLength ≤ s.path.length) {k : Nat} (below : k ≤ d.trailLength) :
    t.path.take k = s.path.take k := by
  have length : (s.path.take d.trailLength).length = d.trailLength := by
    rw [List.length_take, Nat.min_eq_left inside]
  rw [flips.path, List.take_append_of_le_length (by omega), List.take_take, Nat.min_eq_left below]

private theorem open_of_flips (kept : s.Disciplined) {popped earlier : List Decision} {d : Decision}
    (split : s.decisions = popped ++ d :: earlier) (spent : ∀ e ∈ popped, e.flipped = true)
    (unspent : d.flipped = false) (flips : s.Flips d earlier t) (v : Valuation) :
    t.Open v ↔ s.Pending v := by
  have inside := Nat.le_of_lt (kept.decision_lt (d := d) (by simp [split]))
  have stacked := kept.stacked
  rw [split] at stacked
  have top := (List.pairwise_append.mp stacked).2.1
  have same : ∀ e ∈ earlier, t.path.take e.trailLength = s.path.take e.trailLength := fun e member =>
    take_of_flips flips inside (Nat.le_of_lt (List.rel_of_pairwise_cons top member))
  have current : t.Current v ↔
      (∀ l ∈ s.path.take d.trailLength, v.holds l = true) ∧ v.holds (-d.literal) = true := by
    rw [Current, flips.path]
    simp [or_imp, forall_and]
  rw [Open, current, Pending, Pending, flips.decisions, split]
  constructor
  · rintro (⟨below, opposite⟩ | ⟨e, member, fresh, below, opposite⟩)
    · exact ⟨d, by simp, unspent, below, opposite⟩
    · rcases List.mem_cons.mp member with rfl | before
      · cases fresh
      · exact ⟨e, by simp [before], fresh, same e before ▸ below, opposite⟩
  · rintro ⟨e, member, fresh, below, opposite⟩
    rcases List.mem_append.mp member with later | rest
    · rw [spent e later] at fresh
      cases fresh
    · rcases List.mem_cons.mp rest with rfl | before
      · exact .inl ⟨below, opposite⟩
      · exact .inr ⟨e, by simp [before], fresh, (same e before).symm ▸ below, opposite⟩

/-- A flip goes over to the models beside the trail. -/
theorem WellFormed.backtrack_true (formed : s.WellFormed) {k : Nat}
    (passed : ∀ d ∈ s.decisions, d.trailLength ≤ k) (clean : s.Clean k)
    (h : s.backtrack = (true, t)) : t.Ready ∧ s.Moves t ∧ ∀ v, t.Open v ↔ s.Pending v := by
  obtain ⟨popped, d, earlier, split, spent, unspent, flips⟩ :=
    backtrackOver_true formed.records formed.stacked formed.placed h
  have member : d ∈ s.decisions := by simp [split]
  have kept := formed.toDisciplined.of_flips split flips
  have stacked := kept.stacked
  rw [flips.decisions] at stacked
  refine ⟨⟨formed.of_task flips.moves.task kept, ?_, ?_⟩, flips.moves,
    open_of_flips formed.toDisciplined split spent unspent flips⟩
  · rw [flips.decisions, flips.head]
    intro e listed
    rcases List.mem_cons.mp listed with rfl | before
    · exact Nat.le_refl _
    · exact Nat.le_of_lt (List.rel_of_pairwise_cons stacked before)
  · intro c inFormula
    rw [flips.head, take_of_flips flips (Nat.le_of_lt (formed.decision_lt member)) (Nat.le_refl _)]
    exact clean.mono (passed d member) c (flips.moves.task.clauses ▸ inFormula)

/-- Without a decision left to flip no model is left beside the trail. -/
theorem WellFormed.backtrack_false (formed : s.WellFormed) (h : s.backtrack = (false, t)) :
    t.WellFormed ∧ s.Moves t ∧ ∀ v, ¬ s.Pending v := by
  obtain ⟨spent, kept, moves, -⟩ :=
    backtrackOver_false formed.records formed.propagated formed.placed formed.stacked h
  refine ⟨formed.of_task moves.task kept, moves, ?_⟩
  rintro v ⟨d, member, fresh, -⟩
  rw [spent d member] at fresh
  cases fresh

end Flips

section Branch

variable {s : Search} {v : Valuation} {l : Literal}

theorem path_branch (free : s.valuation[l.atom]? = some none) :
    (s.branch l).path = s.path ++ [l] := by
  simp [branch_of_free free, Search.path]

theorem decisions_branch (free : s.valuation[l.atom]? = some none) :
    (s.branch l).decisions = ⟨s.path.length, l, false⟩ :: s.decisions := by
  simp [branch_of_free free, Search.path]

theorem take_branch (free : s.valuation[l.atom]? = some none) {k : Nat}
    (inside : k ≤ s.path.length) : (s.branch l).path.take k = s.path.take k := by
  rw [path_branch free, List.take_append_of_le_length inside]

theorem current_branch (free : s.valuation[l.atom]? = some none) :
    (s.branch l).Current v ↔ s.Current v ∧ v.holds l = true := by
  rw [Current, path_branch free, Current]
  simp [or_imp, forall_and]

/-- A decision leaves open what agrees with the trail before it and with its opposite. -/
theorem pending_branch (kept : s.Disciplined) (free : s.valuation[l.atom]? = some none) :
    (s.branch l).Pending v ↔ s.Current v ∧ v.holds (-l) = true ∨ s.Pending v := by
  have whole : (s.branch l).path.take s.path.length = s.path := by
    rw [take_branch free (Nat.le_refl _), List.take_length]
  rw [Pending, decisions_branch free, Pending]
  constructor
  · rintro ⟨d, member, fresh, below, opposite⟩
    rcases List.mem_cons.mp member with rfl | before
    · exact .inl ⟨fun m listed => below m (whole.symm ▸ listed), opposite⟩
    · rw [take_branch free (Nat.le_of_lt (kept.decision_lt before))] at below
      exact .inr ⟨d, before, fresh, below, opposite⟩
  · rintro (⟨below, opposite⟩ | ⟨d, before, fresh, below, opposite⟩)
    · exact ⟨_, List.mem_cons_self, rfl, whole.symm ▸ below, opposite⟩
    · rw [← take_branch free (Nat.le_of_lt (kept.decision_lt before))] at below
      exact ⟨d, List.mem_cons_of_mem _ before, fresh, below, opposite⟩

/-- A decision splits the open models into those that agree with it and those that do not. -/
theorem Ready.branch (ready : s.Ready) (finished : s.head = s.path.length)
    (free : s.valuation[l.atom]? = some none) :
    (s.branch l).Ready ∧ s.Moves (s.branch l) ∧
      ∀ v, v.size = s.valuation.size → ((s.branch l).Open v ↔ s.Open v) := by
  have kept := ready.toDisciplined.branch free
  have equal := branch_of_free free
  have head : (s.branch l).head = s.head := by rw [equal]
  have moves : s.Moves (s.branch l) := ⟨by rw [equal], by simp [equal]⟩
  refine ⟨⟨ready.toWellFormed.of_task moves.task kept, ?_, ?_⟩, moves, ?_⟩
  · rw [decisions_branch free, head]
    intro d member
    rcases List.mem_cons.mp member with rfl | before
    · exact Nat.le_of_eq finished.symm
    · exact ready.passed d before
  · intro c member
    rw [head, take_branch free ready.propagated]
    exact ready.clean c (moves.task.clauses ▸ member)
  · intro v total
    have inside : l.atom < v.size := total ▸ (Array.getElem?_eq_some_iff.mp free).1
    rw [Open, Open, current_branch free, pending_branch ready.toDisciplined free, Valuation.holds_neg inside]
    cases v.holds l <;> simp

end Branch

section Loop

variable {s t : Search}

/-- What an iteration keeps: the formula, and the open models. -/
structure Continues (s t : Search) : Prop where
  moves : s.Moves t
  remaining : ∀ v, v.Models s.clauses s.valuation.size → (t.Open v ↔ s.Open v)

theorem Continues.trans {u : Search} (first : s.Continues t) (second : t.Continues u) :
    s.Continues u := by
  refine ⟨first.moves.trans second.moves, fun v model => ?_⟩
  have same : v.Models t.clauses t.valuation.size := by rwa [first.moves.task.clauses, first.moves.size]
  exact (second.remaining v same).trans (first.remaining v model)

/-- Step lemma of the loop. -/
theorem Ready.iteration (ready : s.Ready) (step : Iteration s t) : t.Ready ∧ s.Continues t := by
  cases step with
  | @flip u _ _ conflict flipped =>
    obtain ⟨formed, deduces, clean, passed, pending⟩ := ready.propagate_some conflict
    have counted : u.countConflict.WellFormed := formed.relabel rfl
    have counts : u.Moves u.countConflict := ⟨rfl, rfl⟩
    obtain ⟨ready', moves, remaining⟩ := counted.backtrack_true passed clean flipped
    exact ⟨ready', deduces.moves.trans (counts.trans moves),
      fun v model => (remaining v).trans (pending v model)⟩
  | @branch u w l propagated decided =>
    obtain ⟨ready', deduces, finished, remaining⟩ := ready.propagate_none propagated
    obtain ⟨free, frame⟩ := decide_some decided
    have relabelled : w.Ready := by
      rw [frame]
      exact ⟨ready'.toWellFormed.relabel rfl, ready'.passed, ready'.clean⟩
    have same : ∀ v, w.Open v ↔ u.Open v := fun v => by
      rw [frame]
      exact Iff.rfl
    have draws : u.Moves w := ⟨by rw [frame], by rw [frame]⟩
    have finished' : w.head = w.path.length := by
      rw [frame]
      exact finished
    obtain ⟨branched, moves, split⟩ := relabelled.branch finished' (by rw [frame]; exact free)
    refine ⟨branched, deduces.moves.trans (draws.trans moves), fun v model => ?_⟩
    have total : v.size = w.valuation.size := by rw [draws.size, deduces.size, model.1]
    exact (split v total).trans ((same v).trans (remaining v model))

/-- Run lemma of the loop. -/
theorem Ready.iterations (ready : s.Ready) (steps : Iterations s t) : t.Ready ∧ s.Continues t := by
  induction steps with
  | refl => exact ⟨ready, ⟨rfl, rfl⟩, fun _ _ => Iff.rfl⟩
  | tail _ step ih =>
    obtain ⟨middle, continues⟩ := ih
    obtain ⟨last, further⟩ := middle.iteration step
    exact ⟨last, continues.trans further⟩

/-- Each decision is on an atom of its own. -/
theorem Disciplined.length_decisions_le (kept : s.Disciplined) :
    s.decisions.length ≤ s.valuation.size := by
  have below : ∀ {l : List Nat} {n : Nat}, l.Nodup → (∀ k ∈ l, k < n) → l.length ≤ n := by
    intro l n distinct inside
    have sub := List.subperm_of_subset distinct fun k member => List.mem_range.mpr (inside k member)
    simpa using sub.length_le
  have decisions : s.decisions.length ≤ s.path.length := by
    have distinct : (s.decisions.map Decision.trailLength).Nodup :=
      List.pairwise_map.mpr (kept.stacked.imp fun lt => Nat.ne_of_gt lt)
    rw [← List.length_map (f := Decision.trailLength)]
    refine below distinct fun k member => ?_
    obtain ⟨d, listed, rfl⟩ := List.mem_map.mp member
    exact kept.decision_lt listed
  have path : s.path.length ≤ s.valuation.size := by
    rw [← List.length_map (f := Literal.atom)]
    refine below kept.records.distinct fun a member => ?_
    obtain ⟨l, listed, rfl⟩ := List.mem_map.mp member
    exact kept.records.inside listed
  exact Nat.le_trans decisions path

/-- The loop ends by its own rules: never for want of room for a decision. -/
theorem Ready.settle_finishes (ready : s.Ready) (live : s.phase ≠ .stalled)
    (returns : ∀ t, Iterations s t → t.DecisionReturns) :
    ∃ t, Iterations s t ∧ t.Finishes s.settle := by
  fun_induction settle s with
  | case1 s i t conflict u flipped ih =>
    have step : Iteration s u := .flip conflict flipped
    obtain ⟨ready', continues⟩ := ready.iteration step
    obtain ⟨w, steps, finishes⟩ := ih ready' (continues.moves.phase ▸ live)
      fun w steps => returns w (.head step steps)
    exact ⟨w, .head step steps, finishes⟩
  | case2 s i t conflict u ending => exact ⟨s, .refl, .exhausted conflict ending⟩
  | case3 s t propagated l u decided within ih =>
    have step : Iteration s (u.branch l) := .branch propagated decided
    obtain ⟨ready', continues⟩ := ready.iteration step
    obtain ⟨w, steps, finishes⟩ := ih ready' (continues.moves.phase ▸ live)
      fun w steps => returns w (.head step steps)
    exact ⟨w, .head step steps, finishes⟩
  | case4 s t propagated l u decided beyond =>
    refine absurd ?_ beyond
    rw [(decide_some decided).2]
    exact (ready.propagate_none propagated).1.length_decisions_le
  | case5 s t propagated u decided stalled =>
    obtain ⟨-, deduces, -, -⟩ := ready.propagate_none propagated
    have phase : u.phase = s.phase := by
      rw [(decide_none (returns s .refl t propagated) decided).2, deduces.frame]
    exact absurd (phase ▸ stalled) live
  | case6 s t propagated u decided _ => exact ⟨s, .refl, .model propagated decided⟩

end Loop

end Clausal.Search

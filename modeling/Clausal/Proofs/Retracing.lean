import Clausal.Proofs.Closure

/-!
Trail discipline over a whole run, and what backtracking restores. Valuation, trail, head and decision stack
agree whenever a call returns and whenever an iteration of the loop starts. Nothing between two such moments
changes the trail below a decision that stays on the stack, so a flip takes the search back to where it was
when it made the decision, however many flipped decisions it takes back with it. Main statement:
`trail_disciplined`.
-/

namespace Clausal

/-- Valuations of the same atoms that list trails with the same literals on an atom agree on it. -/
theorem PartialValuation.Lists.eq_of_mem {v w : PartialValuation} {trail other : List Literal}
    (lists : v.Lists trail) (lists' : w.Lists other) (size : v.size = w.size) {a : Atom}
    (same : ∀ b, ⟨a, b⟩ ∈ trail ↔ ⟨a, b⟩ ∈ other) : v[a]? = w[a]? := by
  have value : ∀ b, v[a]? = some (some b) ↔ w[a]? = some (some b) := fun b =>
    (lists ⟨a, b⟩).trans ((same b).trans (lists' ⟨a, b⟩).symm)
  by_cases inside : a < v.size
  · rw [Array.getElem?_eq_getElem inside, Array.getElem?_eq_getElem (size ▸ inside)] at value ⊢
    simp only [Option.some.injEq] at value ⊢
    exact Option.ext value
  · rw [Array.getElem?_eq_none (Nat.not_lt.mp inside), Array.getElem?_eq_none (size ▸ Nat.not_lt.mp inside)]

namespace Search

variable {first s t u w : Search} {l : Literal} {d : Decision} {earlier : List Decision} {c : Call}
  {calls : List Call}

/-- A moment at which a run can be looked at: between two calls, or where an iteration of the loop starts. -/
inductive Moment where
  | idle (s : Search)
  | looping (s : Search)

namespace Moment

def search : Moment → Search
  | idle s => s
  | looping s => s

/-- The search when the call in progress, if there is one, has returned. -/
def returned : Moment → Search
  | idle s => s
  | looping s => s.settle.2

/-- At a moment the search flips a decision: to go on from a model, or on a conflict. -/
inductive Backtracks : Moment → Search → Prop where
  | resume {s t : Search} (found : s.phase = .model) (flipped : s.backtrack = (true, t)) : Backtracks (.idle s) t
  | conflict {s t u : Search} {i : Nat} (conflict : s.propagate = (some i, t))
      (flipped : t.countConflict.backtrack = (true, u)) : Backtracks (.looping s) u

end Moment

/-- The moments that calls of a search come through, the latest first. -/
inductive Course (first : Search) : List Call → List Moment → Prop where
  | start : Course first [] [.idle first]
  /-- A call that does not come to the loop. -/
  | call {calls : List Call} {c : Call} {s : Search} {past : List Moment}
      (course : Course first calls (.idle s :: past)) (direct : c ≠ .next ∨ ∀ t, ¬ s.Enters t) :
      Course first (calls ++ [c]) (.idle (s.call c) :: .idle s :: past)
  | enter {calls : List Call} {s t : Search} {past : List Moment}
      (course : Course first calls (.idle s :: past)) (enters : s.Enters t) :
      Course first (calls ++ [.next]) (.looping t :: .idle s :: past)
  | iterate {calls : List Call} {s t : Search} {past : List Moment}
      (course : Course first calls (.looping s :: past)) (step : Iteration s t) :
      Course first calls (.looping t :: .looping s :: past)
  | finish {calls : List Call} {s : Search} {past : List Moment}
      (course : Course first calls (.looping s :: past)) (last : ∀ t, ¬ Iteration s t) :
      Course first calls (.idle s.settle.2 :: .looping s :: past)

/-- In an iteration that starts with the first search, the second one decides on a literal. -/
def Decides (s w : Search) (l : Literal) : Prop := ∃ t, s.propagate = (none, t) ∧ t.decide = (some l, w)

/-- Among some moments, the latest first, is one before which a search decided on a literal. At all moments
since the decision was on the stack, with the decisions below it that were there then. -/
def Made (moments : List Moment) (w : Search) (l : Literal) : Prop :=
  ∃ since s before, moments = since ++ .looping (w.branch l) :: .looping s :: before ∧ s.Decides w l ∧
    ∀ n ∈ since, ⟨w.path.length, l, false⟩ :: w.decisions <:+ n.search.decisions

/-- The second search is as the first one was when it decided on a literal, but that the opposite literal is
in the place of the decision, and the next one to be propagated. -/
structure Restores (w : Search) (l : Literal) (u : Search) : Prop where
  path : u.path = w.path ++ [-l]
  head : u.head = w.path.length
  decisions : u.decisions = ⟨w.path.length, -l, true⟩ :: w.decisions
  others : ∀ a, a ≠ l.atom → u.valuation[a]? = w.valuation[a]?
  opposite : u.valuation[l.atom]? = some (some !l.polarity)

section Inheriting

/-- Every decision of the second search that can be flipped is one of the first, with the same decisions and
the same trail below it. -/
structure Inherits (s t : Search) : Prop where
  size : t.valuation.size = s.valuation.size
  stack : ∀ d earlier, d.flipped = false → d :: earlier <:+ t.decisions → d :: earlier <:+ s.decisions
  below : ∀ d earlier, d.flipped = false → d :: earlier <:+ t.decisions →
    t.path.take d.trailLength = s.path.take d.trailLength

theorem Inherits.refl (s : Search) : s.Inherits s := ⟨rfl, fun _ _ _ => id, fun _ _ _ _ => rfl⟩

theorem Inherits.trans (one : s.Inherits t) (two : t.Inherits u) : s.Inherits u := by
  refine ⟨two.size.trans one.size, fun d earlier unspent listed => ?_, fun d earlier unspent listed => ?_⟩
  · exact one.stack d earlier unspent (two.stack d earlier unspent listed)
  · exact (two.below d earlier unspent listed).trans
      (one.below d earlier unspent (two.stack d earlier unspent listed))

theorem Relabels.inherits (h : s.Relabels t) : s.Inherits t := by
  rw [h]
  exact ⟨rfl, fun _ _ _ => id, fun _ _ _ _ => rfl⟩

/-- Without decisions there is nothing to inherit. -/
theorem inherits_of_nil (size : t.valuation.size = s.valuation.size) (empty : t.decisions = []) :
    s.Inherits t := by
  have nothing : ∀ {d : Decision} {earlier}, ¬ d :: earlier <:+ t.decisions := fun listed => by
    rw [empty] at listed
    cases List.suffix_nil.mp listed
  exact ⟨size, fun _ _ _ listed => absurd listed nothing, fun _ _ _ listed => absurd listed nothing⟩

theorem Deduces.inherits (deduces : s.Deduces t) (kept : s.Disciplined) : s.Inherits t := by
  refine ⟨deduces.size, fun d earlier _ => ?_, fun d earlier _ listed => ?_⟩
  · rw [deduces.decisions]
    exact id
  · rw [deduces.decisions] at listed
    have member : d ∈ s.decisions := listed.subset List.mem_cons_self
    exact take_of_deduces deduces (Nat.le_of_lt (kept.decision_lt member))

/-- A flip leaves the decisions below its own as they were. -/
theorem inherits_of_backtrack (kept : s.Disciplined) (h : s.backtrack = (true, t)) : s.Inherits t := by
  obtain ⟨popped, d, earlier, split, -, -, flips⟩ := backtrackOver_true kept.records kept.stacked kept.placed h
  have stacked := kept.stacked
  rw [split] at stacked
  have top := (List.pairwise_append.mp stacked).2.1
  have inside := Nat.le_of_lt (kept.decision_lt (d := d) (by simp [split]))
  have before : ∀ e rest, e.flipped = false → e :: rest <:+ t.decisions → e :: rest <:+ earlier := by
    intro e rest unspent listed
    rw [flips.decisions] at listed
    rcases List.suffix_cons_iff.mp listed with same | later
    · cases same
      cases unspent
    · exact later
  refine ⟨flips.size, fun e rest unspent listed => ?_, fun e rest unspent listed => ?_⟩
  · rw [split]
    exact (before e rest unspent listed).trans ((List.suffix_cons d earlier).trans (List.suffix_append popped _))
  · have member : e ∈ earlier := (before e rest unspent listed).subset List.mem_cons_self
    exact take_of_flips flips inside (Nat.le_of_lt (List.rel_of_pairwise_cons top member))

end Inheriting

section Calls

/-- What holds of a search between calls: the trail discipline, and unless it has stalled all that later calls
rely on. -/
structure Resting (s : Search) : Prop extends WellFormed s where
  paused : s.phase ≠ .stalled → s.Paused

theorem WellFormed.deduces_propagate (formed : s.WellFormed) :
    s.propagate.2.WellFormed ∧ s.Deduces s.propagate.2 := by
  rcases result : s.propagate with ⟨_ | i, t⟩
  · obtain ⟨formed', deduces, -⟩ := propagate_none formed result
    exact ⟨formed', deduces⟩
  · obtain ⟨formed', deduces, -⟩ := propagate_some formed result
    exact ⟨formed', deduces⟩

theorem relabels_decide (s : Search) : s.Relabels s.decide.2 := by
  unfold decide
  split <;> rfl

/-- A call for the next model that does not come to the loop ends the search, if it has not ended yet. -/
theorem Resting.refused (resting : s.Resting) (nowhere : ∀ t, ¬ s.Enters t) :
    s.next.2.Resting ∧ s.Inherits s.next.2 := by
  have same : s.next.2 = s → s.next.2.Resting ∧ s.Inherits s.next.2 := fun equal => by
    rw [equal]
    exact ⟨resting, .refl s⟩
  have ends : s.phase ≠ .stalled → s.next.2.decisions = [] → s.next.2.Resting ∧ s.Inherits s.next.2 := by
    intro live empty
    rcases (resting.paused live).next_cases with ⟨t, enters, -⟩ | ⟨t, result, ending⟩
    · exact absurd enters (nowhere t)
    · rw [result] at empty ⊢
      exact ⟨⟨ending.formed, fun _ => ending.paused⟩, inherits_of_nil ending.task.size empty⟩
  cases phase : s.phase with
  | exhausted => exact same (by simp [next, phase])
  | stalled => exact same (by simp [next, phase])
  | model =>
    refine ends (by simp [phase]) ?_
    rcases result : s.backtrack with ⟨_ | _, t⟩
    · obtain ⟨-, -, -, empty⟩ :=
        backtrackOver_false resting.records resting.propagated resting.placed resting.stacked result
      simpa [next, phase, result, exhaust] using empty
    · exact absurd (.resume phase result) (nowhere t)
  | fresh =>
    refine ends (by simp [phase]) ?_
    have blank := (resting.paused (by simp [phase])).fresh phase
    rcases result : s.valueRoot with ⟨_ | _, t⟩
    · obtain ⟨-, empty, -⟩ := (valueRoot_spec blank result).1.wellFormed blank
      simpa [next, phase, result, exhaust] using empty
    · exact absurd (.root phase result) (nowhere t)

/-- Calls that do not come to the loop. -/
theorem Resting.call (resting : s.Resting) (direct : c ≠ .next ∨ ∀ t, ¬ s.Enters t) :
    (s.call c).Resting ∧ s.Inherits (s.call c) := by
  cases c with
  | next => exact resting.refused (direct.resolve_left (· rfl))
  | propagate =>
    obtain ⟨formed, deduces⟩ := resting.toWellFormed.deduces_propagate
    refine ⟨⟨formed, fun live => ?_⟩, deduces.inherits resting.toDisciplined⟩
    exact (resting.paused (phase_propagate s ▸ live)).propagate.1
  | decide =>
    have relabels := relabels_decide s
    refine ⟨⟨resting.toWellFormed.relabel relabels, fun live => ?_⟩, relabels.inherits⟩
    have returns := drawReturns_of_decide live
    have phase : s.decide.2.phase = s.phase := by rw [decide_frame returns]
    exact (resting.paused (phase ▸ live)).decide returns
  | assumePure =>
    have relabels : s.Relabels s.assumePureLiterals := rfl
    exact ⟨⟨resting.toWellFormed.relabel relabels, fun live => (resting.paused live).assumePure⟩, relabels.inherits⟩

theorem Resting.enter (resting : s.Resting) (enters : s.Enters t) :
    t.Ready ∧ t.phase ≠ .stalled ∧ s.Inherits t := by
  have live : s.phase ≠ .stalled := by
    cases enters with
    | root fresh => simp [fresh]
    | resume found => simp [found]
  have paused := resting.paused live
  obtain ⟨ready, task, phase, -⟩ := paused.enters enters
  refine ⟨ready, phase ▸ live, ?_⟩
  cases enters with
  | root fresh valued =>
    have blank := paused.fresh fresh
    obtain ⟨-, empty, -⟩ := (valueRoot_spec blank valued).1.wellFormed blank
    exact inherits_of_nil task.size empty
  | resume found flipped => exact inherits_of_backtrack resting.toDisciplined flipped

end Calls

section Loop

/-- A decision is made where the trail is propagated, and nothing below other decisions was changed on the way
there. -/
theorem Ready.decides (ready : s.Ready) (decides : s.Decides w l) :
    w.Ready ∧ w.valuation[l.atom]? = some none ∧ s.Inherits w := by
  obtain ⟨t, propagated, decided⟩ := decides
  obtain ⟨ready', deduces, -, -⟩ := ready.propagate_none propagated
  obtain ⟨free, frame⟩ := decide_some decided
  have relabels : t.Relabels w := by
    rw [frame]
    rfl
  refine ⟨?_, ?_, (deduces.inherits ready.toDisciplined).trans relabels.inherits⟩
  · rw [frame]
    exact ⟨ready'.toWellFormed.relabel rfl, ready'.passed, ready'.clean⟩
  · rw [frame]
    exact free

/-- On a conflict nothing below the decisions was changed on the way to it. -/
theorem Ready.conflict (ready : s.Ready) {i : Nat} (conflict : s.propagate = (some i, t)) :
    t.countConflict.WellFormed ∧ s.Inherits t.countConflict := by
  obtain ⟨formed, deduces, -⟩ := ready.propagate_some conflict
  have relabels : t.Relabels t.countConflict := rfl
  exact ⟨formed.relabel relabels, (deduces.inherits ready.toDisciplined).trans relabels.inherits⟩

/-- The last iteration of the loop leaves nothing to flip, or no decision to make. -/
theorem Ready.finish (ready : s.Ready) (last : ∀ t, ¬ Iteration s t) :
    s.settle.2.Resting ∧ s.Inherits s.settle.2 := by
  rw [settle_eq]
  rcases propagated : s.propagate with ⟨_ | i, t⟩
  · obtain ⟨ready', deduces, finished, -⟩ := ready.propagate_none propagated
    have inherits := deduces.inherits ready.toDisciplined
    dsimp only
    rcases decided : t.decide with ⟨_ | l, u⟩
    · have relabels : t.Relabels u := by simpa [decided] using relabels_decide t
      dsimp only
      split
      · next stalled =>
        exact ⟨⟨ready'.toWellFormed.relabel relabels, fun live => absurd stalled live⟩, inherits.trans relabels.inherits⟩
      · next running =>
        have returns := drawReturns_of_decide (s := t) (by simpa [decided] using running)
        obtain ⟨source, rfl⟩ : ∃ source, u = { t with source := source } := ⟨_, (decide_none returns decided).2⟩
        refine ⟨⟨ready'.toWellFormed.relabel rfl, fun _ => ?_⟩, inherits.trans (Relabels.inherits rfl)⟩
        exact ⟨ready'.toWellFormed.relabel rfl, by simp [yield], by simp [yield],
          fun _ => ⟨finished, ready'.clean⟩⟩
    · exact absurd (.branch propagated decided) (last _)
  · obtain ⟨formed, inherits⟩ := ready.conflict propagated
    dsimp only
    rcases ending : t.countConflict.backtrack with ⟨_ | _, u⟩
    · obtain ⟨-, kept, moves, empty⟩ :=
        backtrackOver_false formed.records formed.propagated formed.placed formed.stacked ending
      have formed' : u.exhaust.2.WellFormed := (formed.of_task moves.task kept).relabel rfl
      have spent : t.countConflict.Inherits u := inherits_of_nil moves.size empty
      exact ⟨⟨formed', fun _ => ⟨formed', by simp [exhaust], by simp [exhaust], by simp [exhaust]⟩⟩,
        inherits.trans (spent.trans (Relabels.inherits rfl))⟩
    · exact absurd (.flip propagated ending) (last _)

theorem not_iteration_of_ending {i : Nat} (conflict : s.propagate = (some i, t))
    (ending : t.countConflict.backtrack = (false, u)) (v : Search) : ¬ Iteration s v := by
  intro step
  cases step with
  | flip conflict' flipped =>
    cases conflict.symm.trans conflict'
    cases ending.symm.trans flipped
  | branch propagated _ => cases conflict.symm.trans propagated

theorem not_iteration_of_decided (propagated : s.propagate = (none, t)) (decided : t.decide = (none, u))
    (v : Search) : ¬ Iteration s v := by
  intro step
  cases step with
  | flip conflict _ => cases propagated.symm.trans conflict
  | branch propagated' decided' =>
    cases propagated.symm.trans propagated'
    cases decided.symm.trans decided'

/-- The loop comes to its last iteration. -/
theorem Ready.exists_last (ready : s.Ready) : ∃ t, Iterations s t ∧ ∀ u, ¬ Iteration t u := by
  fun_induction settle s with
  | case1 s i t conflict u flipped ih =>
    have step : Iteration s u := .flip conflict flipped
    obtain ⟨v, steps, last⟩ := ih (ready.iteration step).1
    exact ⟨v, .head step steps, last⟩
  | case2 s i t conflict u ending => exact ⟨s, .refl, not_iteration_of_ending conflict ending⟩
  | case3 s t propagated l u decided within ih =>
    have step : Iteration s (u.branch l) := .branch propagated decided
    obtain ⟨v, steps, last⟩ := ih (ready.iteration step).1
    exact ⟨v, .head step steps, last⟩
  | case4 s t propagated l u decided beyond =>
    refine absurd ?_ beyond
    rw [(decide_some decided).2]
    exact (ready.propagate_none propagated).1.length_decisions_le
  | case5 s t propagated u decided => exact ⟨s, .refl, not_iteration_of_decided propagated decided⟩
  | case6 s t propagated u decided => exact ⟨s, .refl, not_iteration_of_decided propagated decided⟩

end Loop

section Courses

variable {moments past : List Moment} {m n : Moment}

/-- A decision of a search was made at a moment of the run, and the trail below it is as it was then. -/
structure Recalls (moments : List Moment) (s : Search) (d : Decision) (earlier : List Decision) (w : Search) :
    Prop where
  made : Made moments w d.literal
  place : d.trailLength = w.path.length
  stack : earlier = w.decisions
  below : s.path.take d.trailLength = w.path
  records : w.valuation.Records w.path
  size : w.valuation.size = s.valuation.size

/-- Every decision of a search that can be flipped is recalled. -/
def Recalled (moments : List Moment) (s : Search) : Prop :=
  ∀ d earlier, d.flipped = false → d :: earlier <:+ s.decisions → ∃ w, Recalls moments s d earlier w

/-- One moment later, a decision still on the stack is recalled if the trail below it is the same. -/
theorem Recalls.later (recalls : Recalls moments s d earlier w) (unspent : d.flipped = false)
    (listed : d :: earlier <:+ n.search.decisions)
    (same : n.search.path.take d.trailLength = s.path.take d.trailLength)
    (size : n.search.valuation.size = s.valuation.size) : Recalls (n :: moments) n.search d earlier w := by
  obtain ⟨⟨since, r, before, split, decides, stays⟩, place, stack, below, records, size'⟩ := recalls
  refine ⟨⟨n :: since, r, before, by rw [split]; rfl, decides, ?_⟩, place, stack, same.trans below, records,
    size'.trans size.symm⟩
  have whole : d = ⟨w.path.length, d.literal, false⟩ := by rw [← place, ← unspent]
  refine List.forall_mem_cons.mpr ⟨?_, stays⟩
  rw [← whole, ← stack]
  exact listed

/-- Step lemma for moments between which no decision is made. -/
theorem Recalled.step (recalled : Recalled moments s) (inherits : s.Inherits n.search) :
    Recalled (n :: moments) n.search := by
  intro d earlier unspent listed
  obtain ⟨w, recalls⟩ := recalled d earlier unspent (inherits.stack d earlier unspent listed)
  exact ⟨w, recalls.later unspent listed (inherits.below d earlier unspent listed) inherits.size⟩

/-- Step lemma for a decision. -/
theorem Recalled.branch (recalled : Recalled (.looping s :: past) s) (ready : s.Ready) (decides : s.Decides w l) :
    Recalled (.looping (w.branch l) :: .looping s :: past) (w.branch l) := by
  obtain ⟨ready', free, inherits⟩ := ready.decides decides
  have decisions := decisions_branch free
  have size : (w.branch l).valuation.size = w.valuation.size := by simp [branch_of_free free]
  intro d earlier unspent listed
  have stack := listed
  rw [decisions] at stack
  rcases List.suffix_cons_iff.mp stack with same | old
  · cases same
    refine ⟨w, ⟨[], s, past, rfl, decides, by simp⟩, rfl, rfl, ?_, ready'.records, size.symm⟩
    rw [take_branch free (Nat.le_refl _), List.take_length]
  · obtain ⟨r, recalls⟩ := recalled d earlier unspent (inherits.stack d earlier unspent old)
    refine ⟨r, recalls.later unspent listed ?_ (size.trans inherits.size)⟩
    have inside := Nat.le_of_lt (ready'.decision_lt (old.subset List.mem_cons_self))
    exact (take_branch free inside).trans (inherits.below d earlier unspent old)

/-- A flip restores what was there when its decision was made. -/
theorem Recalled.restores (recalled : Recalled moments s) (inherits : s.Inherits t) (kept : t.Disciplined)
    (flipped : t.backtrack = (true, u)) : ∃ w l, Made moments w l ∧ Restores w l u := by
  obtain ⟨popped, d, earlier, split, -, unspent, flips⟩ :=
    backtrackOver_true kept.records kept.stacked kept.placed flipped
  have listed : d :: earlier <:+ t.decisions := ⟨popped, split.symm⟩
  obtain ⟨w, recalls⟩ := recalled d earlier unspent (inherits.stack d earlier unspent listed)
  have below : t.path.take d.trailLength = w.path := (inherits.below d earlier unspent listed).trans recalls.below
  have path : u.path = w.path ++ [-d.literal] := by rw [flips.path, below]
  have size : u.valuation.size = w.valuation.size :=
    flips.size.trans (inherits.size.trans recalls.size.symm)
  refine ⟨w, d.literal, recalls.made, path, flips.head.trans recalls.place, ?_, fun a apart => ?_, ?_⟩
  · rw [flips.decisions, recalls.place, recalls.stack]
  · refine flips.records.lists.eq_of_mem recalls.records.lists size fun b => ?_
    have different : (⟨a, b⟩ : Literal) ≠ -d.literal := fun same => apart (congrArg Literal.atom same)
    rw [path, List.mem_append, List.mem_singleton, or_iff_left different]
  · refine (flips.records.lists (-d.literal)).mpr ?_
    rw [path]
    exact List.mem_append_right _ (List.mem_singleton_self _)

/-- What holds of the search at a moment. -/
def Moment.Sound : Moment → Prop
  | .idle s => s.Resting
  | .looping s => s.Ready ∧ s.phase ≠ .stalled

theorem Moment.Sound.disciplined (sound : m.Sound) : m.search.Disciplined := by
  cases m with
  | idle s => exact sound.toDisciplined
  | looping s => exact sound.1.toDisciplined

/-- What holds at the latest moment of a run. -/
structure Kept (first : Search) (calls : List Call) (m : Moment) (past : List Moment) : Prop where
  sound : m.Sound
  recalled : Recalled (m :: past) m.search
  returned : m.returned = first.after calls

/-- An iteration of the loop, which either flips a decision or makes one. -/
theorem Kept.iterate (kept : Kept first calls (.looping s) past) (step : Iteration s t) :
    Kept first calls (.looping t) (.looping s :: past) := by
  obtain ⟨⟨ready, live⟩, recalled, returned⟩ := kept
  obtain ⟨ready', continues⟩ := ready.iteration step
  refine ⟨⟨ready', continues.moves.phase ▸ live⟩, ?_, ?_⟩
  · cases step with
    | flip conflict flipped =>
      obtain ⟨formed, inherits⟩ := ready.conflict conflict
      exact recalled.step (inherits.trans (inherits_of_backtrack formed.toDisciplined flipped))
    | branch propagated decided => exact recalled.branch ready ⟨_, propagated, decided⟩
  · rw [← returned, Moment.returned, Moment.returned, ready.settle_iteration step]

/-- Run lemma, by induction on the moments of the run. -/
theorem Course.kept (blank : first.Blank) (fresh : first.phase = .fresh) (course : Course first calls moments) :
    ∃ m past, moments = m :: past ∧ Kept first calls m past := by
  induction course with
  | start =>
    refine ⟨_, _, rfl, ⟨blank.toWellFormed, fun _ => blank.paused fresh⟩, fun d earlier _ listed => ?_, rfl⟩
    rw [Moment.search, blank.decisions] at listed
    cases List.suffix_nil.mp listed
  | call course direct ih =>
    obtain ⟨_, _, ⟨⟩, resting, recalled, returned⟩ := ih
    obtain ⟨resting', inherits⟩ := Resting.call resting direct
    refine ⟨_, _, rfl, resting', recalled.step inherits, ?_⟩
    rw [after_concat, ← returned]
    rfl
  | enter course enters ih =>
    obtain ⟨_, _, ⟨⟩, resting, recalled, returned⟩ := ih
    obtain ⟨ready, live, inherits⟩ := Resting.enter resting enters
    refine ⟨_, _, rfl, ⟨ready, live⟩, recalled.step inherits, ?_⟩
    rw [after_concat, ← returned, Search.call, Moment.returned, Moment.returned, enters.next_eq]
  | iterate course step ih =>
    obtain ⟨_, _, ⟨⟩, kept⟩ := ih
    exact ⟨_, _, rfl, kept.iterate step⟩
  | finish course last ih =>
    obtain ⟨_, _, ⟨⟩, ⟨ready, -⟩, recalled, returned⟩ := ih
    obtain ⟨resting, inherits⟩ := ready.finish last
    exact ⟨_, _, rfl, resting, recalled.step inherits, returned⟩

theorem Course.iterations (course : Course first calls (.looping s :: past)) (steps : Iterations s t) :
    ∃ past, Course first calls (.looping t :: past) := by
  induction steps with
  | refl => exact ⟨past, course⟩
  | tail _ step ih =>
    obtain ⟨later, course'⟩ := ih
    exact ⟨_, course'.iterate step⟩

/-- Every run of calls has a course, which ends with the search after them. -/
theorem exists_course (blank : first.Blank) (fresh : first.phase = .fresh) (calls : List Call) :
    ∃ past, Course first calls (.idle (first.after calls) :: past) := by
  induction calls using List.reverseRecOn with
  | nil => exact ⟨[], .start⟩
  | append_singleton calls c ih =>
    obtain ⟨past, course⟩ := ih
    by_cases direct : c ≠ .next ∨ ∀ t, ¬ (first.after calls).Enters t
    · rw [after_concat]
      exact ⟨_, course.call direct⟩
    · simp only [not_or, not_not, not_forall] at direct
      obtain ⟨rfl, t, enters⟩ := direct
      have entered := course.enter enters
      obtain ⟨_, _, ⟨⟩, ⟨ready, -⟩, -⟩ := entered.kept blank fresh
      obtain ⟨u, steps, last⟩ := ready.exists_last
      obtain ⟨later, iterated⟩ := entered.iterations steps
      have finished := iterated.finish last
      obtain ⟨_, _, ⟨⟩, -, -, returned⟩ := finished.kept blank fresh
      rw [Moment.returned] at returned
      exact ⟨_, returned ▸ finished⟩

end Courses

/-- Over every run of calls, under every configuration: whenever a call returns, and whenever an iteration of
the loop starts, the trail lists the literals that are true, each atom once; no more of it is propagated than
there is; and the decisions stand on it, each at its place, the later ones higher. Every run has a course
through such moments. Where it flips a decision, there is a moment on the course since which the decision was
on the stack; the flip restores the trail, the decisions and the values of all other atoms of the search that
made it then, and has the opposite literal next to be propagated. -/
theorem trail_disciplined {clauses : Formula} {atoms : Nat} (config : Config) (below : clauses.Below atoms) :
    let first := start clauses atoms config
    (∀ calls, (first.after calls).Disciplined ∧ ∃ past, Course first calls (.idle (first.after calls) :: past)) ∧
      (∀ calls t, (first.after calls).Rounds t →
        t.Disciplined ∧ ∃ past, Course first (calls ++ [.next]) (.looping t :: past)) ∧
      ∀ calls m past, Course first calls (m :: past) → m.search.Disciplined ∧ m.returned = first.after calls ∧
        ∀ u, m.Backtracks u → ∃ w l, Made (m :: past) w l ∧ Restores w l u := by
  intro first
  have blank : first.Blank := blank_start config below
  have along : ∀ {calls m past}, Course first calls (m :: past) → Kept first calls m past := by
    intro calls m past course
    obtain ⟨_, _, ⟨⟩, kept⟩ := course.kept blank rfl
    exact kept
  refine ⟨fun calls => ?_, fun calls t rounds => ?_, fun calls m past course => ?_⟩
  · obtain ⟨past, course⟩ := exists_course blank rfl calls
    exact ⟨(along course).sound.disciplined, past, course⟩
  · obtain ⟨past, course⟩ := exists_course blank rfl calls
    obtain ⟨u, enters, steps⟩ := rounds
    obtain ⟨later, course'⟩ := (course.enter enters).iterations steps
    exact ⟨(along course').sound.disciplined, later, course'⟩
  · obtain ⟨sound, recalled, returned⟩ := along course
    refine ⟨sound.disciplined, returned, fun u backtracks => ?_⟩
    cases backtracks with
    | resume found flipped => exact recalled.restores (.refl _) sound.toDisciplined flipped
    | conflict conflict flipped =>
      obtain ⟨formed, inherits⟩ := sound.1.conflict conflict
      exact recalled.restores inherits formed.toDisciplined flipped

/-- A conflict takes back a decision that was flipped already, and flips the one before it: the trail is that
of the unit clause again, with the opposite literal on it. -/
theorem trail_disciplined_double :
    let clauses : Formula := #[[⟨0, true⟩], [⟨2, true⟩, ⟨3, true⟩], [⟨2, true⟩, ⟨3, false⟩],
      [⟨1, true⟩, ⟨2, false⟩, ⟨3, true⟩], [⟨1, true⟩, ⟨2, false⟩, ⟨3, false⟩]]
    let first := start clauses 4 {}
    let once := first.valueRoot.2.propagate.2.decide.2.branch ⟨1, false⟩
    let twice := once.propagate.2.decide.2.branch ⟨2, false⟩
    let flipped := twice.propagate.2.countConflict.backtrack.2
    let last := flipped.propagate.2.countConflict.backtrack.2
    clauses.Below 4 ∧ flipped.decisions = [⟨2, ⟨2, true⟩, true⟩, ⟨1, ⟨1, false⟩, false⟩] ∧
      ∃ past w l, Course first [.next] (.looping flipped :: past) ∧ Made (.looping flipped :: past) w l ∧
        Restores w l last ∧ w.path = [⟨0, true⟩] ∧ l = ⟨1, false⟩ := by
  intro clauses first once twice flipped last
  have below : clauses.Below 4 := by
    rw [Formula.Below]
    decide
  have root : (first.after []).Rounds _ := rounds_root rfl (by decide)
  have rounds : (first.after []).Rounds twice :=
    (root.branch (by decide +kernel) (by decide +kernel)).branch (by decide +kernel) (by decide +kernel)
  have rounds' : (first.after []).Rounds flipped := rounds.flip (i := 2) (by decide +kernel) (by decide +kernel)
  have backtracks : Moment.Backtracks (.looping flipped) last :=
    .conflict (i := 4) (Prod.ext (by decide +kernel) rfl) (Prod.ext (by decide +kernel) rfl)
  have path : last.path = [⟨0, true⟩] ++ [⟨1, true⟩] := by decide +kernel
  obtain ⟨-, looping, retracing⟩ := trail_disciplined {} below
  obtain ⟨-, past, course⟩ := looping [] flipped rounds'
  obtain ⟨w, l, made, restores⟩ := (retracing _ _ past course).2.2 last backtracks
  obtain ⟨same, opposite⟩ := List.append_inj' (path.symm.trans restores.path) rfl
  have literal : l = ⟨1, false⟩ := by
    rw [← Literal.neg_neg l, ← List.singleton_inj.mp opposite]
    rfl
  exact ⟨below, by decide +kernel, past, w, l, course, made, restores, same.symm, literal⟩

end Search

end Clausal

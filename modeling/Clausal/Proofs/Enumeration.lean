import Clausal.Proofs.Branching
import Clausal.Proofs.Root

/-!
The enumeration of models. A call for the next model values the root or backtracks,
then iterates until it finds a model or no model is open any more. Between calls the
models still to come are those left open, so over any run of calls each model is
found once, and none is left when the search says so.
-/

namespace Clausal.Search

section Finish

variable {s : Search}

/-- The valuation of a trail with all atoms. -/
private theorem holds_total (kept : s.Disciplined) (full : ∀ a : Atom, s.valuation[a]? ≠ some none)
    (l : Literal) : Valuation.holds (s.valuation.map (·.getD false)) l = true ↔ l ∈ s.path := by
  rw [← kept.records.lists l, Valuation.holds_iff, Array.getElem?_map]
  cases value : s.valuation[l.atom]? with
  | none => simp
  | some o =>
    cases o with
    | none => exact absurd value (full _)
    | some b => simp

/-- A trail with all atoms that falsifies no clause is a model, and the only one on it. -/
theorem Ready.total (ready : s.Ready) (finished : s.head = s.path.length)
    (full : ∀ a : Atom, s.valuation[a]? ≠ some none) :
    Valuation.Models (s.valuation.map (·.getD false)) s.clauses s.valuation.size ∧
      ∀ v : Valuation, v.size = s.valuation.size →
        (s.Current v ↔ v = s.valuation.map (·.getD false)) := by
  have holds := holds_total ready.toDisciplined full
  have valued : ∀ l : Literal, l.atom < s.valuation.size → -l ∉ s.path → l ∈ s.path := by
    intro l inside absent
    rw [← ready.records.lists (-l)] at absent
    rw [← ready.records.lists l]
    have free := full l.atom
    rw [Literal.atom_neg, Literal.polarity_neg] at absent
    rw [Array.getElem?_eq_getElem inside] at absent free ⊢
    cases value : s.valuation[l.atom] with
    | none => exact absurd (congrArg some value) free
    | some b => cases b <;> cases polarity : l.polarity <;> simp_all
  refine ⟨⟨by simp, ?_⟩, ?_⟩
  · intro c member
    obtain ⟨l, there, absent⟩ := ready.clean c member
    rw [finished, List.take_length] at absent
    exact Valuation.satisfies_iff.mpr
      ⟨l, there, (holds l).mpr (valued l (ready.below c member l there) absent)⟩
  · intro v size
    constructor
    · intro agrees
      refine Array.ext (by simp [size]) fun a inside within => ?_
      have there : a < s.valuation.size := by simpa using within
      rw [Array.getElem_map]
      cases value : s.valuation[a] with
      | none => exact absurd (Array.getElem?_eq_getElem there ▸ congrArg some value) (full a)
      | some b =>
        have listed : (⟨a, b⟩ : Literal) ∈ s.path := by
          rw [← ready.records.lists, Array.getElem?_eq_getElem there, value]
        have found := Valuation.holds_iff.mp (agrees _ listed)
        rw [Array.getElem?_eq_getElem inside] at found
        simpa using found
    · rintro rfl l listed
      exact (holds l).mpr listed

/-- A valuation that agrees with the trail is not beside it. -/
theorem Disciplined.not_pending (kept : s.Disciplined) {v : Valuation} (agrees : s.Current v) :
    ¬ s.Pending v := by
  rintro ⟨d, member, -, -, opposite⟩
  have fails := Valuation.not_holds_of_neg opposite
  rw [agrees _ (List.mem_of_getElem? (kept.placed d member))] at fails
  cases fails

end Finish

section Calls

variable {s t : Search}

/-- The models that later calls find: before the first call those that make the assumptions true,
after a model those beside the trail. -/
def Left (s : Search) (v : Valuation) : Prop :=
  match s.phase with
  | .fresh => ∀ l ∈ s.assumptions, v.holds l = true
  | .model => s.Pending v
  | .exhausted => False
  | .stalled => False

/-- What holds of a search between calls. -/
structure Paused (s : Search) : Prop extends WellFormed s where
  live : s.phase ≠ .stalled
  fresh : s.phase = .fresh → s.Blank
  model : s.phase = .model → s.head = s.path.length ∧ s.Clean s.head

/-- In a call for the next model the loop starts with the second search. -/
inductive Enters : Search → Search → Prop where
  | root {s t : Search} (fresh : s.phase = .fresh) (valued : s.valueRoot = (true, t)) : Enters s t
  | resume {s t : Search} (found : s.phase = .model) (flipped : s.backtrack = (true, t)) : Enters s t

/-- In a call for the next model an iteration of the loop starts with the second search. -/
def Rounds (s t : Search) : Prop := ∃ u, s.Enters u ∧ Iterations u t

/-- Every draw in a call for the next model returns. -/
def NextReturns (s : Search) : Prop := ∀ t, s.Rounds t → t.DecisionReturns

/-- The loop of a call starts with the models that are left. -/
theorem Paused.enters (paused : s.Paused) (h : s.Enters t) :
    t.Ready ∧ s.SameTask t ∧ t.phase = s.phase ∧
      ∀ v, v.Models s.clauses s.valuation.size → (t.Open v ↔ s.Left v) := by
  cases h with
  | root fresh valued =>
    have blank := paused.fresh fresh
    obtain ⟨roots, success, -⟩ := valueRoot_spec blank valued
    obtain ⟨noEmpty, listed⟩ := success rfl
    obtain ⟨formed, decisions, head⟩ := roots.wellFormed blank
    refine ⟨⟨formed, by simp [decisions], ?_⟩, roots.task, by rw [roots.frame], ?_⟩
    · intro c member
      cases c with
      | nil => exact absurd (roots.task.clauses ▸ member) noEmpty
      | cons l c => exact ⟨l, List.mem_cons_self, by simp [head]⟩
    · intro v model
      have nothing : ¬ t.Pending v := by simp [Pending, decisions]
      rw [Left, fresh, Open, or_iff_left nothing]
      constructor
      · exact fun agrees l member => agrees l (listed l (.inr member))
      · exact fun assumed l member => (roots.only l member).holds model assumed
  | resume found flipped =>
    obtain ⟨finished, clean⟩ := paused.model found
    have passed : ∀ d ∈ s.decisions, d.trailLength ≤ s.head := fun d member => by
      rw [finished]
      exact Nat.le_of_lt (paused.decision_lt member)
    obtain ⟨ready, moves, remaining⟩ := paused.toWellFormed.backtrack_true passed clean flipped
    refine ⟨ready, moves.task, moves.phase, fun v _ => ?_⟩
    rw [Left, found]
    exact remaining v

/-- The second search says that it is over, and for the first one no model is left. -/
structure Over (s t : Search) : Prop where
  phase : t.phase = .exhausted
  formed : t.WellFormed
  task : s.SameTask t
  nothing : ∀ v, v.Models s.clauses s.valuation.size → ¬ s.Left v

theorem Over.paused (ending : s.Over t) : t.Paused :=
  ⟨ending.formed, by simp [ending.phase], by simp [ending.phase], by simp [ending.phase]⟩

/-- A call that does not come to the loop ends the search, and rightly so. -/
theorem Paused.next_cases (paused : s.Paused) :
    (∃ t, s.Enters t ∧ s.next = t.settle) ∨ ∃ t, s.next = (none, t) ∧ s.Over t := by
  unfold next
  split
  · next ending =>
    exact .inr ⟨s, rfl, ending, paused.toWellFormed, .refl s, by simp [Left, ending]⟩
  · next ending => exact absurd ending paused.live
  · next found =>
    split
    · next t flipped => exact .inl ⟨t, .resume found flipped, rfl⟩
    · next t ending =>
      obtain ⟨formed, moves, nothing⟩ := paused.toWellFormed.backtrack_false ending
      have task := moves.task
      refine .inr ⟨_, rfl, rfl, formed.relabel rfl, task.relabel rfl, fun v _ => ?_⟩
      rw [Left, found]
      exact nothing v
  · next fresh =>
    have blank := paused.fresh fresh
    split
    · next t valued => exact .inl ⟨t, .root fresh valued, rfl⟩
    · next t failed =>
      obtain ⟨roots, -, failure⟩ := valueRoot_spec blank failed
      have formed := (roots.wellFormed blank).1
      have task := roots.task
      refine .inr ⟨_, rfl, rfl, formed.relabel rfl, task.relabel rfl, fun v model left => ?_⟩
      rw [Left, fresh] at left
      rcases failure rfl with empty | ⟨l, rooted, opposite⟩
      · simpa [Valuation.satisfies] using model.2 _ empty
      · have fails := Valuation.not_holds_of_neg (opposite.holds model left)
        rw [rooted.holds model left] at fails
        cases fails

/-- The second search has found a model, and nothing else is left less than for the first one. -/
structure Finds (s : Search) (v : Valuation) (t : Search) : Prop where
  paused : t.Paused
  task : s.SameTask t
  model : v.Models s.clauses s.valuation.size
  gone : ¬ t.Left v
  remaining : ∀ w, w.Models s.clauses s.valuation.size → (s.Left w ↔ w = v ∨ t.Left w)

/-- The loop ends with a model that was open, or with the search if none is open. -/
theorem Ready.finishes {r : Option Valuation × Search} (ready : s.Ready)
    (returns : s.DecisionReturns) (h : s.Finishes r) :
    (∃ v t, r = (some v, t) ∧ t.phase = .model ∧ t.Paused ∧ s.SameTask t ∧
        v.Models s.clauses s.valuation.size ∧ ¬ t.Pending v ∧
        ∀ w, w.Models s.clauses s.valuation.size → (s.Open w ↔ w = v ∨ t.Pending w)) ∨
      ∃ t, r = (none, t) ∧ t.phase = .exhausted ∧ t.WellFormed ∧ s.SameTask t ∧
        ∀ w, w.Models s.clauses s.valuation.size → ¬ s.Open w := by
  cases h with
  | @exhausted t u i conflict ending =>
    obtain ⟨formed, deduces, -, -, pending⟩ := ready.propagate_some conflict
    have counted : t.countConflict.WellFormed := formed.relabel rfl
    obtain ⟨formed', moves, nothing⟩ := counted.backtrack_false ending
    have task := deduces.moves.task.trans ⟨moves.task.clauses, moves.task.occurrences, moves.size,
      moves.task.sampler, moves.task.lean, moves.task.bias⟩
    refine .inr ⟨_, rfl, rfl, formed'.relabel rfl, task.relabel rfl, fun w model => ?_⟩
    rw [← pending w model]
    exact nothing w
  | @model t u propagated decided =>
    obtain ⟨ready', deduces, finished, remaining⟩ := ready.propagate_none propagated
    obtain ⟨full, frame⟩ := decide_none (returns t propagated) decided
    obtain ⟨source, rfl⟩ : ∃ source, u = { t with source := source } := ⟨_, frame⟩
    obtain ⟨model, only⟩ := ready'.total finished full
    have task := deduces.moves.task
    refine .inl ⟨_, _, rfl, rfl, ?_, task.relabel rfl, ?_, ?_, ?_⟩
    · exact ⟨ready'.toWellFormed.relabel rfl, by simp, by simp, fun _ => ⟨finished, ready'.clean⟩⟩
    · rwa [task.clauses, task.size] at model
    · exact ready'.not_pending ((only _ (by simp)).mpr rfl)
    · intro w total
      rw [← remaining w total]
      exact or_congr_left (only w (total.1.trans task.size.symm))

/-- A call that comes to the loop ends by the rules of the loop, if its draws return. -/
theorem Paused.loop_finishes (paused : s.Paused) (returns : s.NextReturns) (enters : s.Enters t) :
    ∃ w, Iterations t w ∧ w.Finishes t.settle := by
  obtain ⟨ready, -, phase, -⟩ := paused.enters enters
  exact ready.settle_finishes (phase ▸ paused.live) fun w steps => returns w ⟨t, enters, steps⟩

/-- What a call for the next model does, if its draws return. -/
theorem Paused.next_spec (paused : s.Paused) (returns : s.NextReturns) :
    (∃ v t, s.next = (some v, t) ∧ s.Finds v t) ∨ ∃ t, s.next = (none, t) ∧ s.Over t := by
  rcases paused.next_cases with ⟨u, enters, equal⟩ | ending
  · obtain ⟨ready, entered, -, left⟩ := paused.enters enters
    obtain ⟨w, steps, finishes⟩ := paused.loop_finishes returns enters
    obtain ⟨ready', continues⟩ := ready.iterations steps
    have task := entered.trans continues.moves.task
    have opened : ∀ v, v.Models s.clauses s.valuation.size → (w.Open v ↔ s.Left v) := by
      intro v model
      have same : v.Models u.clauses u.valuation.size := by rwa [entered.clauses, entered.size]
      exact (continues.remaining v same).trans (left v model)
    rw [equal]
    rcases ready'.finishes (returns w ⟨u, enters, steps⟩) finishes with
      ⟨v, t, result, found, last, ended, model, gone, remaining⟩ |
      ⟨t, result, ending, formed, ended, nothing⟩
    · rw [task.clauses, task.size] at model remaining
      have same : ∀ x, t.Left x ↔ t.Pending x := fun x => by rw [Left, found]
      refine .inl ⟨v, t, result, last, task.trans ended, model, by rwa [same], fun x total => ?_⟩
      rw [← opened x total, same]
      exact remaining x total
    · rw [task.clauses, task.size] at nothing
      refine .inr ⟨t, result, ending, formed, task.trans ended, fun v model => ?_⟩
      rw [← opened v model]
      exact nothing v model
  · exact .inr ending

end Calls

end Clausal.Search

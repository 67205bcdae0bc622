import Clausal.KnowledgeBase.Query
import Clausal.Proofs.Purity
import Clausal.Proofs.Runs
import Clausal.Proofs.Saturation

/-!
Deciding satisfiability. A call for the next model that does not stall has drawn all
its decisions, so its answer says whether a model is left, also when pure literals
are assumed. Search and saturation thus give the same report, if they give one.
-/

namespace Clausal

namespace Search

variable {s t : Search}

section Live

/-- After an iteration the loop goes on as if it started there. -/
theorem Ready.settle_iteration (ready : s.Ready) (step : Iteration s t) : s.settle = t.settle := by
  cases step with
  | flip conflict flipped =>
    rw [settle]
    split
    · next same =>
      cases conflict.symm.trans same
      split
      · next ending => cases flipped.symm.trans ending; rfl
      · next ending => cases flipped.symm.trans ending
    · next same => cases conflict.symm.trans same
  | @branch u w l propagated decided =>
    have within : w.decisions.length ≤ w.valuation.size := by
      rw [(decide_some decided).2]
      exact (ready.propagate_none propagated).1.length_decisions_le
    rw [settle]
    split
    · next same => cases propagated.symm.trans same
    · next same =>
      cases propagated.symm.trans same
      split
      · next drawn =>
        cases decided.symm.trans drawn
        rw [dif_pos within]
      · next drawn => cases decided.symm.trans drawn

theorem Ready.settle_iterations (ready : s.Ready) (steps : Iterations s t) : s.settle = t.settle := by
  induction steps with
  | refl => rfl
  | tail steps step ih => exact ih.trans ((ready.iterations steps).1.settle_iteration step)

/-- A draw that does not return stalls the search. -/
theorem decisionReturns_of_live (live : s.settle.2.phase ≠ .stalled) : s.DecisionReturns := by
  intro t propagated
  by_contra never
  have drawn : t.drawDecision.run t.source = none := by simpa [DrawReturns] using never
  have decided : t.decide = (none, { t with phase := .stalled }) := by rw [decide, drawn]
  refine live ?_
  rw [settle]
  split
  · next same => cases propagated.symm.trans same
  · next same =>
    cases propagated.symm.trans same
    split
    · next other => cases decided.symm.trans other
    · next other => cases decided.symm.trans other; rfl

theorem Enters.next_eq (enters : s.Enters t) : s.next = t.settle := by
  cases enters with
  | root fresh valued => simp only [next, fresh, valued]
  | resume found flipped => simp only [next, found, flipped]

/-- In a call that does not stall every draw returns. -/
theorem Paused.nextReturns_of_live (paused : s.Paused) (live : s.next.2.phase ≠ .stalled) :
    s.NextReturns := by
  rintro t ⟨u, enters, steps⟩
  have ready := (paused.enters enters).1
  rw [enters.next_eq, ready.settle_iterations steps] at live
  exact decisionReturns_of_live live

theorem settle_some {v : Valuation} (h : s.settle.1 = some v) : s.settle.2.phase = .model := by
  fun_induction settle s with
  | case1 s i t conflict u flipped ih => exact ih h
  | case2 s i t conflict u ending => cases h
  | case3 s t propagated l u decided within ih => exact ih h
  | case4 s t propagated l u decided beyond => cases h
  | case5 s t propagated u decided stalled => cases h
  | case6 s t propagated u decided running => rfl

/-- A call that finds a model does not stall. -/
theorem Paused.live_of_some (paused : s.Paused) {v : Valuation} (h : s.next.1 = some v) :
    s.next.2.phase ≠ .stalled := by
  rcases paused.next_cases with ⟨t, -, same⟩ | ⟨t, same, -⟩
  · rw [same] at h ⊢
    simp [settle_some h]
  · rw [same] at h
    cases h

/-- Unless it stalls, a call finds a model exactly if one is left. -/
theorem Paused.next_iff (paused : s.Paused) (live : s.next.2.phase ≠ .stalled) :
    (∃ v, s.next.1 = some v) ↔ ∃ v, v.Models s.clauses s.valuation.size ∧ s.Left v := by
  rcases paused.next_spec (paused.nextReturns_of_live live) with ⟨v, t, result, finds⟩ | ⟨t, result, ending⟩
  · have left := (finds.remaining v finds.model).mpr (.inl rfl)
    exact iff_of_true ⟨v, congrArg Prod.fst result⟩ ⟨v, finds.model, left⟩
  · rw [result]
    refine iff_of_false ?_ ?_
    · rintro ⟨v, ⟨⟩⟩
    · rintro ⟨v, model, left⟩
      exact ending.nothing v model left

end Live

section First

theorem Blank.paused (blank : s.Blank) (fresh : s.phase = .fresh) : s.Paused :=
  ⟨blank.toWellFormed, by simp [fresh], fun _ => blank, by simp [fresh]⟩

/-- A fresh search stays one when its pure literals are assumed. -/
theorem Blank.assumePure (blank : s.Blank) : s.assumePureLiterals.Blank := by
  refine ⟨blank.toWellFormed.relabel rfl, blank.path, blank.decisions, fun l member => ?_⟩
  rcases List.mem_append.mp member with before | isPure
  · exact blank.assumptions l before
  · exact Formula.pureLiterals_below blank.below l isPure

end First

end Search

namespace KnowledgeBase

variable {kb : KnowledgeBase} {outcome : Outcome}

/-- The search that decides satisfiability. -/
def firstSearch (kb : KnowledgeBase) : Search :=
  if kb.config.pureLiterals then kb.search.assumePureLiterals else kb.search

theorem solveBySearch_eq (kb : KnowledgeBase) : kb.solveBySearch =
    match kb.firstSearch.next with
    | (some _, s) => .ok ⟨.satisfiable, s.counters⟩
    | (none, s) =>
      if s.phase = .stalled then .error .endlessDraw else .ok ⟨.unsatisfiable, s.counters⟩ := rfl

theorem blank_firstSearch (below : kb.clauses.Below kb.atomCount) :
    kb.firstSearch.Blank ∧ kb.firstSearch.phase = .fresh := by
  have blank : kb.search.Blank := Search.blank_start kb.config below
  unfold firstSearch
  split
  · exact ⟨blank.assumePure, rfl⟩
  · exact ⟨blank, rfl⟩

/-- Assuming the pure literals leaves a model, if there is one. -/
theorem left_firstSearch (below : kb.clauses.Below kb.atomCount) :
    (∃ v, v.Models kb.firstSearch.clauses kb.firstSearch.valuation.size ∧ kb.firstSearch.Left v) ↔
      ∃ v : Valuation, v.Models kb.clauses kb.atomCount := by
  have clauses : kb.firstSearch.clauses = kb.clauses := by
    unfold firstSearch
    split <;> rfl
  have size : kb.firstSearch.valuation.size = kb.atomCount := by
    unfold firstSearch
    split <;> simp [search, Search.start, Search.assumePureLiterals]
  have assumed : ∀ l ∈ kb.firstSearch.assumptions, l ∈ kb.clauses.pureLiterals := by
    unfold firstSearch
    split <;> simp [search, Search.start, Search.assumePureLiterals]
  rw [clauses, size]
  constructor
  · rintro ⟨v, model, -⟩
    exact ⟨v, model⟩
  · rintro ⟨v, model⟩
    obtain ⟨w, model', assumed'⟩ := Valuation.exists_models_pure below model
    refine ⟨w, model', ?_⟩
    rw [Search.Left, (blank_firstSearch below).2]
    exact fun l member => assumed' l (assumed l member)

theorem solveBySearch_report (below : kb.clauses.Below kb.atomCount)
    (answers : kb.solveBySearch = .ok outcome) :
    outcome.report = .satisfiable ↔ ∃ v : Valuation, v.Models kb.clauses kb.atomCount := by
  obtain ⟨blank, fresh⟩ := blank_firstSearch below
  have paused := blank.paused fresh
  rw [← left_firstSearch below]
  rw [solveBySearch_eq] at answers
  split at answers
  · next v s result =>
    cases answers
    have found : kb.firstSearch.next.1 = some v := congrArg Prod.fst result
    exact iff_of_true rfl ((paused.next_iff (paused.live_of_some found)).mp ⟨v, found⟩)
  · next s result =>
    split at answers
    · cases answers
    · next live =>
      cases answers
      rw [← paused.next_iff (by rw [result]; exact live), result]
      simp

/-- There is a model exactly if some interpretation makes every clause true. -/
theorem exists_models_iff (below : kb.clauses.Below kb.atomCount) :
    (∃ v : Valuation, v.Models kb.clauses kb.atomCount) ↔
      ∃ β : Interpretation, ∀ c ∈ kb.clauses.toList, c.TrueIn β := by
  constructor
  · rintro ⟨v, model⟩
    exact ⟨_, fun c member => Valuation.trueIn_of_satisfies (model.2 c (Array.mem_toList_iff.mp member))⟩
  · rintro ⟨β, holds⟩
    refine ⟨Array.ofFn fun a : Fin kb.atomCount => β a, Array.size_ofFn, fun c member => ?_⟩
    exact (holds c (Array.mem_toList_iff.mpr member)).satisfies (below c member)

theorem solveBySaturation_report (normal : ∀ c ∈ kb.clauses, c.Normal)
    (below : kb.clauses.Below kb.atomCount) (answers : kb.solveBySaturation = .ok outcome) :
    outcome.report = .satisfiable ↔ ∃ v : Valuation, v.Models kb.clauses kb.atomCount := by
  -- whatever the order in which the set of the clauses is gone through
  have verdict : let r := saturate (kb.config.platform.arrange kb.clauses.toList) kb.config.resolutionLimit
      r.1 ≠ .exceeded → (r.1 = .saturated ↔ ∃ v : Valuation, v.Models kb.clauses kb.atomCount) := by
    intro r ended
    rw [exists_models_iff below]
    exact saturated_iff (fun c member => normal c (Array.mem_toList_iff.mp member))
      (kb.config.platform.mem_arrange _) ended
  simp only [solveBySaturation] at answers
  split at answers
  · next saturated =>
    cases answers
    rw [← verdict (by simp [saturated]), saturated]
    exact iff_of_true rfl rfl
  · next refuted =>
    cases answers
    rw [← verdict (by simp [refuted]), refuted]
    simp
  · cases answers

/-- Whatever the procedure, a report says whether there is a model. -/
theorem solve_report (normal : ∀ c ∈ kb.clauses, c.Normal) (below : kb.clauses.Below kb.atomCount)
    (answers : kb.solve = .ok outcome) :
    outcome.report = .satisfiable ↔ ∃ v : Valuation, v.Models kb.clauses kb.atomCount := by
  unfold solve at answers
  split at answers
  · exact solveBySearch_report below answers
  · exact solveBySaturation_report normal below answers

theorem satisfiable_iff (normal : ∀ c ∈ kb.clauses, c.Normal) (below : kb.clauses.Below kb.atomCount)
    {b : Bool} (answers : kb.satisfiable = .ok b) :
    b = true ↔ ∃ v : Valuation, v.Models kb.clauses kb.atomCount := by
  unfold satisfiable at answers
  cases solved : kb.solve with
  | error cause =>
    rw [solved] at answers
    cases answers
  | ok outcome =>
    rw [solved] at answers
    cases answers
    rw [← solve_report normal below solved, beq_iff_eq]

end KnowledgeBase

end Clausal

import Clausal.Proofs.Valuation
import Clausal.Search.Decision

/-!
Decisions: when the draw for a decision returns, it gives a literal on an atom
without a value, or none if every atom has one. Only the choice of a random atom
can fail to return.
-/

namespace Clausal

namespace PartialValuation

theorem mem_unvalued {v : PartialValuation} {a : Atom} : a ∈ v.unvalued ↔ v[a]? = some none := by
  simp only [unvalued, value?, List.mem_filter, List.mem_range]
  constructor
  · rintro ⟨inside, free⟩
    rw [Array.getElem?_eq_getElem inside] at free ⊢
    simpa using free
  · intro free
    exact ⟨(Array.getElem?_eq_some_iff.mp free).1, by simp [free]⟩

end PartialValuation

/-- The number is zero, or no probability. -/
def Binary64.Never (x : Binary64) : Prop := (x == .zero) = true ∨ x.isProbability = false

theorem Binary64.never_zero : Binary64.zero.Never := .inl (by decide +kernel)

theorem Probability.impossible_of_never {x : Binary64} (never : x.Never) : (ofBinary64 x).Impossible := by
  unfold ofBinary64
  split
  · next proper => exact never.resolve_right (by simp [proper])
  · exact Binary64.never_zero.resolve_right (by decide +kernel)

namespace Search

/-- A search decides no atom at random if its configuration says so. -/
theorem unbiased_start {clauses : Formula} {atoms : Nat} {config : Config}
    (never : config.randomDecisionBias.Never) : (start clauses atoms config).bias.Impossible :=
  Probability.impossible_of_never never

/-- Whether the draw for a decision returns. -/
def DrawReturns (s : Search) : Prop := (s.drawDecision.run s.source).isSome = true

private theorem polarity_spec {s : Search} {atom : Option Atom} {r : Option Literal} {g g' : Pcg}
    (h : StateT.run (match atom with
      | none => pure none
      | some a => do return some ⟨a, ← s.sampler.event s.lean⟩ : Draw (Option Literal)) g = some (r, g')) :
    atom = r.map Literal.atom := by
  cases atom with
  | none =>
    simp only [StateT.run_pure, Option.pure_def, Option.some.injEq, Prod.mk.injEq] at h
    rw [← h.1]
    rfl
  | some a =>
    simp only [StateT.run_bind, Option.bind_eq_bind, Option.bind_eq_some_iff, StateT.run_pure,
      Option.pure_def, Option.some.injEq, Prod.mk.injEq] at h
    obtain ⟨⟨p, between⟩, -, rfl, -⟩ := h
    rfl

private theorem drawDecision_spec {s : Search} {r : Option Literal} {g g' : Pcg}
    (h : s.drawDecision.run g = some (r, g')) :
    (∃ l, r = some l ∧ l.atom ∈ s.valuation.unvalued) ∨ s.valuation.unvalued = [] ∧ r = none := by
  simp only [drawDecision, StateT.run_bind, Option.bind_eq_bind, Option.bind_eq_some_iff] at h
  obtain ⟨⟨random, g₁⟩, -, rest⟩ := h
  have chosen : (∃ a ∈ s.valuation.unvalued, r.map Literal.atom = some a) ∨
      s.valuation.unvalued = [] ∧ r.map Literal.atom = none := by
    cases random with
    | true =>
      simp only [↓reduceIte, StateT.run_bind, Option.bind_eq_bind, Option.bind_eq_some_iff] at rest
      obtain ⟨⟨atom, g₂⟩, drawn, polarity⟩ := rest
      rw [← polarity_spec polarity]
      exact s.sampler.choose_mem _ _ _ _ drawn
    | false =>
      simp only [Bool.false_eq_true, ↓reduceIte, pure_bind] at rest
      rw [← polarity_spec rest]
      cases s.valuation.unvalued with
      | nil => exact .inr ⟨rfl, rfl⟩
      | cons a rest => exact .inl ⟨a, List.mem_cons_self, rfl⟩
  rcases chosen with ⟨a, member, same⟩ | ⟨empty, same⟩
  · obtain ⟨l, rfl, rfl⟩ := Option.map_eq_some_iff.mp same
    exact .inl ⟨l, rfl, member⟩
  · exact .inr ⟨empty, Option.map_eq_none_iff.mp same⟩

/-- A decision is on an atom without a value, and changes nothing but the random source. -/
theorem decide_some {s t : Search} {l : Literal} (h : s.decide = (some l, t)) :
    s.valuation[l.atom]? = some none ∧ t = { s with source := t.source } := by
  unfold decide at h
  split at h
  · next drawn =>
    cases h
    rcases drawDecision_spec drawn with ⟨m, same, member⟩ | ⟨-, same⟩
    · cases same
      exact ⟨PartialValuation.mem_unvalued.mp member, rfl⟩
    · cases same
  · cases h

/-- There is nothing to decide exactly if every atom has a value. -/
theorem decide_none {s t : Search} (returns : s.DrawReturns) (h : s.decide = (none, t)) :
    (∀ a : Atom, s.valuation[a]? ≠ some none) ∧ t = { s with source := t.source } := by
  unfold decide at h
  split at h
  · next drawn =>
    cases h
    rcases drawDecision_spec drawn with ⟨m, same, -⟩ | ⟨empty, -⟩
    · cases same
    · refine ⟨fun a free => ?_, rfl⟩
      have member := PartialValuation.mem_unvalued.mpr free
      simp [empty] at member
  · next never => simp [DrawReturns, never] at returns

/-- A draw that does not return stalls the search. -/
theorem drawReturns_of_decide {s : Search} (live : s.decide.2.phase ≠ .stalled) : s.DrawReturns := by
  cases drawn : s.drawDecision.run s.source with
  | some result => simp [DrawReturns, drawn]
  | none =>
    rw [decide, drawn] at live
    exact absurd rfl live

theorem decide_frame {s : Search} (returns : s.DrawReturns) :
    s.decide.2 = { s with source := s.decide.2.source } := by
  cases result : s.decide with
  | mk r t =>
    cases r with
    | none => exact (decide_none returns result).2
    | some l => exact (decide_some result).2

/-- When an atom is drawn, so is its polarity. -/
theorem polarity_returns (s : Search) (atom : Option Atom) (g : Pcg) :
    (StateT.run (match atom with
      | none => pure none
      | some a => do return some ⟨a, ← s.sampler.event s.lean⟩ : Draw (Option Literal)) g).isSome = true := by
  cases atom with
  | none => rfl
  | some a =>
    obtain ⟨p, g', polarity⟩ := s.sampler.event_returns s.lean g
    simp [polarity]

/-- If no atom is decided at random, the draw for a decision returns. -/
theorem drawReturns_of_unbiased {s : Search} (unbiased : s.bias.Impossible) : s.DrawReturns := by
  obtain ⟨g, least⟩ := s.sampler.event_eq_false unbiased s.source
  simp only [DrawReturns, drawDecision, StateT.run_bind, least, Option.bind_eq_bind,
    Option.bind_some, Bool.false_eq_true, ↓reduceIte, pure_bind]
  exact s.polarity_returns _ _

end Search

end Clausal

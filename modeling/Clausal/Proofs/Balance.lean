import Clausal.Proofs.Calls

/-!
What the counters of a search say. The search walks a full binary tree: it goes into both sides of every
decision, and each side ends with a model, with a conflict or with one decision more. So once the root is
valued there is one model or conflict more than there are decisions, sides that are still ahead included.
Main statement: `counters_balance`.
-/

namespace Clausal.Search

variable {s t : Search} {calls : List Call} {found : Nat}

/-- How many decisions have their other side still ahead. -/
def ahead (s : Search) : Nat := s.decisions.countP (!·.flipped)

section Steps

theorem counters_assign (s : Search) (l : Literal) : (s.assign l).counters = s.counters := by
  unfold assign
  split <;> rfl

/-- The second search has the same decisions, and has counted nothing since but literals found by propagation. -/
structure SameTally (s t : Search) : Prop where
  decisions : t.decisions = s.decisions
  counters : t.counters = { s.counters with propagations := t.counters.propagations }

theorem SameTally.refl (s : Search) : s.SameTally s := ⟨rfl, rfl⟩

theorem sameTally_propagate (s : Search) : s.SameTally s.propagate.2 := by
  refine propagate_induction (P := s.SameTally) (fun t n same => ⟨same.decisions, same.counters⟩)
    (fun t l same => ⟨?_, ?_⟩) s (.refl s)
  · rw [deduce, decisions_assign]
    exact same.decisions
  · rw [deduce, counters_assign]
    dsimp only
    rw [same.counters]

theorem sameTally_decide (s : Search) : s.SameTally s.decide.2 := by
  unfold decide
  split
  · exact ⟨rfl, rfl⟩
  · exact ⟨rfl, rfl⟩

theorem SameTally.ahead (same : s.SameTally t) : t.ahead = s.ahead := by
  rw [Search.ahead, Search.ahead, same.decisions]

/-- A flip uses up one side ahead; with none ahead there is no flip. -/
theorem backtrackOver_tally {decisions : List Decision} {b : Bool} (h : s.backtrackOver decisions = (b, t)) :
    t.counters = s.counters ∧ t.ahead + b.toNat = decisions.countP (!·.flipped) ∧ (b = false → t.ahead = 0) := by
  induction decisions generalizing s with
  | nil =>
    cases h
    exact ⟨rfl, rfl, fun _ => rfl⟩
  | cons d earlier ih =>
    unfold backtrackOver at h
    by_cases flipped : d.flipped = true
    · rw [if_pos flipped] at h
      obtain ⟨counters, sides, none⟩ := ih h
      exact ⟨counters, by simpa [flipped] using sides, none⟩
    · rw [if_neg flipped] at h
      cases h
      refine ⟨counters_assign _ _, ?_, by simp⟩
      simp [ahead, flipped]

end Steps

section Loop

/-- In the loop of a call: each decision made has brought one model or conflict, or has a side ahead. -/
structure Walks (found : Nat) (s : Search) : Prop where
  models : s.counters.models = found
  balance : s.counters.decisions = s.counters.models + s.counters.conflicts + s.ahead

theorem Walks.sameTally (walks : s.Walks found) (same : s.SameTally t) : t.Walks found := by
  refine ⟨?_, ?_⟩
  · rw [same.counters]
    exact walks.models
  · rw [same.counters, same.ahead]
    exact walks.balance

theorem Walks.propagate {r : Option Nat} (walks : s.Walks found) (h : s.propagate = (r, t)) : t.Walks found := by
  have same := sameTally_propagate s
  rw [h] at same
  exact walks.sameTally same

theorem Walks.decide {r : Option Literal} (walks : s.Walks found) (h : s.decide = (r, t)) : t.Walks found := by
  have same := sameTally_decide s
  rw [h] at same
  exact walks.sameTally same

/-- Step lemma of the loop: a decision opens one side more, and a conflict closes one. -/
theorem Walks.iteration (walks : s.Walks found) (step : Iteration s t) : t.Walks found := by
  cases step with
  | @flip u _ _ conflict flipped =>
    obtain ⟨models, balance⟩ := walks.propagate conflict
    obtain ⟨counters, sides, -⟩ := backtrackOver_tally flipped
    have sides' : t.ahead + 1 = u.ahead := sides
    rw [countConflict] at counters
    refine ⟨by rw [counters]; exact models, ?_⟩
    rw [counters]
    dsimp only
    omega
  | @branch u w l propagated decided =>
    obtain ⟨models, balance⟩ := (walks.propagate propagated).decide decided
    have sides : (w.branch l).ahead = w.ahead + 1 := by
      rw [ahead, branch, decisions_assign, List.countP_cons_of_pos rfl]
      rfl
    refine ⟨by rw [branch, counters_assign]; exact models, ?_⟩
    rw [sides, branch, counters_assign]
    dsimp only
    omega

/-- Run lemma of the loop. -/
theorem Walks.iterations (walks : s.Walks found) (steps : Iterations s t) : t.Walks found := by
  induction steps with
  | refl => exact walks
  | tail _ step ih => exact ih.iteration step

end Loop

section Calls

/-- Between calls, once the root was valued: the decisions made have brought as many models and conflicts, and
one more; a search that is over has no side ahead. -/
structure Poised (found : Nat) (s : Search) : Prop where
  late : s.phase ≠ .fresh
  models : s.counters.models = found
  balance : s.counters.decisions + 1 = s.counters.models + s.counters.conflicts + s.ahead
  spent : s.phase = .exhausted → s.ahead = 0

/-- Nothing was counted but literals found by propagation. -/
def Uncounted (s : Search) : Prop := s.counters = { propagations := s.counters.propagations }

/-- Between calls, if valuing the root failed. -/
structure Barren (found : Nat) (s : Search) : Prop where
  ended : s.phase = .exhausted
  uncounted : s.Uncounted
  nothing : found = 0

theorem Poised.sameTally (poised : s.Poised found) (same : s.SameTally t) (phase : t.phase = s.phase) :
    t.Poised found := by
  refine ⟨phase ▸ poised.late, ?_, ?_, ?_⟩
  · rw [same.counters]
    exact poised.models
  · rw [same.counters, same.ahead]
    exact poised.balance
  · rw [phase, same.ahead]
    exact poised.spent

theorem SameTally.uncounted (same : s.SameTally t) (uncounted : s.Uncounted) : t.Uncounted := by
  rw [Uncounted, same.counters, uncounted]

theorem Barren.sameTally (barren : s.Barren found) (same : s.SameTally t) (phase : t.phase = s.phase) :
    t.Barren found :=
  ⟨phase.trans barren.ended, same.uncounted barren.uncounted, barren.nothing⟩

/-- A search that is over has gone into every side. -/
theorem poised_exhaust (models : s.counters.models = found)
    (balance : s.counters.decisions + 1 = s.counters.models + s.counters.conflicts) (spent : s.ahead = 0) :
    s.exhaust.2.Poised found := by
  refine ⟨by simp [exhaust], models, ?_, fun _ => spent⟩
  change s.counters.decisions + 1 = s.counters.models + s.counters.conflicts + s.ahead
  rw [spent]
  exact balance

/-- The last iteration closes one side more, by a model or by the last conflict. -/
theorem Walks.finishes {r : Option Valuation × Search} (walks : s.Walks found) (h : s.Finishes r) :
    r.2.Poised (found + r.1.isSome.toNat) := by
  cases h with
  | @exhausted t u i conflict ending =>
    obtain ⟨models, balance⟩ := walks.propagate conflict
    obtain ⟨counters, sides, none⟩ := backtrackOver_tally ending
    have closed : t.ahead = 0 := (none rfl ▸ sides).symm
    rw [countConflict] at counters
    refine poised_exhaust ?_ ?_ (none rfl)
    · rw [counters]
      exact models
    · rw [counters]
      dsimp only
      omega
  | @model t u propagated decided =>
    obtain ⟨models, balance⟩ := (walks.propagate propagated).decide decided
    refine ⟨by simp [yield], congrArg (· + 1) models, ?_, by simp [yield]⟩
    change u.counters.decisions + 1 = u.counters.models + 1 + u.counters.conflicts + u.ahead
    omega

/-- A call that comes to the loop with a balance ends with one. -/
theorem Paused.next_poised (paused : s.Paused) (returns : s.NextReturns) (enters : s.Enters t)
    (walks : t.Walks found) : s.next.2.Poised (found + s.next.1.isSome.toNat) := by
  obtain ⟨w, steps, finishes⟩ := paused.loop_finishes returns enters
  rw [enters.next_eq]
  exact (walks.iterations steps).finishes finishes

/-- So does every later call for the next model. -/
theorem Poised.next (poised : s.Poised found) (paused : s.Paused) (returns : s.NextReturns) :
    s.next.2.Poised (found + s.next.1.isSome.toNat) := by
  cases phase : s.phase with
  | fresh => exact absurd phase poised.late
  | stalled => exact absurd phase paused.live
  | exhausted =>
    have idle : s.next = (none, s) := by simp only [Search.next, phase]
    rw [idle]
    exact poised
  | model =>
    rcases turned : s.backtrack with ⟨b, t⟩
    obtain ⟨counters, sides, none⟩ := backtrackOver_tally turned
    obtain ⟨-, models, balance, -⟩ := poised
    cases b with
    | true =>
      have sides' : t.ahead + 1 = s.ahead := sides
      refine paused.next_poised returns (.resume phase turned) ⟨?_, ?_⟩
      · rw [counters]
        exact models
      · rw [counters]
        omega
    | false =>
      have closed : s.ahead = 0 := (none rfl ▸ sides).symm
      have ended : s.next = t.exhaust := by simp only [Search.next, phase, turned]
      rw [ended]
      refine poised_exhaust ?_ ?_ (none rfl)
      · rw [counters]
        exact models
      · rw [counters]
        omega

theorem Barren.next (barren : s.Barren found) : s.next.2.Barren (found + s.next.1.isSome.toNat) := by
  have idle : s.next = (none, s) := by simp only [Search.next, barren.ended]
  rw [idle]
  exact barren

/-- A call that fails to value the root counts nothing. -/
theorem Paused.next_barren (paused : s.Paused) (fresh : s.phase = .fresh) (uncounted : s.Uncounted)
    (failed : s.valueRoot.1 = false) : s.next.2.Barren (0 + s.next.1.isSome.toNat) := by
  rcases valued : s.valueRoot with ⟨b, t⟩
  obtain rfl : b = false := by rwa [valued] at failed
  obtain ⟨roots, -⟩ := valueRoot_spec (paused.fresh fresh) valued
  have ended : s.next = t.exhaust := by simp only [Search.next, fresh, valued]
  have counters : t.counters = s.counters := by rw [roots.frame]
  rw [ended]
  refine ⟨rfl, ?_, rfl⟩
  change t.counters = { propagations := t.counters.propagations }
  rwa [counters]

/-- From a valued root the loop starts with a balance. -/
theorem Paused.walks_root (paused : s.Paused) (fresh : s.phase = .fresh) (uncounted : s.Uncounted)
    (valued : s.valueRoot = (true, t)) : t.Walks 0 := by
  have blank := paused.fresh fresh
  obtain ⟨roots, -⟩ := valueRoot_spec blank valued
  obtain ⟨-, decisions, -⟩ := roots.wellFormed blank
  have counters : t.counters = s.counters := by rw [roots.frame]
  rw [Uncounted] at uncounted
  refine ⟨?_, ?_⟩
  · rw [counters, uncounted]
  · rw [counters, uncounted, ahead, decisions]
    rfl

end Calls

section Runs

variable {c : Call}

/-- How many of some calls give a model. -/
def given (s : Search) (calls : List Call) : Nat := (s.answers calls).countP Option.isSome

theorem given_next (s : Search) (calls : List Call) :
    s.given (.next :: calls) = s.next.1.isSome.toNat + s.next.2.given calls := by
  rw [given, answers, List.countP_cons, Nat.add_comm]
  cases s.next.1 with
  | none => rfl
  | some v => rfl

/-- Every call but the one for the next model leaves the search where it is. -/
theorem Paused.call_stays (paused : s.Paused) (other : c ≠ .next) (returns : s.Returns (c :: calls)) :
    (s.call c).Paused ∧ (s.call c).Returns calls ∧ (s.call c).phase = s.phase ∧ s.SameTally (s.call c) := by
  cases c with
  | next => exact absurd rfl other
  | propagate => exact ⟨paused.propagate.1, returns, phase_propagate s, sameTally_propagate s⟩
  | decide =>
    have phase : s.decide.2.phase = s.phase := by rw [decide_frame returns.1]
    exact ⟨paused.decide returns.1, returns.2, phase, sameTally_decide s⟩
  | assumePure => exact ⟨paused.assumePure, returns, rfl, ⟨rfl, rfl⟩⟩

/-- Up to the first call for the next model a search stays fresh. -/
theorem Paused.phase_of_unasked (paused : s.Paused) (returns : s.Returns calls) (unasked : .next ∉ calls) :
    (s.after calls).phase = s.phase := by
  induction calls generalizing s with
  | nil => rfl
  | cons c calls ih =>
    obtain ⟨other, unasked'⟩ := List.ne_and_not_mem_of_not_mem_cons unasked
    obtain ⟨paused', returns', phase, -⟩ := paused.call_stays (Ne.symm other) returns
    exact (ih paused' returns' unasked').trans phase

/-- Run lemma: what holds of a search and of a number of models found, and is kept by every call, holds after
some calls. -/
theorem Paused.after_induction {P : Nat → Search → Prop}
    (next : ∀ {n s}, s.Paused → s.NextReturns → P n s → P (n + s.next.1.isSome.toNat) s.next.2)
    (stays : ∀ {n s t}, s.SameTally t → t.phase = s.phase → P n s → P n t)
    (paused : s.Paused) (returns : s.Returns calls) (holds : P found s) :
    (s.after calls).Paused ∧ P (found + s.given calls) (s.after calls) := by
  induction calls generalizing s found with
  | nil => exact ⟨paused, holds⟩
  | cons c calls ih =>
    by_cases isNext : c = .next
    · subst isNext
      rw [given_next, ← Nat.add_assoc]
      exact ih (paused.next returns.1).1 returns.2 (next paused returns.1 holds)
    · obtain ⟨paused', returns', phase, same⟩ := paused.call_stays isNext returns
      rw [given, answers_cons isNext]
      exact ih paused' returns' (stays same phase holds)

/-- What the counters say once a root was valued, or could not be. -/
def Accounted (root : Search) (found : Nat) (s : Search) : Prop :=
  (root.valueRoot.1 = false → s.Barren found) ∧ (root.valueRoot.1 = true → s.Poised found)

theorem Accounted.models {root : Search} (accounted : root.Accounted found s) : s.counters.models = found := by
  cases valued : root.valueRoot.1 with
  | true => exact (accounted.2 valued).models
  | false =>
    obtain ⟨-, uncounted, rfl⟩ := accounted.1 valued
    exact congrArg Counters.models uncounted

theorem Accounted.next {root : Search} (accounted : root.Accounted found s) (paused : s.Paused)
    (returns : s.NextReturns) : root.Accounted (found + s.next.1.isSome.toNat) s.next.2 :=
  ⟨fun failed => (accounted.1 failed).next, fun valued => (accounted.2 valued).next paused returns⟩

/-- The first call for the next model values the root. -/
theorem Paused.accounted (paused : s.Paused) (fresh : s.phase = .fresh) (uncounted : s.Uncounted)
    (returns : s.NextReturns) : s.Accounted s.next.1.isSome.toNat s.next.2 := by
  rw [← Nat.zero_add s.next.1.isSome.toNat]
  refine ⟨paused.next_barren fresh uncounted, fun valued => ?_⟩
  have enters : s.Enters s.valueRoot.2 := .root fresh (Prod.ext valued rfl)
  exact paused.next_poised returns enters (paused.walks_root fresh uncounted (Prod.ext valued rfl))

/-- By induction on the calls: up to the first one for the next model nothing is counted. -/
theorem Paused.after_counts (paused : s.Paused) (fresh : s.phase = .fresh) (uncounted : s.Uncounted)
    (returns : s.Returns calls) :
    (s.after calls).Paused ∧
      (.next ∉ calls → (s.after calls).Uncounted ∧ s.given calls = 0) ∧
      (.next ∈ calls → (s.after (calls.takeWhile (· ≠ .next))).Accounted (s.given calls) (s.after calls)) := by
  induction calls generalizing s with
  | nil => exact ⟨paused, fun _ => ⟨uncounted, rfl⟩, by simp⟩
  | cons c calls ih =>
    by_cases isNext : c = .next
    · subst isNext
      rw [given_next]
      obtain ⟨last, counts⟩ := (paused.next returns.1).1.after_induction (P := s.Accounted)
        (fun paused returns accounted => accounted.next paused returns)
        (fun same phase accounted => ⟨fun failed => (accounted.1 failed).sameTally same phase,
          fun valued => (accounted.2 valued).sameTally same phase⟩)
        returns.2 (paused.accounted fresh uncounted returns.1)
      exact ⟨last, by simp, fun _ => counts⟩
    · obtain ⟨paused', returns', phase, same⟩ := paused.call_stays isNext returns
      obtain ⟨last, uncalled, counts⟩ := ih paused' (phase.trans fresh) (same.uncounted uncounted) returns'
      have listed : .next ∈ c :: calls ↔ .next ∈ calls := by simp [Ne.symm isNext]
      rw [given, answers_cons isNext, listed, List.takeWhile_cons_of_pos (by simpa using isNext)]
      exact ⟨last, uncalled, counts⟩

/-- Over any calls of a fresh search of which every draw returns, as many models were counted as were given.
If the root could not be valued at the first call for the next model, the search is over and nothing else was
counted. If it could, then after each call there is one model or conflict more than decisions, the decisions
not flipped yet included, and at the end these are none. -/
theorem counters_balance {clauses : Formula} {atoms : Nat} (config : Config) (below : clauses.Below atoms)
    {calls : List Call} (returns : (start clauses atoms config).Returns calls) :
    let first := start clauses atoms config
    let s := first.after calls
    s.phase ≠ .stalled ∧ s.counters.models = (first.answers calls).countP Option.isSome ∧
      (.next ∈ calls →
        let root := first.after (calls.takeWhile (· ≠ .next))
        (root.valueRoot.1 = false → s.phase = .exhausted ∧ s.counters.decisions = 0 ∧ s.counters.conflicts = 0 ∧
          s.counters.models = 0) ∧
        (root.valueRoot.1 = true →
          s.counters.decisions + 1 =
              s.counters.models + s.counters.conflicts + s.decisions.countP (!·.flipped) ∧
            (s.phase = .exhausted → s.counters.decisions + 1 = s.counters.models + s.counters.conflicts))) := by
  intro first s
  have paused : first.Paused := (blank_start config below).paused rfl
  obtain ⟨last, uncalled, counts⟩ := paused.after_counts rfl rfl returns
  refine ⟨last.live, ?_, fun asked => ⟨fun failed => ?_, fun valued => ?_⟩⟩
  · by_cases asked : .next ∈ calls
    · exact (counts asked).models
    · obtain ⟨uncounted, none⟩ := uncalled asked
      have models : s.counters.models = 0 := congrArg Counters.models uncounted
      rw [models]
      exact none.symm
  · obtain ⟨ended, uncounted, -⟩ := (counts asked).1 failed
    exact ⟨ended, congrArg Counters.decisions uncounted, congrArg Counters.conflicts uncounted,
      congrArg Counters.models uncounted⟩
  · obtain ⟨-, -, balance, spent⟩ := (counts asked).2 valued
    refine ⟨balance, fun ended => ?_⟩
    rw [spent ended] at balance
    exact balance

/-- Three clauses over three atoms, with a decision and a propagation between the calls: the root is valued, and
every call keeps the balance. Of two contradictory units it is not, and nothing is counted. -/
theorem counters_balance_units :
    let clauses : Formula := #[[⟨0, true⟩, ⟨1, true⟩], [⟨0, true⟩, ⟨1, false⟩], [⟨0, false⟩, ⟨2, true⟩]]
    let calls := [.decide, .next, .propagate, .next, .next]
    let s := (start clauses 3 {}).after calls
    let contradictory : Formula := #[[⟨0, true⟩], [⟨0, false⟩]]
    let calls' := [.assumePure, .next, .propagate]
    let t := (start contradictory 1 {}).after calls'
    s.counters.models = ((start clauses 3 {}).answers calls).countP Option.isSome ∧
      s.counters.decisions + 1 = s.counters.models + s.counters.conflicts + s.decisions.countP (!·.flipped) ∧
      t.phase = .exhausted ∧ t.counters.decisions = 0 ∧ t.counters.conflicts = 0 ∧ t.counters.models = 0 := by
  intro clauses calls s contradictory calls' t
  have below : clauses.Below 3 := by
    rw [Formula.Below]
    decide
  have below' : contradictory.Below 1 := by
    rw [Formula.Below]
    decide
  have unbiased : ∀ clauses atoms, (start clauses atoms {}).bias.Impossible :=
    fun clauses atoms => unbiased_start Binary64.never_zero
  have paused : (start clauses 3 {}).Paused := (blank_start {} below).paused rfl
  have paused' : (start contradictory 1 {}).Paused := (blank_start {} below').paused rfl
  have root : ((start clauses 3 {}).after (calls.takeWhile (· ≠ .next))).valueRoot.1 = true := by decide +kernel
  have root' : ((start contradictory 1 {}).after (calls'.takeWhile (· ≠ .next))).valueRoot.1 = false := by
    decide +kernel
  obtain ⟨-, models, counts⟩ := counters_balance {} below (paused.returns (unbiased _ _) calls)
  obtain ⟨-, -, counts'⟩ := counters_balance {} below' (paused'.returns (unbiased _ _) calls')
  obtain ⟨balance, -⟩ := (counts (by decide)).2 root
  exact ⟨models, balance, (counts' (by decide)).1 root'⟩

end Runs

end Clausal.Search

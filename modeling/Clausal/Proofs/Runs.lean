import Clausal.Proofs.Enumeration

/-!
Runs of a search: calls for the next model, with propagations, decisions and
assumptions asked for in between in any order. Main statement:
`enumeration_exact`, that over a run from a fresh search each model is found once,
and all are found before the search says that none is left.
-/

namespace Clausal.Search

/-- The searches that calls lead to from a first one, with the answers so far of the calls for the
next model. Every draw returns. Pure literals are assumed only after the first of these calls, when
it has no effect any more. -/
inductive Run (first : Search) : List (Option Valuation) → Search → Prop where
  | start : Run first [] first
  | next {answers : List (Option Valuation)} {s : Search} (run : Run first answers s)
      (returns : s.NextReturns) : Run first (answers ++ [s.next.1]) s.next.2
  | propagate {answers : List (Option Valuation)} {s : Search} (run : Run first answers s) :
      Run first answers s.propagate.2
  | decide {answers : List (Option Valuation)} {s : Search} (run : Run first answers s)
      (returns : s.DrawReturns) : Run first answers s.decide.2
  | assumePure {answers : List (Option Valuation)} {s : Search} (run : Run first answers s)
      (late : s.phase ≠ .fresh) : Run first answers s.assumePureLiterals

/-- The models that a search from a fresh one looks for: those that make the assumptions true. -/
def Target (first : Search) (v : Valuation) : Prop :=
  v.Models first.clauses first.valuation.size ∧ ∀ l ∈ first.assumptions, v.holds l = true

/-- The account of a run: the models found so far, each once, and nothing more after the last one;
what is looked for is found already or still left. -/
structure Account (first : Search) (answers : List (Option Valuation)) (s : Search) : Prop where
  paused : s.Paused
  task : first.SameTask s
  tally : ∃ (found : List Valuation) (n : Nat),
    answers = found.map some ++ List.replicate n none ∧ (n ≠ 0 → s.phase = .exhausted) ∧
      found.Nodup ∧ (∀ v ∈ found, first.Target v ∧ ¬ s.Left v) ∧
      ∀ v, v.Models first.clauses first.valuation.size →
        (first.Target v ↔ v ∈ found ∨ s.Left v)

variable {first s t : Search} {answers : List (Option Valuation)}

theorem Account.next (account : Account first answers s) (returns : s.NextReturns) :
    Account first (answers ++ [s.next.1]) s.next.2 := by
  obtain ⟨paused, task, found, n, rfl, ended, distinct, taken, target⟩ := account
  rcases paused.next_spec returns with ⟨v, t, result, finds⟩ | ⟨t, result, ending⟩
  · rw [result]
    have model := finds.model
    have remaining := finds.remaining
    rw [task.clauses, task.size] at model remaining
    have left : s.Left v := (remaining v model).mpr (.inl rfl)
    have running : n = 0 := by
      by_contra failed
      rw [Left, ended failed] at left
      exact left
    refine ⟨finds.paused, task.trans finds.task, found ++ [v], 0, by simp [running], by simp, ?_, ?_,
      ?_⟩
    · rw [List.nodup_append]
      refine ⟨distinct, by simp, fun w member x last => ?_⟩
      rw [List.mem_singleton.mp last]
      exact fun same => (taken w member).2 (same ▸ left)
    · intro w member
      rcases List.mem_append.mp member with before | last
      · refine ⟨(taken w before).1, fun later => (taken w before).2 ?_⟩
        exact (remaining w (taken w before).1.1).mpr (.inr later)
      · rw [List.mem_singleton.mp last]
        exact ⟨(target v model).mpr (.inr left), finds.gone⟩
    · intro w total
      rw [target w total, remaining w total]
      simp [or_assoc]
  · rw [result]
    have nothing := ending.nothing
    rw [task.clauses, task.size] at nothing
    refine ⟨ending.paused, task.trans ending.task, found, n + 1, ?_, fun _ => ending.phase, distinct, ?_, ?_⟩
    · rw [List.append_assoc, List.replicate_succ']
    · exact fun w member => ⟨(taken w member).1, by simp [Left, ending.phase]⟩
    · intro w total
      rw [target w total]
      have gone : ¬ t.Left w := by simp [Left, ending.phase]
      exact or_congr_right (iff_of_false (nothing w total) gone)

/-- Propagation between calls has nothing left to do, unless the search is over. -/
theorem Paused.propagate (paused : s.Paused) :
    s.propagate.2.Paused ∧ s.SameTask s.propagate.2 ∧ s.propagate.2.phase = s.phase ∧
      ∀ v, s.propagate.2.Left v ↔ s.Left v := by
  have idle : s.head = s.path.length → s.propagate = (none, s) := by
    intro finished
    have done : s.trail[s.head]? = none := by
      rw [finished]
      simp
    unfold Search.propagate
    split
    · rfl
    · next pending => rw [done] at pending; cases pending
  cases phase : s.phase with
  | fresh =>
    have blank := paused.fresh phase
    have bound := blank.propagated
    rw [blank.path] at bound
    rw [idle (by rw [blank.path]; exact Nat.le_zero.mp bound)]
    exact ⟨paused, .refl s, phase, fun _ => Iff.rfl⟩
  | model =>
    rw [idle (paused.model phase).1]
    exact ⟨paused, .refl s, phase, fun _ => Iff.rfl⟩
  | stalled => exact absurd phase paused.live
  | exhausted =>
    have formed : s.propagate.2.WellFormed ∧ s.Deduces s.propagate.2 := by
      cases result : s.propagate with
      | mk r t =>
        cases r with
        | none =>
          obtain ⟨formed, deduces, -⟩ := propagate_none paused.toWellFormed result
          exact ⟨formed, deduces⟩
        | some i =>
          obtain ⟨formed, deduces, -⟩ := propagate_some paused.toWellFormed result
          exact ⟨formed, deduces⟩
    have kept : s.propagate.2.phase = .exhausted := formed.2.moves.phase.trans phase
    exact ⟨⟨formed.1, by simp [kept], by simp [kept], by simp [kept]⟩,
      formed.2.moves.task, kept, fun v => by simp [Left, kept, phase]⟩

theorem Account.propagate (account : Account first answers s) :
    Account first answers s.propagate.2 := by
  obtain ⟨paused, task, found, n, rfl, ended, distinct, taken, target⟩ := account
  obtain ⟨paused', task', phase, left⟩ := paused.propagate
  refine ⟨paused', task.trans task', found, n, rfl, ?_, distinct, ?_, ?_⟩
  · exact fun failed => phase.trans (ended failed)
  · exact fun v member => ⟨(taken v member).1, fun later => (taken v member).2 ((left v).mp later)⟩
  · exact fun v model => (target v model).trans (or_congr_right (left v).symm)

/-- Drawing a decision changes nothing but the random source. -/
theorem Paused.decide (paused : s.Paused) (returns : s.DrawReturns) : s.decide.2.Paused := by
  rw [decide_frame returns]
  refine ⟨paused.toWellFormed.relabel rfl, paused.live, fun fresh => ?_, paused.model⟩
  have blank := paused.fresh fresh
  exact ⟨blank.toWellFormed.relabel rfl, blank.path, blank.decisions, blank.assumptions⟩

theorem Account.decide (account : Account first answers s) (returns : s.DrawReturns) :
    Account first answers s.decide.2 := by
  obtain ⟨paused, task, tally⟩ := account
  have paused' := paused.decide returns
  rw [decide_frame returns] at paused' ⊢
  exact ⟨paused', task.relabel rfl, tally⟩

/-- After the first call assumptions have no effect. -/
theorem left_assumePure (late : s.phase ≠ .fresh) (v : Valuation) : s.assumePureLiterals.Left v ↔ s.Left v := by
  have same : s.assumePureLiterals.phase = s.phase := rfl
  rw [Left, Left, same]
  split
  · next fresh => exact absurd fresh late
  · rfl
  · rfl
  · rfl

theorem Account.assumePure (account : Account first answers s) (late : s.phase ≠ .fresh) :
    Account first answers s.assumePureLiterals := by
  obtain ⟨paused, task, found, n, rfl, ended, distinct, taken, target⟩ := account
  have left := left_assumePure late
  refine ⟨⟨paused.toWellFormed.relabel rfl, paused.live, fun fresh => absurd fresh late,
    paused.model⟩, task.relabel rfl, found, n, rfl, ended, distinct, ?_, ?_⟩
  · exact fun v member => ⟨(taken v member).1, fun later => (taken v member).2 ((left v).mp later)⟩
  · exact fun v model => (target v model).trans (or_congr_right (left v).symm)

/-- Run lemma: every run keeps the account, from a search before its first step on. -/
theorem Run.account (run : Run first answers s) (blank : first.Blank) (fresh : first.phase = .fresh) :
    Account first answers s := by
  induction run with
  | start =>
    refine ⟨⟨blank.toWellFormed, by simp [fresh], fun _ => blank, by simp [fresh]⟩, .refl first, [], 0, rfl,
      by simp, by simp, by simp, ?_⟩
    intro v model
    simp [Target, Left, fresh, model]
  | next _ returns ih => exact ih.next returns
  | propagate _ ih => exact ih.propagate
  | decide _ returns ih => exact ih.decide returns
  | assumePure _ late ih => exact ih.assumePure late

/-- If no atom is decided at random, every call returns. -/
theorem Paused.nextReturns (paused : s.Paused) (unbiased : s.bias.Impossible) : s.NextReturns := by
  rintro t ⟨u, enters, steps⟩ w propagated
  obtain ⟨ready, entered, -⟩ := paused.enters enters
  obtain ⟨ready', continues⟩ := ready.iterations steps
  obtain ⟨-, deduces, -⟩ := ready'.propagate_none propagated
  have task := entered.trans (continues.moves.task.trans deduces.moves.task)
  exact drawReturns_of_unbiased (task.bias ▸ unbiased)

theorem Account.nextReturns (account : Account first answers s) (unbiased : first.bias.Impossible) :
    s.NextReturns :=
  account.paused.nextReturns (account.task.bias ▸ unbiased)

/-- The answers before the first failure to find a model are all the models found. -/
private theorem split_tally {found : List Valuation} {n : Nat} {before after : List (Option Valuation)}
    (split : found.map some ++ List.replicate n none = before ++ none :: after) :
    n ≠ 0 ∧ (∀ v ∈ found, some v ∈ before) ∧ ∀ a ∈ after, a = none := by
  rcases List.append_eq_append_iff.mp split with ⟨more, rfl, tail⟩ | ⟨more, whole, tail⟩
  · have nones : ∀ a ∈ more ++ none :: after, a = none := fun a member =>
      List.eq_of_mem_replicate (tail ▸ member)
    refine ⟨?_, fun v member => List.mem_append_left _ (List.mem_map_of_mem member),
      fun a member => nones a (by simp [member])⟩
    rintro rfl
    simp at tail
  · cases more with
    | nil =>
      have nones : ∀ a ∈ none :: after, a = none := fun a member =>
        List.eq_of_mem_replicate (List.nil_append _ ▸ tail ▸ member)
      refine ⟨?_, fun v member => ?_, fun a member => nones a (by simp [member])⟩
      · rintro rfl
        simp at tail
      · rw [List.append_nil] at whole
        exact whole ▸ List.mem_map_of_mem member
    | cons a more =>
      have first : none = a := by simpa using congrArg List.head? tail
      have listed : none ∈ found.map some := by simp [whole, first]
      simp at listed

/-- A run finds only what is looked for, each once, and all of it before it says that nothing is
left. -/
theorem Run.exact (run : Run first answers s) (blank : first.Blank) (fresh : first.phase = .fresh) :
    s.phase ≠ .stalled ∧ (∀ v, some v ∈ answers → first.Target v) ∧ (answers.filterMap id).Nodup ∧
      ∀ before after, answers = before ++ none :: after →
        (∀ v, first.Target v → some v ∈ before) ∧ ∀ a ∈ after, a = none := by
  obtain ⟨paused, -, found, n, rfl, ended, distinct, taken, target⟩ := run.account blank fresh
  refine ⟨paused.live, ?_, ?_, ?_⟩
  · intro v member
    have listed : v ∈ found := by simpa using member
    exact (taken v listed).1
  · simpa [List.filterMap_append] using distinct
  · intro before after split
    obtain ⟨failed, earlier, later⟩ := split_tally split
    refine ⟨fun v goal => earlier v ?_, later⟩
    rcases (target v goal.1).mp goal with member | left
    · exact member
    · rw [Left, ended failed] at left
      exact left.elim

/-- A fresh search has nothing on its trail. -/
theorem blank_start {clauses : Formula} {atoms : Nat} (config : Config) (below : clauses.Below atoms) :
    (start clauses atoms config).Blank := by
  have empty : (Array.replicate atoms (none : Option Bool)).size = atoms := by simp
  refine ⟨⟨⟨⟨?_, by simp [start, path]⟩, by simp [start], by simp [start], by simp [start]⟩, ?_, ?_⟩,
    rfl, rfl, by simp [start]⟩
  · intro l
    simp only [start, path, Array.getElem?_replicate, List.not_mem_nil, iff_false]
    split <;> simp
  · simpa [start] using below
  · simp [start]

/-- Over every run of calls from a fresh search: every call returns, what it gives is a model, no
model is given twice, and when it first gives none every model was given, and none is ever after. -/
theorem enumeration_exact {clauses : Formula} {atoms : Nat} {config : Config}
    (below : clauses.Below atoms) {answers : List (Option Valuation)} {s : Search}
    (run : Run (start clauses atoms config) answers s) :
    s.phase ≠ .stalled ∧ (∀ v, some v ∈ answers → v.Models clauses atoms) ∧
      (answers.filterMap id).Nodup ∧
      ∀ before after, answers = before ++ none :: after →
        (∀ v : Valuation, v.Models clauses atoms → some v ∈ before) ∧ ∀ a ∈ after, a = none := by
  obtain ⟨live, sound, distinct, complete⟩ := run.exact (blank_start config below) rfl
  have target : ∀ v, (start clauses atoms config).Target v ↔ v.Models clauses atoms := by
    intro v
    simp [Target, start]
  refine ⟨live, fun v member => (target v).mp (sound v member), distinct, ?_⟩
  intro before after split
  obtain ⟨all, last⟩ := complete before after split
  exact ⟨fun v model => all v ((target v).mpr model), last⟩

/-- A run on a clause with a repeated literal, twice, and on a tautology, with a decision and a
propagation between the calls. -/
theorem enumeration_exact_disjunction :
    let clauses : Formula :=
      #[[⟨0, true⟩, ⟨1, true⟩, ⟨0, true⟩], [⟨1, false⟩, ⟨1, true⟩], [⟨0, true⟩, ⟨1, true⟩, ⟨0, true⟩]]
    let first := start clauses 2 {}
    let resumed := first.next.2.decide.2.next
    let last := resumed.2.propagate.2.next
    let answers := [first.next.1, resumed.1, last.1]
    clauses.Below 2 ∧ Run first answers last.2 ∧ last.2.phase ≠ .stalled ∧
      (∀ v, some v ∈ answers → v.Models clauses 2) ∧ (answers.filterMap id).Nodup ∧
      ∀ before after, answers = before ++ none :: after →
        (∀ v : Valuation, v.Models clauses 2 → some v ∈ before) ∧ ∀ a ∈ after, a = none := by
  intro clauses first resumed last answers
  have below : clauses.Below 2 := by
    rw [Formula.Below]
    decide
  have blank := blank_start {} below
  have unbiased : first.bias.Impossible := unbiased_start Binary64.never_zero
  have begun : Run first [] first := .start
  have once := begun.next ((begun.account blank rfl).nextReturns unbiased)
  have kept := (once.account blank rfl).task.bias
  have drawn := once.decide (drawReturns_of_unbiased (by rw [kept]; exact unbiased))
  have twice := drawn.next ((drawn.account blank rfl).nextReturns unbiased)
  have idle := twice.propagate
  have thrice := idle.next ((idle.account blank rfl).nextReturns unbiased)
  exact ⟨below, thrice, enumeration_exact below thrice⟩

end Clausal.Search

import Clausal.Proofs.Exhaustion
import Clausal.Proofs.Period

/-!
Calls of a search in any order: for the next model, for a propagation, for a decision and for
assuming the pure literals. Assumptions are looked at by the first call for the next model only, so
later ones change no answer; earlier ones leave just the models in which all pure literals are true.
Main statement: `pure_enumeration_exact`.
-/

namespace Clausal

/-- A call of a search. -/
inductive Call where
  | next
  | propagate
  | decide
  | assumePure
  deriving DecidableEq

namespace Search

/-- The search after a call. -/
def call (s : Search) : Call → Search
  | .next => s.next.2
  | .propagate => s.propagate.2
  | .decide => s.decide.2
  | .assumePure => s.assumePureLiterals

/-- The search after some calls. -/
def after (s : Search) (calls : List Call) : Search := calls.foldl call s

/-- The answers of the calls for the next model among some calls. -/
def answers (s : Search) : List Call → List (Option Valuation)
  | [] => []
  | .next :: rest => s.next.1 :: s.next.2.answers rest
  | .propagate :: rest => s.propagate.2.answers rest
  | .decide :: rest => s.decide.2.answers rest
  | .assumePure :: rest => s.assumePureLiterals.answers rest

variable {s t u : Search} {l : Literal} {A : List Literal} {i : Nat} {c : Call} {calls : List Call}

theorem after_concat (s : Search) (calls : List Call) (c : Call) :
    s.after (calls ++ [c]) = (s.after calls).call c := by
  simp [after]

/-- Only the calls for the next model are answered. -/
theorem answers_cons (other : c ≠ .next) : s.answers (c :: calls) = (s.call c).answers calls := by
  cases c with
  | next => exact absurd rfl other
  | propagate => rfl
  | decide => rfl
  | assumePure => rfl

theorem answers_append (s : Search) (calls later : List Call) :
    s.answers (calls ++ later) = s.answers calls ++ (s.after calls).answers later := by
  induction calls generalizing s with
  | nil => rfl
  | cons c calls ih =>
    by_cases isNext : c = .next
    · subst isNext
      exact congrArg (s.next.1 :: ·) (ih s.next.2)
    · rw [List.cons_append, answers_cons isNext, answers_cons isNext]
      exact ih (s.call c)

theorem answers_of_unasked (unasked : .next ∉ calls) (s : Search) : s.answers calls = [] := by
  induction calls generalizing s with
  | nil => rfl
  | cons c calls ih =>
    obtain ⟨other, unasked'⟩ := List.ne_and_not_mem_of_not_mem_cons unasked
    rw [answers_cons (Ne.symm other)]
    exact ih unasked' _

section Unfolding

theorem propagate_of_done (done : s.trail[s.head]? = none) : s.propagate = (none, s) := by
  rw [propagate]
  split
  · rfl
  · next pending => cases done.symm.trans pending

theorem propagate_of_pending (pending : s.trail[s.head]? = some l) : s.propagate =
    match { s with head := s.head + 1 }.examine (s.opposing l) with
    | (some i, t) => (some i, t)
    | (none, t) => t.propagate := by
  rw [propagate]
  split
  · next done => cases pending.symm.trans done
  · next other =>
    cases pending.symm.trans other
    split
    · next examined => rw [examined]
    · next examined => rw [examined]

theorem settle_eq (s : Search) : s.settle =
    match s.propagate with
    | (some _, t) =>
      match t.countConflict.backtrack with
      | (true, u) => u.settle
      | (false, u) => u.exhaust
    | (none, t) =>
      match t.decide with
      | (some l, u) => if u.decisions.length ≤ u.valuation.size then (u.branch l).settle else u.stall
      | (none, u) => if u.phase = .stalled then (none, u) else u.yield := by
  rw [settle]
  split
  · next propagated =>
    rw [propagated]
    dsimp only
    split
    · next flipped => rw [flipped]
    · next ending => rw [ending]
  · next propagated =>
    rw [propagated]
    dsimp only
    split
    · next decided => rw [decided]; rfl
    · next decided => rw [decided]

end Unfolding

section Assumptions

/-- The search with other assumptions. -/
def withAssumptions (s : Search) (A : List Literal) : Search := { s with assumptions := A }

theorem assign_withAssumptions (s : Search) (l : Literal) :
    (s.withAssumptions A).assign l = (s.assign l).withAssumptions A := by
  unfold assign
  change (if s.valuation[l.atom]? = some none then _ else _) = _
  split <;> rfl

/-- Looking at clauses does not depend on the assumptions. -/
theorem examine_withAssumptions (s : Search) (positions : List Nat) : (s.withAssumptions A).examine positions =
    ((s.examine positions).1, (s.examine positions).2.withAssumptions A) := by
  fun_induction examine s positions with
  | case1 s => rfl
  | case2 s i rest l asserts ih =>
    have same : ((s.withAssumptions A).clauseAt i).asserts? (s.withAssumptions A).valuation = some l := asserts
    have deduced : (s.withAssumptions A).deduce l = (s.deduce l).withAssumptions A := by
      unfold deduce
      rw [← assign_withAssumptions]
      rfl
    rw [examine, same]
    dsimp only
    rw [deduced, ih]
  | case3 s i rest nothing falsified =>
    have same : ((s.withAssumptions A).clauseAt i).asserts? (s.withAssumptions A).valuation = none := nothing
    have false' : ((s.withAssumptions A).clauseAt i).falsified (s.withAssumptions A).valuation = true := falsified
    rw [examine, same]
    dsimp only
    rw [if_pos false']
  | case4 s i rest nothing notFalsified ih =>
    have same : ((s.withAssumptions A).clauseAt i).asserts? (s.withAssumptions A).valuation = none := nothing
    have notFalse : ¬ ((s.withAssumptions A).clauseAt i).falsified (s.withAssumptions A).valuation = true := notFalsified
    rw [examine, same]
    dsimp only
    rw [if_neg notFalse, ih]

/-- Nor does the first step of a propagation. -/
private theorem propagate_of_examined {r : Option Nat × Search} (pending : s.trail[s.head]? = some l)
    (examined : { s with head := s.head + 1 }.examine (s.opposing l) = r) : (s.withAssumptions A).propagate =
      match (r.1, r.2.withAssumptions A) with
      | (some i, t) => (some i, t)
      | (none, t) => t.propagate := by
  have same : (s.withAssumptions A).trail[(s.withAssumptions A).head]? = some l := pending
  have looked := examine_withAssumptions (A := A) { s with head := s.head + 1 } (s.opposing l)
  rw [examined] at looked
  rw [propagate_of_pending same]
  change (match ({ s with head := s.head + 1 }.withAssumptions A).examine (s.opposing l) with
    | (some i, t) => (some i, t)
    | (none, t) => t.propagate) = _
  rw [looked]

theorem propagate_withAssumptions (s : Search) :
    (s.withAssumptions A).propagate = (s.propagate.1, s.propagate.2.withAssumptions A) := by
  fun_induction propagate s with
  | case1 s done => exact propagate_of_done done
  | case2 s l pending i t examined => exact propagate_of_examined pending examined
  | case3 s l pending t examined ih => exact (propagate_of_examined pending examined).trans ih

theorem backtrackOver_withAssumptions (s : Search) (decisions : List Decision) :
    (s.withAssumptions A).backtrackOver decisions =
      ((s.backtrackOver decisions).1, (s.backtrackOver decisions).2.withAssumptions A) := by
  induction decisions generalizing s with
  | nil => rfl
  | cons d earlier ih =>
    unfold backtrackOver
    have undone : (s.withAssumptions A).undoTo d.trailLength = (s.undoTo d.trailLength).withAssumptions A := rfl
    by_cases flipped : d.flipped = true
    · rw [if_pos flipped, if_pos flipped, undone]
      exact ih _
    · rw [if_neg flipped, if_neg flipped]
      dsimp only
      rw [← assign_withAssumptions]
      rfl

theorem decide_withAssumptions (s : Search) :
    (s.withAssumptions A).decide = (s.decide.1, s.decide.2.withAssumptions A) := by
  have same : (s.withAssumptions A).drawDecision.run (s.withAssumptions A).source = s.drawDecision.run s.source := rfl
  rw [decide, decide, same]
  cases s.drawDecision.run s.source with
  | none => rfl
  | some drawn => rfl

theorem backtrack_withAssumptions (s : Search) :
    (s.withAssumptions A).backtrack = (s.backtrack.1, s.backtrack.2.withAssumptions A) :=
  backtrackOver_withAssumptions s s.decisions

theorem branch_withAssumptions (s : Search) (l : Literal) :
    (s.withAssumptions A).branch l = (s.branch l).withAssumptions A := by
  unfold branch
  rw [← assign_withAssumptions]
  rfl

/-- The loop never looks at the assumptions. -/
theorem settle_withAssumptions (s : Search) :
    (s.withAssumptions A).settle = (s.settle.1, s.settle.2.withAssumptions A) := by
  fun_induction settle s with
  | case1 s i t conflict u flipped ih =>
    have turned : (t.withAssumptions A).countConflict.backtrack =
        (t.countConflict.backtrack.1, t.countConflict.backtrack.2.withAssumptions A) :=
      backtrack_withAssumptions t.countConflict
    rw [flipped] at turned
    rw [settle_eq, propagate_withAssumptions, conflict]
    dsimp only
    rw [turned]
    exact ih
  | case2 s i t conflict u ending =>
    have turned : (t.withAssumptions A).countConflict.backtrack =
        (t.countConflict.backtrack.1, t.countConflict.backtrack.2.withAssumptions A) :=
      backtrack_withAssumptions t.countConflict
    rw [ending] at turned
    rw [settle_eq, propagate_withAssumptions, conflict]
    dsimp only
    rw [turned]
    rfl
  | case3 s t propagated l u decided within ih =>
    rw [settle_eq, propagate_withAssumptions, propagated]
    dsimp only
    rw [decide_withAssumptions, decided]
    dsimp only
    rw [if_pos (show (u.withAssumptions A).decisions.length ≤ (u.withAssumptions A).valuation.size from within),
      branch_withAssumptions, ih]
  | case4 s t propagated l u decided beyond =>
    rw [settle_eq, propagate_withAssumptions, propagated]
    dsimp only
    rw [decide_withAssumptions, decided]
    dsimp only
    rw [if_neg (show ¬ (u.withAssumptions A).decisions.length ≤ (u.withAssumptions A).valuation.size from beyond)]
    rfl
  | case5 s t propagated u decided stalled =>
    rw [settle_eq, propagate_withAssumptions, propagated]
    dsimp only
    rw [decide_withAssumptions, decided]
    exact if_pos stalled
  | case6 s t propagated u decided running =>
    rw [settle_eq, propagate_withAssumptions, propagated]
    dsimp only
    rw [decide_withAssumptions, decided]
    exact if_neg running

/-- Neither does a call for the next model, once one was made. -/
theorem next_withAssumptions (late : s.phase ≠ .fresh) :
    (s.withAssumptions A).next = (s.next.1, s.next.2.withAssumptions A) := by
  have phase : (s.withAssumptions A).phase = s.phase := rfl
  unfold next
  rw [phase]
  cases known : s.phase with
  | fresh => exact absurd known late
  | model =>
    dsimp only
    rw [backtrack_withAssumptions]
    rcases s.backtrack with ⟨_ | _, t⟩
    · rfl
    · exact settle_withAssumptions t
  | exhausted => rfl
  | stalled => rfl

end Assumptions

section Phases

theorem phase_assign (s : Search) (l : Literal) : (s.assign l).phase = s.phase := by
  unfold assign
  split <;> rfl

/-- What holds of a search and is kept by each literal found holds after a propagation. -/
theorem propagate_induction {P : Search → Prop} (advance : ∀ s n, P s → P { s with head := n })
    (deduce : ∀ s l, P s → P (s.deduce l)) (s : Search) (before : P s) : P s.propagate.2 := by
  have examined : ∀ (s : Search) (positions : List Nat), P s → P (s.examine positions).2 := by
    intro s positions
    fun_induction examine s positions with
    | case1 => exact id
    | case2 s i rest l _ ih => exact fun holds => ih (deduce s l holds)
    | case3 => exact id
    | case4 s i rest _ _ ih => exact ih
  fun_induction propagate s with
  | case1 => exact before
  | case2 s l _ i t looked =>
    have kept := examined { s with head := s.head + 1 } (s.opposing l) (advance s _ before)
    rwa [looked] at kept
  | case3 s l _ t looked ih =>
    have kept := examined { s with head := s.head + 1 } (s.opposing l) (advance s _ before)
    rw [looked] at kept
    exact ih kept

theorem phase_propagate (s : Search) : s.propagate.2.phase = s.phase :=
  propagate_induction (P := fun t => t.phase = s.phase) (fun _ _ same => same)
    (fun _ l same => (phase_assign _ l).trans same) s rfl

theorem phase_settle (s : Search) : s.settle.2.phase ≠ .fresh := by
  fun_induction settle s with
  | case1 s i t conflict u flipped ih => exact ih
  | case2 => simp [exhaust]
  | case3 s t propagated l u decided within ih => exact ih
  | case4 => simp [stall]
  | case5 s t propagated u decided stalled => simp [stalled]
  | case6 => simp [yield]

/-- After a call for the next model no search is fresh. -/
theorem phase_next (s : Search) : s.next.2.phase ≠ .fresh := by
  unfold next
  cases known : s.phase with
  | fresh =>
    dsimp only
    rcases s.valueRoot with ⟨_ | _, t⟩
    · simp [exhaust]
    · exact phase_settle t
  | model =>
    dsimp only
    rcases s.backtrack with ⟨_ | _, t⟩
    · simp [exhaust]
    · exact phase_settle t
  | exhausted => simp [known]
  | stalled => simp [known]

theorem phase_decide (s : Search) : s.decide.2.phase = s.phase ∨ s.decide.2.phase = .stalled := by
  unfold decide
  split
  · exact .inl rfl
  · exact .inr rfl

/-- What is not fresh never is again. -/
theorem call_ne_fresh (late : s.phase ≠ .fresh) (c : Call) : (s.call c).phase ≠ .fresh := by
  cases c with
  | next => exact phase_next s
  | propagate => exact (phase_propagate s).symm ▸ late
  | decide =>
    rcases phase_decide s with same | stalled
    · exact same.symm ▸ late
    · rw [call, stalled]
      decide
  | assumePure => exact late

/-- So no call after the first one for the next model looks at the assumptions. -/
theorem answers_withAssumptions (late : s.phase ≠ .fresh) (A : List Literal) (calls : List Call) :
    (s.withAssumptions A).answers calls = s.answers calls := by
  induction calls generalizing s A with
  | nil => rfl
  | cons c calls ih =>
    have later := call_ne_fresh late c
    cases c with
    | next =>
      rw [answers, answers, next_withAssumptions late]
      exact congrArg _ (ih later A)
    | propagate =>
      rw [answers, answers, propagate_withAssumptions]
      exact ih later A
    | decide =>
      rw [answers, answers, decide_withAssumptions]
      exact ih later A
    | assumePure =>
      have first : (s.withAssumptions A).assumePureLiterals.answers calls = s.answers calls :=
        ih late (A ++ s.clauses.pureLiterals)
      have second : s.assumePureLiterals.answers calls = s.answers calls :=
        ih late (s.assumptions ++ s.clauses.pureLiterals)
      exact first.trans second.symm

end Phases

section Returning

/-- Every draw in some calls returns. -/
def Returns (s : Search) : List Call → Prop
  | [] => True
  | .next :: rest => s.NextReturns ∧ s.next.2.Returns rest
  | .propagate :: rest => s.propagate.2.Returns rest
  | .decide :: rest => s.DrawReturns ∧ s.decide.2.Returns rest
  | .assumePure :: rest => s.assumePureLiterals.Returns rest

theorem Paused.assumePure (paused : s.Paused) : s.assumePureLiterals.Paused :=
  ⟨paused.toWellFormed.relabel rfl, paused.live, fun fresh => (paused.fresh fresh).assumePure, paused.model⟩

theorem Paused.next (paused : s.Paused) (returns : s.NextReturns) : s.next.2.Paused ∧ s.SameTask s.next.2 := by
  rcases paused.next_spec returns with ⟨v, t, result, finds⟩ | ⟨t, result, ending⟩
  · rw [result]
    exact ⟨finds.paused, finds.task⟩
  · rw [result]
    exact ⟨ending.paused, ending.task⟩

/-- If no atom is decided at random, every draw returns. -/
theorem Paused.returns (paused : s.Paused) (unbiased : s.bias.Impossible) (calls : List Call) : s.Returns calls := by
  induction calls generalizing s with
  | nil => trivial
  | cons c calls ih =>
    cases c with
    | next =>
      have returns := paused.nextReturns unbiased
      obtain ⟨paused', task⟩ := paused.next returns
      exact ⟨returns, ih paused' (task.bias ▸ unbiased)⟩
    | propagate =>
      obtain ⟨paused', task, -⟩ := paused.propagate
      exact ih paused' (task.bias ▸ unbiased)
    | decide =>
      have returns := drawReturns_of_unbiased unbiased
      have same : s.decide.2.bias = s.bias := by rw [decide_frame returns]
      exact ⟨returns, ih (paused.decide returns) (same ▸ unbiased)⟩
    | assumePure => exact ih paused.assumePure unbiased

/-- By induction on the calls: if every draw returns, the search does not stall. -/
theorem Paused.after (paused : s.Paused) (returns : s.Returns calls) : (s.after calls).Paused := by
  induction calls generalizing s with
  | nil => exact paused
  | cons c calls ih =>
    cases c with
    | next => exact ih (paused.next returns.1).1 returns.2
    | propagate => exact ih paused.propagate.1 returns
    | decide => exact ih (paused.decide returns.1) returns.2
    | assumePure => exact ih paused.assumePure returns

end Returning

section Fresh

variable {clauses : Formula} {atoms : Nat} {config : Config}

/-- What holds of a fresh search after some calls: it has nothing on its trail, and it assumes the pure
literals if it was told to. -/
structure Waits (first : Search) (calls : List Call) (s : Search) : Prop where
  blank : s.Blank
  task : first.SameTask s
  assumptions : ∀ l, l ∈ s.assumptions ↔ .assumePure ∈ calls ∧ l ∈ first.clauses.pureLiterals

/-- On an empty trail there is nothing to propagate. -/
theorem Blank.propagate (blank : s.Blank) : s.propagate = (none, s) := by
  have nothing : s.path[s.head]? = none := by
    rw [blank.path]
    rfl
  exact propagate_of_done (by simpa using nothing)

/-- A search on an empty trail stalls if the draw for its first decision never ends. -/
theorem Blank.settle_of_stalled (blank : s.Blank) (stalls : s.decide = (none, { s with phase := .stalled })) :
    s.settle = (none, { s with phase := .stalled }) := by
  rw [settle_eq, blank.propagate]
  dsimp only
  rw [stalls]
  rfl

/-- By induction on the calls, of which none was for the next model. -/
theorem waits_after (below : clauses.Below atoms)
    (fresh : ((start clauses atoms config).after calls).phase = .fresh) :
    Waits (start clauses atoms config) calls ((start clauses atoms config).after calls) := by
  induction calls using List.reverseRecOn with
  | nil => exact ⟨blank_start config below, .refl _, by simp [after, start]⟩
  | append_singleton calls c ih =>
    rw [after_concat] at fresh ⊢
    have before : ((start clauses atoms config).after calls).phase = .fresh :=
      by_contra fun late => call_ne_fresh late c fresh
    obtain ⟨blank, task, assumptions⟩ := ih before
    generalize (start clauses atoms config).after calls = s at *
    cases c with
    | next => exact absurd fresh (phase_next s)
    | propagate =>
      rw [call, blank.propagate]
      exact ⟨blank, task, by simpa using assumptions⟩
    | decide =>
      have returns : s.DrawReturns := drawReturns_of_decide fun stalled => by cases fresh.symm.trans stalled
      rw [call, decide_frame returns]
      exact ⟨⟨blank.toWellFormed.relabel rfl, blank.path, blank.decisions, blank.assumptions⟩,
        task.relabel rfl, by simpa using assumptions⟩
    | assumePure =>
      refine ⟨blank.assumePure, task.relabel rfl, fun l => ?_⟩
      rw [call, assumePureLiterals, List.mem_append, assumptions, task.clauses]
      simp

end Fresh

section Enumeration

variable {first : Search}

theorem after_next (s : Search) (calls : List Call) : s.after (.next :: calls) = s.next.2.after calls := rfl

/-- Collecting models asks for the next one until there is none, or as often as it may. -/
theorem collect_answers (s : Search) (found : Array Valuation) (cap : Nat) :
    ∃ more : List Valuation, (s.collect found cap).1.toList = found.toList ++ more ∧
      (more.length = cap ∨ s.answers (List.replicate (more.length + 1) .next) = more.map some ++ [none] ∧
        (s.collect found cap).2 = s.after (List.replicate (more.length + 1) .next)) := by
  induction cap generalizing s found with
  | zero => exact ⟨[], by simp [collect], .inl rfl⟩
  | succ cap ih =>
    rw [collect_succ]
    rcases result : s.next with ⟨_ | v, t⟩
    · refine ⟨[], by simp, .inr ⟨?_, ?_⟩⟩
      · simp [answers, result]
      · simp [after, call, result]
    · obtain ⟨more, listed, ending⟩ := ih t (found.push v)
      refine ⟨v :: more, by simp [listed], ?_⟩
      rcases ending with many | ⟨given, last⟩
      · exact .inl (by simp [many])
      · refine .inr ⟨?_, ?_⟩
        · rw [List.length_cons, List.replicate_succ, answers, result, given]
          rfl
        · rw [List.length_cons, List.replicate_succ, after_next, result]
          exact last

/-- A fresh search that is asked for the next model until there is none gives models looked for, each once, and
unless a draw never ends all of them. -/
theorem Blank.enumerates (blank : first.Blank) (fresh : first.phase = .fresh) :
    ∃ found : List Valuation,
      first.answers (List.replicate (found.length + 1) .next) = found.map some ++ [none] ∧ found.Nodup ∧
        (∀ v ∈ found, first.Target v) ∧
        ((first.after (List.replicate (found.length + 1) .next)).phase ≠ .stalled →
          ∀ v, first.Target v → v ∈ found) := by
  obtain ⟨found, listed, ending⟩ := first.collect_answers #[] ((1 <<< first.valuation.size) + 1)
  obtain ⟨distinct, sound⟩ := rest_sound blank fresh
  change first.rest.1.toList = [] ++ found at listed
  rw [List.nil_append] at listed
  have targets : ∀ v ∈ found, first.Target v := fun v member =>
    sound v (Array.mem_toList_iff.mp (listed ▸ member))
  rw [listed] at distinct
  rcases ending with many | ⟨given, last⟩
  · have few := Valuation.length_le distinct fun v member => (targets v member).1.1
    omega
  · refine ⟨found, given, distinct, targets, fun live v target => ?_⟩
    rw [← last] at live
    have all := (rest_spec blank fresh live).2 v
    rw [← listed, Array.mem_toList_iff]
    exact all.mpr target

end Enumeration

end Search

/-- Every atom that occurs in a formula with one polarity only has it. -/
def Valuation.Pure (v : Valuation) (f : Formula) : Prop :=
  ∀ a polarity, (∃ c ∈ f, ⟨a, polarity⟩ ∈ c) → (∀ c ∈ f, ⟨a, !polarity⟩ ∉ c) → v.holds ⟨a, polarity⟩ = true

theorem Valuation.pure_iff {v : Valuation} {f : Formula} :
    v.Pure f ↔ ∀ l ∈ f.pureLiterals, v.holds l = true := by
  constructor
  · intro isPure l member
    obtain ⟨occurs, alone⟩ := Formula.mem_pureLiterals.mp member
    exact isPure l.atom l.polarity occurs alone
  · intro holds a polarity occurs alone
    exact holds ⟨a, polarity⟩ (Formula.mem_pureLiterals.mpr ⟨occurs, alone⟩)

namespace Search

/-- If the pure literals were assumed, once or more often, while a search was fresh, then asking for the next
model until there is none gives models in which every pure atom has its polarity, each once. If every draw
returns, the search does not stall, and these are all such models, of which there is one just if there is any
model. Once a search is not fresh any more, assuming the pure literals changes no answer. -/
theorem pure_enumeration_exact {clauses : Formula} {atoms : Nat} (config : Config) (below : clauses.Below atoms) :
    (∀ calls, ((start clauses atoms config).after calls).phase = .fresh → .assumePure ∈ calls →
      ∃ found : List Valuation,
        let s := (start clauses atoms config).after calls
        let asked := List.replicate (found.length + 1) Call.next
        s.answers asked = found.map some ++ [none] ∧ found.Nodup ∧
          (∀ v ∈ found, v.Models clauses atoms ∧ v.Pure clauses) ∧
          (s.Returns asked → (s.after asked).phase ≠ .stalled ∧
            (∀ v : Valuation, v.Models clauses atoms → v.Pure clauses → v ∈ found) ∧
            (found ≠ [] ↔ ∃ v : Valuation, v.Models clauses atoms))) ∧
    ∀ (s : Search) (later : List Call), s.phase ≠ .fresh → s.assumePureLiterals.answers later = s.answers later := by
  refine ⟨fun calls fresh told => ?_, fun s later late => answers_withAssumptions late _ later⟩
  obtain ⟨blank, task, assumptions⟩ := waits_after below fresh
  have size : (start clauses atoms config).valuation.size = atoms := by simp [start]
  have target : ∀ v, ((start clauses atoms config).after calls).Target v ↔ v.Models clauses atoms ∧ v.Pure clauses := by
    intro v
    rw [Target, task.clauses, task.size, size, Valuation.pure_iff]
    refine and_congr_right fun _ => forall_congr' fun l => ?_
    rw [assumptions, and_iff_right told]
    rfl
  obtain ⟨found, given, distinct, sound, complete⟩ := blank.enumerates fresh
  refine ⟨found, given, distinct, fun v member => (target v).mp (sound v member), fun returns => ?_⟩
  have live := ((blank.paused fresh).after returns).live
  have all : ∀ v : Valuation, v.Models clauses atoms → v.Pure clauses → v ∈ found :=
    fun v model isPure => complete live v ((target v).mpr ⟨model, isPure⟩)
  refine ⟨live, all, fun some => ?_, ?_⟩
  · obtain ⟨v, member⟩ := List.exists_mem_of_ne_nil found some
    exact ⟨v, ((target v).mp (sound v member)).1⟩
  · rintro ⟨v, model⟩
    obtain ⟨w, model', isPure⟩ := Valuation.exists_models_pure below model
    exact List.ne_nil_of_mem (all w model' (Valuation.pure_iff.mpr isPure))

/-- Told twice about the one pure literal, a search finds the two models in which it is true and not the
third; told once more after that, it goes on as before. -/
theorem pure_enumeration_exact_chain :
    let clauses : Formula := #[[⟨0, true⟩, ⟨1, true⟩], [⟨1, false⟩, ⟨2, true⟩], [⟨1, true⟩, ⟨2, false⟩]]
    let s := (start clauses 3 {}).after [.assumePure, .propagate, .assumePure]
    let t := s.after [.next]
    ∃ found : List Valuation, s.answers (List.replicate (found.length + 1) .next) = found.map some ++ [none] ∧
      #[true, false, false] ∈ found ∧ #[true, true, true] ∈ found ∧ #[false, true, true] ∉ found ∧
      t.assumePureLiterals.answers [.decide, .next] = t.answers [.decide, .next] := by
  intro clauses s t
  have below : clauses.Below 3 := by
    rw [Formula.Below]
    decide
  have fresh : s.phase = .fresh := phase_propagate _
  have opposed : ∀ c ∈ clauses, ∀ l ∈ c, l = ⟨0, true⟩ ∨ ∃ d ∈ clauses, ⟨l.atom, !l.polarity⟩ ∈ d := by decide
  have isPure : ∀ v : Valuation, v.holds ⟨0, true⟩ = true → v.Pure clauses := by
    rintro v holds a polarity ⟨c, member, listed⟩ alone
    rcases opposed c member _ listed with same | ⟨d, there, opposite⟩
    · exact same ▸ holds
    · exact absurd opposite (alone d there)
  obtain ⟨calls, late⟩ := pure_enumeration_exact {} below
  obtain ⟨found, given, -, sound, complete⟩ := calls _ fresh (by simp)
  have waits : Waits (start clauses 3 {}) _ s := waits_after below fresh
  have unbiased : s.bias.Impossible := by
    rw [waits.task.bias]
    exact unbiased_start Binary64.never_zero
  obtain ⟨-, all, -⟩ := complete ((waits.blank.paused fresh).returns unbiased _)
  refine ⟨found, given, all _ ⟨rfl, by decide⟩ (isPure _ rfl), all _ ⟨rfl, by decide⟩ (isPure _ rfl),
    fun member => ?_, late t _ (phase_next s)⟩
  have occurs : ∃ c ∈ clauses, (⟨0, true⟩ : Literal) ∈ c := by decide
  cases (sound _ member).2 0 true occurs (by decide)

/-- Without clauses both valuations of an atom are models, but with one of the seeds the draw of the atom never
ends, and none of the two is given. -/
theorem pure_enumeration_endless :
    let s := (start #[] 1 { seed := 11351873388075537484, randomDecisionBias := .one }).after [.assumePure]
    s.phase = .fresh ∧ s.answers [.next] = [none] ∧ (s.after [.next]).phase = .stalled ∧
      ∀ b, Valuation.Models #[b] #[] 1 ∧ Valuation.Pure #[b] #[] := by
  intro s
  have below : Formula.Below #[] 1 := by simp [Formula.Below]
  have fresh : s.phase = .fresh := rfl
  have blank : s.Blank := (blank_start _ below).assumePure
  have certain : s.bias.Certain := by
    show (start #[] 1 { seed := 11351873388075537484, randomDecisionBias := .one }).bias.Certain
    decide +kernel
  have free : PartialValuation.unvalued (Array.replicate 1 none) ≠ [] := by decide
  have source : s.source = .ofNumber 11351873388075537484 := by
    show (start #[] 1 { seed := 11351873388075537484, randomDecisionBias := .one }).source = _
    rfl
  have stalls : s.decide = (none, { s with phase := .stalled }) := decide_constant rfl certain free source
  have next : s.next = s.settle := by
    rw [Search.next, fresh]
    rfl
  rw [blank.settle_of_stalled stalls] at next
  refine ⟨fresh, ?_, ?_, fun b => ⟨⟨rfl, by simp⟩, by simp [Valuation.Pure]⟩⟩
  · rw [answers, next]
    rfl
  · rw [after_next, next]
    rfl

end Search

end Clausal

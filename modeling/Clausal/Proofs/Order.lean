import Clausal.Proofs.Balance
import Mathlib.Data.Finset.Sort
import Mathlib.Data.List.Lex

/-!
The order in which models are found without random decisions. Every decision is then on the least atom
without a value and takes the same side first, so whatever agrees with the trail comes before whatever
agrees with it only up to a decision that has its other side ahead. So the models come in lexicographic
order, or in the reverse of it, whatever the seed is. Main statement: `answers_lexicographic`.
-/

namespace Clausal

namespace Probability

variable {x : Binary64}

theorem certain_of_one (isOne : (x == .one) = true) : (ofBinary64 x).Certain := by
  obtain ⟨number, same⟩ := Binary64.units_of_beq isOne
  have atLeast : .zero ≤ x := by
    have order : Binary64.zero.units ≤ Binary64.one.units := by decide +kernel
    rw [← same] at order
    exact Binary64.le_of_units (by decide +kernel) number order
  have atMost : x ≤ .one := Binary64.le_of_units number (by decide +kernel) (le_of_eq same)
  have proper : x.isProbability = true := decide_eq_true ⟨atLeast, atMost⟩
  rw [ofBinary64, dif_pos proper]
  exact isOne

end Probability

namespace Search

variable {s t : Search} {b : Bool} {l : Literal} {v w : Valuation}

section Decisions

/-- Every decision is on the least atom without a value, and gives it the value `b`. -/
structure Steady (b : Bool) (s : Search) : Prop where
  bias : s.bias.Impossible
  lean : if b then s.lean.Certain else s.lean.Impossible

theorem Steady.task (steady : s.Steady b) (task : s.SameTask t) : t.Steady b :=
  ⟨task.bias ▸ steady.bias, task.lean ▸ steady.lean⟩

/-- Whether the value of a decision is true is certain. -/
theorem Steady.polarity (steady : s.Steady b) (g : Pcg) : ∃ g', (s.sampler.event s.lean).run g = some (b, g') := by
  have lean := steady.lean
  cases b with
  | true => exact s.sampler.event_eq_true lean g
  | false => exact s.sampler.event_eq_false lean g

theorem Steady.drawDecision (steady : s.Steady b) :
    ∃ g, s.drawDecision.run s.source = some (s.valuation.unvalued.head?.map (⟨·, b⟩), g) := by
  obtain ⟨between, least⟩ := s.sampler.event_eq_false steady.bias s.source
  simp only [Search.drawDecision, StateT.run_bind, least, Option.bind_eq_bind, Option.bind_some,
    Bool.false_eq_true, ↓reduceIte, pure_bind]
  cases s.valuation.unvalued.head? with
  | none => exact ⟨_, rfl⟩
  | some a =>
    obtain ⟨g, drawn⟩ := steady.polarity between
    exact ⟨g, by simp [drawn]⟩

/-- All atoms before that of a decision have a value. -/
theorem Steady.decide_some (steady : s.Steady b) (h : s.decide = (some l, t)) :
    l.polarity = b ∧ ∀ a < l.atom, ∃ p, s.valuation[a]? = some (some p) := by
  obtain ⟨g, drawn⟩ := steady.drawDecision
  have decided : s.valuation.unvalued.head?.map (⟨·, b⟩ : Atom → Literal) = some l := by
    rw [decide, drawn] at h
    exact congrArg Prod.fst h
  obtain ⟨a, least, rfl⟩ := Option.map_eq_some_iff.mp decided
  rw [PartialValuation.unvalued, List.head?_filter, List.find?_range_eq_some] at least
  refine ⟨rfl, fun c before => ?_⟩
  have valued := least.2.2 c before
  rw [Bool.not_eq_true', Option.isNone_eq_false_iff, Option.isSome_iff_exists] at valued
  obtain ⟨p, value⟩ := valued
  exact ⟨p, by simpa [PartialValuation.value?, Option.join_eq_some_iff] using value⟩

end Decisions

section Trail

/-- Every decision with its other side ahead has the value `b`, and all atoms before its own have a value on the
trail below it. -/
def Ordered (b : Bool) (s : Search) : Prop :=
  ∀ d ∈ s.decisions, d.flipped = false →
    d.literal.polarity = b ∧ ∀ a < d.literal.atom, ∃ p, ⟨a, p⟩ ∈ s.path.take d.trailLength

theorem Ordered.relabel (ordered : s.Ordered b) (h : s.Relabels t) : t.Ordered b := by
  rw [h]
  exact ordered

/-- What is below its decisions is kept by a propagation. -/
theorem Ordered.of_deduces (ordered : s.Ordered b) (kept : s.Disciplined) (deduces : s.Deduces t) : t.Ordered b := by
  intro d member unspent
  rw [deduces.decisions] at member
  rw [take_of_deduces deduces (Nat.le_of_lt (kept.decision_lt member))]
  exact ordered d member unspent

theorem Ordered.of_backtrack (ordered : s.Ordered b) (kept : s.Disciplined) (h : s.backtrack = (true, t)) :
    t.Ordered b := by
  obtain ⟨popped, d, earlier, split, -, -, flips⟩ := backtrackOver_true kept.records kept.stacked kept.placed h
  have stacked := kept.stacked
  rw [split] at stacked
  have top := (List.pairwise_append.mp stacked).2.1
  have inside := Nat.le_of_lt (kept.decision_lt (d := d) (by simp [split]))
  intro e member unspent
  rw [flips.decisions] at member
  rcases List.mem_cons.mp member with rfl | before
  · cases unspent
  · rw [take_of_flips flips inside (Nat.le_of_lt (List.rel_of_pairwise_cons top before))]
    exact ordered e (by simp [split, before]) unspent

/-- A decision on the least atom without a value. -/
theorem Ordered.branch (ordered : s.Ordered b) (kept : s.Disciplined) (free : s.valuation[l.atom]? = some none)
    (polarity : l.polarity = b) (valued : ∀ a < l.atom, ∃ p, s.valuation[a]? = some (some p)) :
    (s.branch l).Ordered b := by
  intro d member unspent
  rw [decisions_branch free] at member
  rcases List.mem_cons.mp member with rfl | before
  · refine ⟨polarity, fun a smaller => ?_⟩
    obtain ⟨p, value⟩ := valued a smaller
    have listed : (⟨a, p⟩ : Literal) ∈ s.path := (kept.records.lists ⟨a, p⟩).mp value
    refine ⟨p, ?_⟩
    rw [take_branch free (Nat.le_refl _), List.take_length]
    exact listed
  · rw [take_branch free (Nat.le_of_lt (kept.decision_lt before))]
    exact ordered d before unspent

/-- Step lemma of the loop. -/
theorem Ready.ordered_iteration (ready : s.Ready) (steady : s.Steady b) (ordered : s.Ordered b)
    (step : Iteration s t) : t.Ordered b := by
  cases step with
  | @flip u _ _ conflict flipped =>
    obtain ⟨formed, deduces, -⟩ := ready.propagate_some conflict
    have counted : u.Relabels u.countConflict := rfl
    have deduced := ordered.of_deduces ready.toDisciplined deduces
    exact (deduced.relabel counted).of_backtrack (formed.relabel counted).toDisciplined flipped
  | @branch u w l propagated decided =>
    obtain ⟨ready', deduces, -⟩ := ready.propagate_none propagated
    obtain ⟨free, frame⟩ := decide_some decided
    obtain ⟨polarity, valued⟩ := (steady.task deduces.moves.task).decide_some decided
    have drawn : u.Relabels w := by rw [Relabels, frame]
    have same : w.valuation = u.valuation := by rw [frame]
    rw [← same] at free valued
    have deduced := ordered.of_deduces ready.toDisciplined deduces
    exact (deduced.relabel drawn).branch (ready'.toWellFormed.relabel drawn).toDisciplined free polarity valued

/-- Run lemma of the loop. -/
theorem Ready.ordered_iterations (ready : s.Ready) (steady : s.Steady b) (ordered : s.Ordered b)
    (steps : Iterations s t) : t.Ordered b := by
  induction steps with
  | refl => exact ordered
  | tail steps step ih =>
    obtain ⟨ready', continues⟩ := ready.iterations steps
    exact ready'.ordered_iteration (steady.task continues.moves.task) ih step

/-- The first of two valuations comes first: in lexicographic order, or with `b` in the reverse of it. -/
def Precedes (b : Bool) (v w : Valuation) : Prop := if b then w < v else v < w

theorem lt_of_differ {a : Atom} (left : v[a]? = some false) (right : w[a]? = some true)
    (same : ∀ c < a, v[c]? = w[c]?) : v < w := by
  obtain ⟨inside, isFalse⟩ := Array.getElem?_eq_some_iff.mp left
  obtain ⟨inside', isTrue⟩ := Array.getElem?_eq_some_iff.mp right
  refine Array.lt_iff_exists.mpr (.inr ⟨a, inside, inside', fun c smaller => ?_, ?_⟩)
  · have equal := same c smaller
    rw [Array.getElem?_eq_getElem (smaller.trans inside), Array.getElem?_eq_getElem (smaller.trans inside')] at equal
    exact Option.some.inj equal
  · rw [isFalse, isTrue]
    decide

/-- Two valuations that first differ in an atom are in the order of its values. -/
theorem precedes_of_differ {a : Atom} (left : v[a]? = some b) (right : w[a]? = some !b)
    (same : ∀ c < a, v[c]? = w[c]?) : Precedes b v w := by
  cases b with
  | false => exact lt_of_differ left right same
  | true => exact lt_of_differ right left fun c smaller => (same c smaller).symm

/-- What agrees with the trail precedes what agrees with it only up to a decision. -/
theorem Ordered.precedes (ordered : s.Ordered b) (kept : s.Disciplined) (current : s.Current v)
    (pending : s.Pending w) : Precedes b v w := by
  obtain ⟨d, member, unspent, below, opposite⟩ := pending
  obtain ⟨polarity, valued⟩ := ordered d member unspent
  have holds := current d.literal (List.mem_of_getElem? (kept.placed d member))
  have value := Valuation.holds_iff.mp holds
  have value' := Valuation.holds_iff.mp opposite
  rw [polarity] at value
  rw [Literal.atom_neg, Literal.polarity_neg, polarity] at value'
  refine precedes_of_differ value value' fun c smaller => ?_
  obtain ⟨p, listed⟩ := valued c smaller
  have first := Valuation.holds_iff.mp (current _ (List.mem_of_mem_take listed))
  have second := Valuation.holds_iff.mp (below _ listed)
  exact first.trans second.symm

end Trail

section Calls

variable {rest : List Valuation} {calls : List Call}

theorem Precedes.asymm (before : Precedes b v w) : ¬ Precedes b w v := by
  cases b with
  | false => exact Array.lt_asymm before
  | true => exact Array.lt_asymm before

/-- A model is found on a trail with every atom, so it agrees with the trail. -/
theorem Ready.finds (ready : s.Ready) (steady : s.Steady b) (ordered : s.Ordered b) (h : s.Finishes (some v, t)) :
    t.phase = .model ∧ t.Disciplined ∧ t.Ordered b ∧ t.Current v := by
  generalize result : (some v, t) = r at h
  cases h with
  | exhausted conflict ending => cases result
  | @model u w propagated decided =>
    cases result
    obtain ⟨ready', deduces, finished, -⟩ := ready.propagate_none propagated
    have returns := drawReturns_of_unbiased (steady.task deduces.moves.task).bias
    obtain ⟨full, frame⟩ := decide_none returns decided
    obtain ⟨-, only⟩ := ready'.total finished full
    have deduced := ordered.of_deduces ready.toDisciplined deduces
    obtain ⟨source, rfl⟩ : ∃ source, w = { u with source := source } := ⟨_, frame⟩
    have current : u.Current (u.valuation.map (·.getD false)) := (only _ (by simp)).mpr rfl
    have drawn : u.Relabels ({ u with source := source } : Search).yield.2 := rfl
    exact ⟨rfl, (ready'.toWellFormed.relabel drawn).toDisciplined, deduced.relabel drawn, current⟩

/-- A call that finds a model finds the first one that is left. -/
theorem Paused.next_ordered (paused : s.Paused) (steady : s.Steady b) (ordered : s.phase = .model → s.Ordered b)
    (found : s.next = (some v, t)) : t.Ordered b ∧ ∀ w, t.Left w → Precedes b v w := by
  have returns := paused.nextReturns steady.bias
  rcases paused.next_cases with ⟨u, enters, equal⟩ | ⟨u, none, -⟩
  · obtain ⟨ready, task, -⟩ := paused.enters enters
    have entered : u.Ordered b := by
      cases enters with
      | root fresh valued =>
        have blank := paused.fresh fresh
        obtain ⟨-, decisions, -⟩ := (valueRoot_spec blank valued).1.wellFormed blank
        simp [Ordered, decisions]
      | resume known flipped => exact (ordered known).of_backtrack paused.toDisciplined flipped
    obtain ⟨w, steps, finishes⟩ := paused.loop_finishes returns enters
    have looped := ready.ordered_iterations (steady.task task) entered steps
    obtain ⟨ready', continues⟩ := ready.iterations steps
    rw [← equal, found] at finishes
    have stands := steady.task (task.trans continues.moves.task)
    obtain ⟨phase', kept, last, current⟩ := ready'.finds stands looped finishes
    refine ⟨last, fun w left => last.precedes kept current ?_⟩
    rwa [Left, phase'] at left
  · cases none.symm.trans found

/-- The models to come, in this order. -/
structure Awaits (b : Bool) (rest : List Valuation) (s : Search) : Prop where
  paused : s.Paused
  steady : s.Steady b
  ordered : s.phase = .model → s.Ordered b
  sorted : rest.Pairwise (Precedes b)
  left : ∀ w, w ∈ rest ↔ w.Models s.clauses s.valuation.size ∧ s.Left w

/-- The model found is the first one to come, and the others come after it. -/
theorem Awaits.found (awaits : s.Awaits b rest) (found : s.next = (some v, t)) :
    ∃ more, rest = v :: more ∧ t.Awaits b more := by
  obtain ⟨paused, steady, ordered, sorted, left⟩ := awaits
  obtain ⟨last, first⟩ := paused.next_ordered steady ordered found
  rcases paused.next_spec (paused.nextReturns steady.bias) with ⟨x, u, result, finds⟩ | ⟨u, none, -⟩
  · obtain ⟨rfl, rfl⟩ : x = v ∧ u = t := by simpa [result] using found
    have here : x ∈ rest := (left x).mpr ⟨finds.model, (finds.remaining x finds.model).mpr (.inl rfl)⟩
    cases rest with
    | nil => cases here
    | cons y more =>
      obtain ⟨least, sorted'⟩ := List.pairwise_cons.mp sorted
      obtain ⟨model, stays⟩ := (left y).mp List.mem_cons_self
      have same : y = x := by
        by_contra differ
        have before := least x ((List.mem_cons.mp here).resolve_left (Ne.symm differ))
        exact before.asymm (first y (((finds.remaining y model).mp stays).resolve_left differ))
      subst same
      refine ⟨more, rfl, finds.paused, steady.task finds.task, fun _ => last, sorted', fun w => ?_⟩
      rw [finds.task.clauses, finds.task.size]
      constructor
      · intro later
        obtain ⟨model', stays'⟩ := (left w).mp (List.mem_cons_of_mem y later)
        refine ⟨model', ((finds.remaining w model').mp stays').resolve_left fun same => ?_⟩
        exact (least w later).asymm (same ▸ least w later)
      · rintro ⟨model', stays'⟩
        have listed := (left w).mpr ⟨model', (finds.remaining w model').mpr (.inr stays')⟩
        exact (List.mem_cons.mp listed).resolve_left fun same => finds.gone (same ▸ stays')
  · cases none.symm.trans found

theorem Awaits.next (awaits : s.Awaits b rest) : s.next.1 = rest.head? ∧ s.next.2.Awaits b rest.tail := by
  rcases awaits.paused.next_spec (awaits.paused.nextReturns awaits.steady.bias) with
    ⟨v, t, result, -⟩ | ⟨t, result, ending⟩
  · obtain ⟨more, rfl, later⟩ := awaits.found result
    rw [result]
    exact ⟨rfl, later⟩
  · have empty : rest = [] := List.eq_nil_iff_forall_not_mem.mpr fun w member => by
      obtain ⟨model, left⟩ := (awaits.left w).mp member
      exact ending.nothing w model left
    subst empty
    rw [result]
    refine ⟨rfl, ending.paused, awaits.steady.task ending.task, ?_, .nil, fun w => ?_⟩
    · rw [ending.phase]
      exact nofun
    · simp [Left, ending.phase]

/-- Once a model was asked for, the other calls do not change which are to come. -/
theorem Awaits.call {c : Call} (awaits : s.Awaits b rest) (late : s.phase ≠ .fresh) (other : c ≠ .next) :
    (s.call c).Awaits b rest := by
  obtain ⟨paused, steady, ordered, sorted, left⟩ := awaits
  cases c with
  | next => exact absurd rfl other
  | propagate =>
    obtain ⟨paused', task, phase, same⟩ := paused.propagate
    refine ⟨paused', steady.task task, fun known => ?_, sorted, fun w => ?_⟩
    · have found : s.phase = .model := phase.symm.trans known
      have idle : s.propagate = (none, s) := propagate_of_done (by simp [(paused.model found).1])
      rw [Search.call, idle]
      exact ordered found
    · rw [Search.call, same, task.clauses, task.size]
      exact left w
  | decide =>
    have returns := drawReturns_of_unbiased steady.bias
    have paused' := paused.decide returns
    rw [Search.call]
    rw [decide_frame returns] at paused' ⊢
    exact ⟨paused', ⟨steady.bias, steady.lean⟩, ordered, sorted, left⟩
  | assumePure =>
    refine ⟨paused.assumePure, ⟨steady.bias, steady.lean⟩, ordered, sorted, fun w => ?_⟩
    rw [Search.call, left_assumePure late]
    exact left w

/-- What later calls give is what is to come after the first model. -/
private theorem answers_next_cons {answers : List (Option Valuation)} {n : Nat}
    (later : answers = (List.range n).map fun i => rest.tail[i]?) :
    rest.head? :: answers = (List.range (n + 1)).map fun i => rest[i]? := by
  rw [later, List.range_succ_eq_map, List.map_cons, List.map_map, List.head?_eq_getElem?]
  simp [Function.comp_def]

/-- So the calls for the next model give the models to come in turn. -/
theorem Awaits.answers (awaits : s.Awaits b rest) (late : s.phase ≠ .fresh) :
    s.answers calls = (List.range (calls.count .next)).map fun i => rest[i]? := by
  induction calls generalizing s rest with
  | nil => rfl
  | cons c calls ih =>
    have later := call_ne_fresh late c
    by_cases isNext : c = .next
    · subst isNext
      obtain ⟨given, awaits'⟩ := awaits.next
      rw [Search.answers, given, List.count_cons_self]
      exact answers_next_cons (ih awaits' later)
    · rw [List.count_cons_of_ne isNext, answers_cons isNext]
      exact ih (awaits.call late isNext) later

end Calls

section Sorted

variable {clauses : Formula} {atoms : Nat} {config : Config} {rest : List Valuation} {calls : List Call}

/-- A search that always decides for `b` gives the models looked for in the order of `b`. -/
theorem answers_sorted (below : clauses.Below atoms) (steady : (start clauses atoms config).Steady b)
    (sorted : rest.Pairwise (Precedes b))
    (listed : ∀ v : Valuation, v ∈ rest ↔ v.Models clauses atoms ∧
      (.assumePure ∈ calls.takeWhile (· ≠ .next) → ∀ l ∈ clauses.pureLiterals, v.holds l = true)) :
    (start clauses atoms config).answers calls = (List.range (calls.count .next)).map fun i => rest[i]? := by
  by_cases asked : .next ∈ calls
  · obtain ⟨early, later, rfl, unasked⟩ := List.eq_append_cons_of_mem asked
    have others : ∀ c ∈ early, c ≠ .next := fun c member same => unasked (same ▸ member)
    rw [List.takeWhile_append_of_pos (by simpa using others), List.takeWhile_cons_of_neg (by simp),
      List.append_nil] at listed
    have paused : (start clauses atoms config).Paused := (blank_start config below).paused rfl
    have fresh : ((start clauses atoms config).after early).phase = .fresh :=
      paused.phase_of_unasked (paused.returns steady.bias early) unasked
    obtain ⟨blank, task, assumptions⟩ := waits_after below fresh
    have awaits : ((start clauses atoms config).after early).Awaits b rest := by
      refine ⟨blank.paused fresh, steady.task task, fun found => ?_, sorted, fun w => ?_⟩
      · cases fresh.symm.trans found
      · have size : (start clauses atoms config).valuation.size = atoms := by simp [start]
        rw [listed, task.clauses, task.size, size, Left, fresh]
        refine and_congr_right fun _ => ⟨fun told l member => ?_, fun all told l member => ?_⟩
        · obtain ⟨told', isPure⟩ := (assumptions l).mp member
          exact told told' l isPure
        · exact all l ((assumptions l).mpr ⟨told, member⟩)
    obtain ⟨first, awaits'⟩ := awaits.next
    rw [answers_append, answers_of_unasked unasked, List.nil_append, List.count_append,
      List.count_eq_zero.mpr unasked, Nat.zero_add, List.count_cons_self, Search.answers, first]
    exact answers_next_cons (awaits'.answers (phase_next _))
  · rw [answers_of_unasked asked, List.count_eq_zero.mpr asked]
    rfl

/-- There is one way to list valuations in lexicographic order. -/
theorem eq_of_sorted {models models' : List Valuation} (increasing : models.Pairwise (· < ·))
    (increasing' : models'.Pairwise (· < ·)) (same : ∀ v, v ∈ models ↔ v ∈ models') : models = models' := by
  have distinct : ∀ {l : List Valuation}, l.Pairwise (· < ·) → l.Nodup := fun sorted =>
    sorted.imp fun {v w} before => by
      rintro rfl
      exact Array.lt_irrefl v before
  have perm := (List.perm_ext_iff_of_nodup (distinct increasing) (distinct increasing')).mpr same
  refine perm.eq_of_pairwise (fun v w _ _ before after => ?_) increasing increasing'
  exact absurd after (Array.lt_asymm before)

/-- The models of a formula in lexicographic order. -/
theorem exists_sorted (f : Formula) (atoms : Nat) :
    ∃ models : List Valuation, models.Pairwise (· < ·) ∧ ∀ v, v ∈ models ↔ v.Models f atoms := by
  let lists : Finset (List Bool) := (f.finite_models atoms).toFinset.image Array.toList
  refine ⟨(lists.sort (· ≤ ·)).map List.toArray, ?_, fun v => ?_⟩
  · exact List.pairwise_map.mpr lists.sortedLT_sort.pairwise
  · simp [lists, Formula.models]

/-- Without a chance of random atoms, and with the chance of true decisions zero or one, the calls for the next
model give the models in lexicographic order or in the reverse of it: all of them, or just those that make the
pure literals true if these were assumed before the first call. Neither the seed nor the calls in between
change this. -/
theorem answers_lexicographic {clauses : Formula} {atoms : Nat} (below : clauses.Below atoms) :
    ∃ models : List Valuation, models.Pairwise (· < ·) ∧ (∀ v, v ∈ models ↔ v.Models clauses atoms) ∧
      ∀ (config : Config) (calls : List Call), config.randomDecisionBias.Never →
        let told := .assumePure ∈ calls.takeWhile (· ≠ .next)
        let sought := if told then models.filter fun v => clauses.pureLiterals.all v.holds else models
        let asked := List.range (calls.count .next)
        (config.polarityChance.Never →
          (start clauses atoms config).answers calls = asked.map fun i => sought[i]?) ∧
        ((config.polarityChance == .one) = true →
          (start clauses atoms config).answers calls = asked.map fun i => sought.reverse[i]?) := by
  obtain ⟨models, increasing, listed⟩ := exists_sorted clauses atoms
  refine ⟨models, increasing, listed, fun config calls never => ?_⟩
  intro told sought asked
  have sorted : sought.Pairwise (· < ·) := by
    by_cases h : told
    · simpa only [sought, if_pos h] using increasing.filter _
    · simpa only [sought, if_neg h] using increasing
  have member : ∀ v, v ∈ sought ↔ v.Models clauses atoms ∧ (told → ∀ l ∈ clauses.pureLiterals, v.holds l = true) := by
    intro v
    by_cases h : told
    · simp only [sought, if_pos h, List.mem_filter, listed, List.all_eq_true, h, forall_const]
    · simp only [sought, if_neg h, listed, h, false_implies, and_true]
  have bias := Probability.impossible_of_never never
  refine ⟨fun isZero => ?_, fun isOne => ?_⟩
  · exact answers_sorted (b := false) below ⟨bias, Probability.impossible_of_never isZero⟩ sorted member
  · have decreasing := List.pairwise_reverse.mpr sorted
    refine answers_sorted (b := true) below ⟨bias, Probability.certain_of_one isOne⟩ decreasing fun v => ?_
    rw [List.mem_reverse]
    exact member v

/-- The four models of two clauses come in order with a seed and a decision in between, and in reverse order
with the chance one; two of them make both pure literals true. -/
theorem answers_lexicographic_implication :
    let clauses : Formula := #[[⟨0, true⟩, ⟨1, true⟩], [⟨1, false⟩, ⟨2, true⟩]]
    (start clauses 3 { seed := 7 }).answers [.next, .decide, .next, .next, .next, .next] =
        [some #[false, true, true], some #[true, false, false], some #[true, false, true], some #[true, true, true],
          none] ∧
      (start clauses 3 { polarityChance := .one }).answers [.next, .next] =
        [some #[true, true, true], some #[true, false, true]] ∧
      (start clauses 3 {}).answers [.assumePure, .next, .next, .next] =
        [some #[true, false, true], some #[true, true, true], none] := by
  intro clauses
  have below : clauses.Below 3 := by
    rw [Formula.Below]
    decide
  have zero : Binary64.zero.Never := .inl (by decide +kernel)
  have one : (Binary64.one == .one) = true := by decide +kernel
  obtain ⟨models, increasing, listed, answers⟩ := answers_lexicographic below
  let four : List Valuation := [#[false, true, true], #[true, false, false], #[true, false, true], #[true, true, true]]
  have same : ∀ v, v ∈ models ↔ v ∈ four := by
    intro v
    rw [listed]
    constructor
    · obtain ⟨values⟩ := v
      rintro ⟨size, satisfied⟩
      obtain ⟨a, b, c, rfl⟩ := List.length_eq_three.mp size
      have first := satisfied [⟨0, true⟩, ⟨1, true⟩] (by simp [clauses])
      have second := satisfied [⟨1, false⟩, ⟨2, true⟩] (by simp [clauses])
      revert a b c
      decide
    · have all : ∀ v ∈ four, v.size = 3 ∧ ∀ c ∈ clauses, v.satisfies c = true := by decide
      exact all v
  have increasing' : four.Pairwise (· < ·) := by
    simp only [← Array.lt_toList]
    decide
  obtain rfl : models = four := eq_of_sorted increasing increasing' same
  refine ⟨((answers { seed := 7 } _ zero).1 zero).trans ?_,
    ((answers { polarityChance := .one } _ zero).2 one).trans ?_, ((answers {} _ zero).1 zero).trans ?_⟩
  · decide +kernel
  · decide +kernel
  · decide +kernel

end Sorted

end Search

end Clausal

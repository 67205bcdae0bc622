import Clausal.Proofs.Calls
import Mathlib.Data.List.TakeWhile

/-!
Unit propagation reaches a least fixpoint. Only the clauses with the negation of a new literal are looked
at, under a valuation that may have later literals of the trail already; still the trail below the head has
all its unit consequences on the trail, and the trail below a decision has them below the decision. Both
survive every flip, so a propagation that ends without a conflict has exactly the closure of the
assumptions and decisions on the trail, in whatever order it came to it. Main statement:
`propagate_closure`.
-/

namespace Clausal

namespace Formula

/-- The literals that some literals have as unit consequences, those of unit clauses included. -/
inductive Closure (f : Formula) (S : Literal → Prop) : Literal → Prop where
  | given {l : Literal} (member : S l) : Closure f S l
  | unit {c : Clause} {l : Literal} (member : c ∈ f) (inside : l ∈ c)
      (others : ∀ m ∈ c, m ≠ l → Closure f S (-m)) : Closure f S l

/-- No two of some literals are complementary, and they falsify no clause. -/
def Coherent (f : Formula) (P : Literal → Prop) : Prop :=
  (∀ l, P l → ¬ P (-l)) ∧ ∀ c ∈ f, ∃ l ∈ c, ¬ P (-l)

/-- The unit consequences of some literals are among others. -/
def Saturates (f : Formula) (below whole : List Literal) : Prop :=
  ∀ c ∈ f, ∀ l ∈ c, (∀ m ∈ c, m ≠ l → -m ∈ below) → l ∈ whole

/-- The same clauses, in any order and each with its literals in any order. -/
def Reorders (f g : Formula) : Prop := (∀ c ∈ f, ∃ d ∈ g, c.Perm d) ∧ ∀ d ∈ g, ∃ c ∈ f, c.Perm d

variable {f g : Formula} {S T P : Literal → Prop} {l : Literal} {atoms : Nat}

theorem unitClosed_closure : f.UnitClosed (f.Closure S) :=
  fun _ member _ inside others => .unit member inside others

/-- Nothing that has the given literals and their unit consequences is less. -/
theorem Closure.least (closed : f.UnitClosed P) (start : ∀ l, S l → P l) (derived : f.Closure S l) : P l := by
  induction derived with
  | given member => exact start _ member
  | unit member inside _ ih => exact closed _ member _ inside ih

theorem Closure.mono (sub : ∀ l, S l → T l) (derived : f.Closure S l) : f.Closure T l :=
  derived.least unitClosed_closure fun l member => .given (sub l member)

theorem Saturates.mono {below below' whole whole' : List Literal} (saturates : f.Saturates below whole)
    (less : ∀ l ∈ below', l ∈ below) (more : ∀ l ∈ whole, l ∈ whole') : f.Saturates below' whole' :=
  fun c member l inside others =>
    more l (saturates c member l inside fun m there different => less _ (others m there different))

theorem Reorders.symm (reorders : f.Reorders g) : g.Reorders f := by
  refine ⟨fun d member => ?_, fun c member => ?_⟩
  · obtain ⟨c, there, perm⟩ := reorders.2 d member
    exact ⟨c, there, perm.symm⟩
  · obtain ⟨d, there, perm⟩ := reorders.1 c member
    exact ⟨d, there, perm.symm⟩

theorem Reorders.below (reorders : f.Reorders g) (below : f.Below atoms) : g.Below atoms := by
  intro d member l inside
  obtain ⟨c, there, perm⟩ := reorders.2 d member
  exact below c there l (perm.mem_iff.mpr inside)

theorem Reorders.nodup (reorders : f.Reorders g) (distinct : ∀ c ∈ f, c.Nodup) : ∀ d ∈ g, d.Nodup := by
  intro d member
  obtain ⟨c, there, perm⟩ := reorders.2 d member
  exact perm.nodup_iff.mp (distinct c there)

theorem Reorders.closure (reorders : f.Reorders g) (derived : f.Closure S l) : g.Closure S l := by
  refine derived.least (fun c member l inside others => ?_) fun l given => .given given
  obtain ⟨d, there, perm⟩ := reorders.1 c member
  exact .unit there (perm.mem_iff.mp inside) fun m listed different =>
    others m (perm.mem_iff.mpr listed) different

/-- The order of clauses and of the literals in them does not matter to what follows, nor does it matter
how the given literals are described. -/
theorem Reorders.closure_iff (reorders : f.Reorders g) (same : ∀ l, T l ↔ S l) :
    g.Closure T l ↔ f.Closure S l :=
  ⟨fun derived => (reorders.symm.closure derived).mono fun l => (same l).mp,
    fun derived => (reorders.closure derived).mono fun l => (same l).mpr⟩

theorem Reorders.coherent (reorders : f.Reorders g) {Q : Literal → Prop} (same : ∀ l, Q l ↔ P l)
    (coherent : f.Coherent P) : g.Coherent Q := by
  refine ⟨fun l derived opposite => coherent.1 l ((same l).mp derived) ((same _).mp opposite), fun d member => ?_⟩
  obtain ⟨c, there, perm⟩ := reorders.2 d member
  obtain ⟨l, inside, absent⟩ := coherent.2 c there
  exact ⟨l, perm.mem_iff.mp inside, fun derived => absent ((same _).mp derived)⟩

end Formula

/-- Valuations of the same atoms with the same true literals are the same. -/
theorem PartialValuation.eq_of_literal? {v w : PartialValuation} (size : v.size = w.size)
    (same : ∀ l, v.literal? l = some true ↔ w.literal? l = some true) : v = w := by
  have value : ∀ (u : PartialValuation) (a : Atom) (b : Bool), u.literal? ⟨a, b⟩ = some true ↔ u[a]?.join = some b := by
    intro u a b
    rw [literal?, value?]
    cases u[a]?.join with
    | none => simp
    | some o => simp
  refine Array.ext size fun a inside inside' => Option.ext fun b => ?_
  have equal := same ⟨a, b⟩
  rw [value, value, Array.getElem?_eq_getElem inside, Array.getElem?_eq_getElem inside'] at equal
  exact equal

namespace Search

variable {s t u : Search} {A : Literal → Prop} {l : Literal} {positions : List Nat}

section Saturation

/-- A clause that was looked at without a conflict has its unit consequence on the trail. -/
theorem examine_saturates (formed : s.WellFormed) (distinct : ∀ c ∈ s.clauses, c.Nodup)
    (h : s.examine positions = (none, t)) :
    ∀ i ∈ positions, ∀ l ∈ s.clauseAt i, (∀ m ∈ s.clauseAt i, m ≠ l → -m ∈ s.path) → l ∈ t.path := by
  fun_induction examine s positions with
  | case1 => simp
  | case2 s i rest k asserts ih =>
    obtain ⟨step, kept⟩ := deduces_deduce formed asserts
    have formed' := formed.of_deduces step kept
    have distinct' : ∀ c ∈ (s.deduce k).clauses, c.Nodup := step.clauses ▸ distinct
    obtain ⟨-, deduces, -⟩ := examine_none formed' h
    intro j member l inside others
    rcases List.mem_cons.mp member with rfl | later
    · obtain ⟨there, free, -⟩ := Clause.asserts?_some asserts
      have same : k = l := by
        by_contra different
        exact ((PartialValuation.literal?_eq_none_iff formed.records.lists).mp free).2 (others k there different)
      have valued := PartialValuation.free_of_literal? (formed.below _ (clauseAt_mem there) k there) free
      have listed : k ∈ (s.deduce k).path := by simp [deduce_of_free valued]
      exact deduces.grows.subset (same ▸ listed)
    · have clause : (s.deduce k).clauseAt j = s.clauseAt j := by rw [clauseAt, step.clauses, clauseAt]
      refine ih formed' distinct' h j later l (clause ▸ inside) fun m there different => ?_
      exact step.grows.subset (others m (clause ▸ there) different)
  | case3 => cases h
  | case4 s i rest nothing notFalsified ih =>
    obtain ⟨-, deduces, -⟩ := examine_none formed h
    intro j member l inside others
    rcases List.mem_cons.mp member with rfl | later
    · have isFalse : ∀ m ∈ s.clauseAt j, m ≠ l → s.valuation.literal? m = some false := fun m there different =>
        (PartialValuation.literal?_eq_false_iff formed.records.lists).mpr (others m there different)
      cases value : s.valuation.literal? l with
      | none =>
        rw [Clause.asserts?_of_distinct (distinct _ (clauseAt_mem inside)) inside value isFalse] at nothing
        cases nothing
      | some b =>
        cases b with
        | true =>
          exact deduces.grows.subset ((PartialValuation.literal?_eq_true_iff formed.records.lists).mp value)
        | false =>
          refine absurd ((Clause.falsified_iff formed.records.lists).mpr fun m there => ?_) notFalsified
          by_cases same : m = l
          · exact (PartialValuation.literal?_eq_false_iff formed.records.lists).mp (same ▸ value)
          · exact others m there same
    · exact ih formed distinct h j later l inside others

/-- If the literals below the head have their unit consequences on the trail, all have them at its end: a
clause without the negation of the next literal gives nothing new, and one with it is looked at. -/
theorem propagate_saturates (formed : s.WellFormed) (distinct : ∀ c ∈ s.clauses, c.Nodup)
    (front : s.clauses.Saturates (s.path.take s.head) s.path) (h : s.propagate = (none, t)) :
    t.clauses.Saturates t.path t.path := by
  fun_induction propagate s with
  | case1 s done =>
    have finished : s.path.length ≤ s.head := by simpa using done
    cases h
    rwa [List.take_of_length_le finished] at front
  | case2 => cases h
  | case3 s p pending s' examined ih =>
    obtain ⟨formed₁, step⟩ := advance formed pending
    obtain ⟨kept, deduces, clear⟩ := examine_none formed₁ examined
    have onPath : s.path[s.head]? = some p := by simpa using pending
    have inside := (List.getElem?_eq_some_iff.mp onPath).1
    have clauses : s'.clauses = s.clauses := deduces.clauses
    have head : s'.head = s.head + 1 := by
      simpa [examined] using (examine_keeps { s with head := s.head + 1 } (s.opposing p)).2.2
    have grows : s.path <+: s'.path := deduces.grows
    have taken : s'.path.take (s.head + 1) = s.path.take s.head ++ [p] := by
      rw [take_of_deduces (s := { s with head := s.head + 1 }) deduces inside, List.take_add_one, onPath]
      rfl
    refine ih (formed₁.of_deduces deduces kept) (clauses ▸ distinct) ?_ h
    rw [clauses, head, taken]
    intro c member l there others
    by_cases opposed : -p ∈ c
    · obtain ⟨i, found⟩ := Array.mem_iff_getElem?.mp member
      have position := (mem_opposing formed (List.mem_of_getElem? onPath) i).mpr ⟨c, found, opposed⟩
      have same : clauseAt { s with head := s.head + 1 } i = c := by simp [clauseAt, found]
      have looked := examine_saturates formed₁ distinct examined i position
      rw [same] at looked
      refine looked l there fun m listed different => ?_
      rcases List.mem_append.mp (others m listed different) with before | last
      · exact List.mem_of_mem_take before
      · rw [List.mem_singleton.mp last]
        exact List.mem_of_getElem? onPath
    · refine grows.subset (front c member l there fun m listed different => ?_)
      rcases List.mem_append.mp (others m listed different) with before | last
      · exact before
      · rw [← List.mem_singleton.mp last, Literal.neg_neg] at opposed
        exact absurd listed opposed

end Saturation

section Layers

/-- A literal is assumed, or decided. -/
def Given (s : Search) (A : Literal → Prop) (l : Literal) : Prop := A l ∨ ∃ d ∈ s.decisions, d.literal = l

/-- A literal is assumed, or decided before the trail had a length. -/
def GivenBelow (s : Search) (A : Literal → Prop) (k : Nat) (l : Literal) : Prop :=
  A l ∨ ∃ d ∈ s.decisions, d.trailLength < k ∧ d.literal = l

/-- The decisions divide the trail into layers. Below each decision stand the assumptions, and with them all
unit consequences of what stands there; every part of the trail follows from the assumptions and from the
decisions in it. -/
structure Layered (A : Literal → Prop) (s : Search) : Prop where
  settled : ∀ d ∈ s.decisions, s.clauses.Saturates (s.path.take d.trailLength) (s.path.take d.trailLength)
  assumed : ∀ l, A l → l ∈ s.path ∧ ∀ d ∈ s.decisions, l ∈ s.path.take d.trailLength
  follows : ∀ k, ∀ l ∈ s.path.take k, s.clauses.Closure (s.GivenBelow A k) l

/-- What holds whenever an iteration of the loop starts: the trail is in layers, and the literals below the
head have all their unit consequences on it. -/
structure Founded (A : Literal → Prop) (s : Search) : Prop extends Ready s, Layered A s where
  distinct : ∀ c ∈ s.clauses, c.Nodup
  front : s.clauses.Saturates (s.path.take s.head) s.path

theorem GivenBelow.mono {k n : Nat} (le : k ≤ n) (given : s.GivenBelow A k l) : s.GivenBelow A n l := by
  rcases given with assumed | ⟨d, member, below, same⟩
  · exact .inl assumed
  · exact .inr ⟨d, member, Nat.lt_of_lt_of_le below le, same⟩

theorem Layered.relabel (layered : Layered A s) (h : s.Relabels t) : Layered A t := by
  rw [h]
  exact ⟨layered.settled, layered.assumed, layered.follows⟩

theorem Founded.relabel (founded : Founded A s) (h : s.Relabels t) : Founded A t := by
  have formed := founded.toWellFormed.relabel h
  have layered := founded.toLayered.relabel h
  rw [h] at formed layered ⊢
  exact ⟨⟨formed, founded.passed, founded.clean⟩, layered, founded.distinct, founded.front⟩

/-- What was deduced follows from all the decisions. -/
theorem Layered.of_deduces (layered : Layered A s) (kept : s.Disciplined) (deduces : s.Deduces t) :
    Layered A t := by
  have same : ∀ d ∈ s.decisions, t.path.take d.trailLength = s.path.take d.trailLength :=
    fun d member => take_of_deduces deduces (Nat.le_of_lt (kept.decision_lt member))
  refine ⟨?_, fun l assumed => ?_, fun k => ?_⟩
  · rw [deduces.decisions, deduces.clauses]
    intro d member
    rw [same d member]
    exact layered.settled d member
  · obtain ⟨listed, below⟩ := layered.assumed l assumed
    rw [deduces.decisions]
    exact ⟨deduces.grows.subset listed, fun d member => same d member ▸ below d member⟩
  · have given : t.GivenBelow A k = s.GivenBelow A k := by
      unfold GivenBelow
      rw [deduces.decisions]
    rw [given, deduces.clauses]
    rcases Nat.le_total k s.path.length with inside | beyond
    · rw [take_of_deduces deduces inside]
      exact layered.follows k
    · intro l listed
      refine deduces.follows _ Formula.unitClosed_closure (fun m before => ?_) l (List.mem_of_mem_take listed)
      refine (layered.follows s.path.length m (by rwa [List.take_length])).mono fun _ => GivenBelow.mono beyond

/-- A decision in place of all that stands from some place on makes a layer of what stands below, if that has
the assumptions and all its unit consequences. -/
theorem Layered.push (layered : Layered A s) {k : Nat} (inside : k ≤ s.path.length) {l : Literal} {flipped : Bool}
    {earlier : List Decision} (clauses : t.clauses = s.clauses) (path : t.path = s.path.take k ++ [l])
    (decisions : t.decisions = ⟨k, l, flipped⟩ :: earlier)
    (kept : ∀ d, d ∈ earlier ↔ d ∈ s.decisions ∧ d.trailLength < k)
    (saturated : s.clauses.Saturates (s.path.take k) (s.path.take k)) (assumed : ∀ m, A m → m ∈ s.path.take k) :
    Layered A t := by
  have taken : ∀ {n}, n ≤ k → t.path.take n = s.path.take n := fun le => by
    rw [path, List.take_append_of_le_length (by rwa [List.length_take, Nat.min_eq_left inside]), List.take_take,
      Nat.min_eq_left le]
  refine ⟨?_, fun m holds => ⟨by simp [path, assumed m holds], ?_⟩, fun n => ?_⟩
  · rw [clauses, decisions]
    intro d member
    rcases List.mem_cons.mp member with rfl | before
    · rwa [taken (Nat.le_refl k)]
    · obtain ⟨old, below⟩ := (kept d).mp before
      rw [taken (Nat.le_of_lt below)]
      exact layered.settled d old
  · rw [decisions]
    intro d member
    rcases List.mem_cons.mp member with rfl | before
    · rw [taken (Nat.le_refl k)]
      exact assumed m holds
    · obtain ⟨old, below⟩ := (kept d).mp before
      rw [taken (Nat.le_of_lt below)]
      exact (layered.assumed m holds).2 d old
  · have given : ∀ {j}, j ≤ k → ∀ m, s.GivenBelow A j m → t.GivenBelow A j m := by
      rintro j le m (holds | ⟨d, member, below, same⟩)
      · exact .inl holds
      · refine .inr ⟨d, ?_, below, same⟩
        rw [decisions]
        exact List.mem_cons_of_mem _ ((kept d).mpr ⟨member, Nat.lt_of_lt_of_le below le⟩)
    rw [clauses]
    intro m listed
    rcases Nat.lt_or_ge k n with beyond | le
    · have either := List.mem_of_mem_take listed
      rw [path] at either
      rcases List.mem_append.mp either with before | last
      · exact (layered.follows k m before).mono fun o known =>
          (given (Nat.le_refl k) o known).mono (Nat.le_of_lt beyond)
      · refine .given (.inr ⟨⟨k, l, flipped⟩, ?_, beyond, (List.mem_singleton.mp last).symm⟩)
        rw [decisions]
        exact List.mem_cons_self
    · rw [taken le] at listed
      exact (layered.follows n m listed).mono (given le)

/-- A flip puts the opposite decision in the place of its decision, which all earlier ones stand below. -/
theorem Layered.of_flips (layered : Layered A s) (kept : s.Disciplined) {popped earlier : List Decision}
    {d : Decision} (split : s.decisions = popped ++ d :: earlier) (flips : s.Flips d earlier t) :
    Layered A t := by
  have member : d ∈ s.decisions := by simp [split]
  have stacked := kept.stacked
  rw [split] at stacked
  obtain ⟨-, top, above⟩ := List.pairwise_append.mp stacked
  refine layered.push (Nat.le_of_lt (kept.decision_lt member)) flips.moves.task.clauses flips.path flips.decisions
    (fun e => ⟨fun before => ?_, fun ⟨listed, below⟩ => ?_⟩) (layered.settled d member)
    fun m assumed => (layered.assumed m assumed).2 d member
  · exact ⟨by simp [split, before], List.rel_of_pairwise_cons top before⟩
  · rw [split] at listed
    rcases List.mem_append.mp listed with later | rest
    · have order := above e later d List.mem_cons_self
      omega
    · rcases List.mem_cons.mp rest with rfl | before
      · omega
      · exact before

/-- A decision stands above a trail that is propagated. -/
theorem Layered.branch (layered : Layered A s) (kept : s.Disciplined)
    (saturated : s.clauses.Saturates s.path s.path) (free : s.valuation[l.atom]? = some none) :
    Layered A (s.branch l) := by
  refine layered.push (Nat.le_refl _) (by rw [branch_of_free free]) (by rw [path_branch free, List.take_length])
    (decisions_branch free) (fun d => ?_) (by rwa [List.take_length]) fun m assumed => ?_
  · exact ⟨fun member => ⟨member, kept.decision_lt member⟩, And.left⟩
  · rw [List.take_length]
    exact (layered.assumed m assumed).1

end Layers

section Loop

/-- Propagation without a conflict goes to the end of the trail. -/
theorem Founded.propagate_none (founded : Founded A s) (h : s.propagate = (none, t)) :
    Founded A t ∧ s.Deduces t ∧ t.head = t.path.length := by
  obtain ⟨ready, deduces, finished, -⟩ := founded.toReady.propagate_none h
  have saturated := propagate_saturates founded.toWellFormed founded.distinct founded.front h
  refine ⟨⟨ready, founded.toLayered.of_deduces founded.toDisciplined deduces, ?_, ?_⟩, deduces, finished⟩
  · exact deduces.clauses ▸ founded.distinct
  · rwa [finished, List.take_length]

/-- A flip restarts the head where the trail was propagated before. -/
theorem Layered.backtrack_true (layered : Layered A s) (formed : s.WellFormed) (distinct : ∀ c ∈ s.clauses, c.Nodup)
    {k : Nat} (passed : ∀ d ∈ s.decisions, d.trailLength ≤ k) (clean : s.Clean k)
    (h : s.backtrack = (true, t)) : Founded A t ∧ s.Moves t := by
  obtain ⟨ready, moves, -⟩ := formed.backtrack_true passed clean h
  obtain ⟨popped, d, earlier, split, -, -, flips⟩ :=
    backtrackOver_true formed.records formed.stacked formed.placed h
  have member : d ∈ s.decisions := by simp [split]
  have clauses : t.clauses = s.clauses := moves.task.clauses
  refine ⟨⟨ready, layered.of_flips formed.toDisciplined split flips, clauses ▸ distinct, ?_⟩, moves⟩
  rw [clauses, flips.head, take_of_flips flips (Nat.le_of_lt (formed.decision_lt member)) (Nat.le_refl _)]
  refine (layered.settled d member).mono (fun _ listed => listed) fun l listed => ?_
  rw [flips.path]
  exact List.mem_append_left _ listed

/-- Step lemma of the loop. -/
theorem Founded.iteration (founded : Founded A s) (step : Iteration s t) : Founded A t := by
  cases step with
  | @flip u _ _ conflict flipped =>
    obtain ⟨formed, deduces, clean, passed, -⟩ := founded.toReady.propagate_some conflict
    have layered := founded.toLayered.of_deduces founded.toDisciplined deduces
    have distinct : ∀ c ∈ u.clauses, c.Nodup := deduces.clauses ▸ founded.distinct
    exact ((layered.relabel (t := u.countConflict) rfl).backtrack_true (formed.relabel rfl) distinct passed clean
      flipped).1
  | @branch u w l propagated decided =>
    obtain ⟨founded', -, finished⟩ := founded.propagate_none propagated
    obtain ⟨free, frame⟩ := decide_some decided
    have relabels : u.Relabels w := by rw [frame]; rfl
    have finished' : w.head = w.path.length := by rw [frame]; exact finished
    have free' : w.valuation[l.atom]? = some none := by rw [frame]; exact free
    have relabelled := founded'.relabel relabels
    have saturated := relabelled.front
    rw [finished', List.take_length] at saturated
    obtain ⟨ready, moves, -⟩ := relabelled.toReady.branch finished' free'
    have clauses : (w.branch l).clauses = w.clauses := moves.task.clauses
    refine ⟨ready, relabelled.toLayered.branch relabelled.toDisciplined saturated free',
      clauses ▸ relabelled.distinct, ?_⟩
    have head : (w.branch l).head = w.path.length := by rw [branch_of_free free']; exact finished'
    rw [clauses, head, take_branch free' (Nat.le_refl _), List.take_length]
    refine saturated.mono (fun _ listed => listed) fun m listed => ?_
    rw [path_branch free']
    exact List.mem_append_left _ listed

/-- Run lemma of the loop. -/
theorem Founded.iterations (founded : Founded A s) (steps : Iterations s t) : Founded A t := by
  induction steps with
  | refl => exact founded
  | tail _ step ih => exact ih.iteration step

/-- A loop that ends with a model leaves its trail propagated. -/
theorem Founded.settle (founded : Founded A s) (found : s.settle.2.phase = .model) :
    Founded A s.settle.2 ∧ s.settle.2.head = s.settle.2.path.length ∧ s.SameTask s.settle.2 := by
  fun_induction Search.settle s with
  | case1 s i t conflict u flipped ih =>
    have step : Iteration s u := .flip conflict flipped
    obtain ⟨last, finished, task⟩ := ih (founded.iteration step) found
    exact ⟨last, finished, (founded.toReady.iteration step).2.moves.task.trans task⟩
  | case2 => cases found
  | case3 s t propagated l u decided within ih =>
    have step : Iteration s (u.branch l) := .branch propagated decided
    obtain ⟨last, finished, task⟩ := ih (founded.iteration step) found
    exact ⟨last, finished, (founded.toReady.iteration step).2.moves.task.trans task⟩
  | case4 => cases found
  | case5 s t propagated u decided stalled => cases stalled.symm.trans found
  | case6 s t propagated u decided running =>
    obtain ⟨founded', deduces, finished⟩ := founded.propagate_none propagated
    have returns : t.DrawReturns := drawReturns_of_decide (by rw [decided]; exact running)
    obtain ⟨-, frame⟩ := decide_none returns decided
    have relabels : t.Relabels u.yield.2 := by rw [frame]; rfl
    refine ⟨founded'.relabel relabels, ?_, deduces.moves.task.relabel relabels⟩
    rw [frame]
    exact finished

end Loop

section Run

variable {clauses : Formula} {atoms : Nat} {config : Config} {calls : List Call}

/-- The literals that are assumed in calls for the next model, after some calls: the pure ones, if the search
was told so before the first call for the next model. -/
def InForce (clauses : Formula) (calls : List Call) (l : Literal) : Prop :=
  .assumePure ∈ calls.takeWhile (· ≠ .next) ∧ l ∈ clauses.pureLiterals

/-- What holds of a search that has found a model: it is told nothing new any more, and its trail is
propagated. -/
structure Rests (first : Search) (calls : List Call) (s : Search) : Prop
    extends Founded (InForce first.clauses calls) s where
  task : first.SameTask s
  finished : s.head = s.path.length
  begun : .next ∈ calls

/-- A valued root has no layers, and the literals of unit clauses on it. -/
theorem Blank.founded (blank : s.Blank) (fresh : s.phase = .fresh) (distinct : ∀ c ∈ s.clauses, c.Nodup)
    (assumptions : ∀ l, l ∈ s.assumptions ↔ A l) (valued : s.valueRoot = (true, t)) : Founded A t := by
  obtain ⟨ready, task, -⟩ := (blank.paused fresh).enters (.root fresh valued)
  obtain ⟨roots, success, -⟩ := valueRoot_spec blank valued
  obtain ⟨-, listed⟩ := success rfl
  obtain ⟨-, decisions, head⟩ := roots.wellFormed blank
  refine ⟨ready, ⟨by simp [decisions], fun l assumed => ?_, fun k l taken => ?_⟩, task.clauses ▸ distinct, ?_⟩
  · exact ⟨listed l (.inr ((assumptions l).mpr assumed)), by simp [decisions]⟩
  · rcases roots.only l (List.mem_of_mem_take taken) with isUnit | assumed
    · refine .unit (task.clauses ▸ isUnit) (List.mem_singleton_self l) fun m member different => ?_
      exact absurd (List.mem_singleton.mp member) different
    · exact .given (.inl ((assumptions l).mp assumed))
  · rw [head, task.clauses]
    intro c member l inside others
    have only : ∀ m ∈ c, m = l := fun m there => by_contra fun different => by simpa using others m there different
    have isUnit : c = [l] := by
      refine List.perm_singleton.mp ((List.perm_ext_iff_of_nodup (distinct c member) (by simp)).mpr fun m => ?_)
      rw [List.mem_singleton]
      exact ⟨only m, fun same => same ▸ inside⟩
    exact listed l (.inl (isUnit ▸ member))

/-- A fresh search was not asked for a model. -/
theorem next_not_mem (s : Search) (fresh : (s.after calls).phase = .fresh) : .next ∉ calls := by
  induction calls using List.reverseRecOn with
  | nil => simp
  | append_singleton calls c ih =>
    rw [after_concat] at fresh
    have earlier := ih (by_contra fun late => call_ne_fresh late c fresh)
    cases c with
    | next => exact absurd fresh (phase_next _)
    | propagate => simpa using earlier
    | decide => simpa using earlier
    | assumePure => simpa using earlier

/-- Without a call for the next model all calls come before it. -/
theorem takeWhile_eq_self (unasked : .next ∉ calls) : calls.takeWhile (· ≠ .next) = calls :=
  List.takeWhile_eq_self_iff.mpr fun c member =>
    decide_eq_true fun same : c = .next => unasked (same ▸ member)

/-- From the first call for the next model on, no call changes what is assumed. -/
theorem inForce_concat {c : Call} (late : c = .next ∨ .next ∈ calls) :
    InForce clauses (calls ++ [c]) = InForce clauses calls := by
  have same : (calls ++ [c]).takeWhile (· ≠ .next) = calls.takeWhile (· ≠ .next) := by
    rw [List.takeWhile_append]
    by_cases begun : .next ∈ calls
    · refine if_neg fun whole => ?_
      have unasked := List.takeWhile_eq_self_iff.mp ((List.takeWhile_prefix _).eq_of_length whole) _ begun
      simp at unasked
    · rw [late.resolve_right begun, takeWhile_eq_self begun, if_pos rfl]
      simp
  unfold InForce
  rw [same]

/-- The loop of a call starts with its trail in layers. -/
theorem founded_of_enters (below : clauses.Below atoms) (distinct : ∀ c ∈ clauses, c.Nodup)
    (rests : ((start clauses atoms config).after calls).phase = .model →
      Rests (start clauses atoms config) calls ((start clauses atoms config).after calls))
    (enters : ((start clauses atoms config).after calls).Enters t) :
    Founded (InForce clauses calls) t ∧ (start clauses atoms config).SameTask t := by
  cases enters with
  | root fresh valued =>
    obtain ⟨blank, task, assumptions⟩ := waits_after below fresh
    have distinct' : ∀ c ∈ ((start clauses atoms config).after calls).clauses, c.Nodup := task.clauses ▸ distinct
    refine ⟨blank.founded fresh distinct' (fun l => ?_) valued, task.trans (valueRoot_spec blank valued).1.task⟩
    rw [assumptions, InForce, takeWhile_eq_self (next_not_mem _ fresh)]
    rfl
  | resume found flipped =>
    have rested := rests found
    obtain ⟨founded, moves⟩ := rested.toLayered.backtrack_true rested.toWellFormed rested.distinct rested.passed
      rested.clean flipped
    exact ⟨founded, rested.task.trans moves.task⟩

/-- A call that finds a model comes to the loop. -/
theorem enters_of_next (found : s.next.2.phase = .model) : ∃ t, s.Enters t ∧ s.next = t.settle := by
  unfold next at found ⊢
  split at found
  · next ending => cases ending.symm.trans found
  · next ending => cases ending.symm.trans found
  · next resumed =>
    split at found
    · next t flipped => exact ⟨t, .resume resumed flipped, rfl⟩
    · cases found
  · next fresh =>
    split at found
    · next t valued => exact ⟨t, .root fresh valued, rfl⟩
    · cases found

/-- Run lemma, by induction on the calls: between calls a model rests. -/
theorem rests_after (below : clauses.Below atoms) (distinct : ∀ c ∈ clauses, c.Nodup)
    (found : ((start clauses atoms config).after calls).phase = .model) :
    Rests (start clauses atoms config) calls ((start clauses atoms config).after calls) := by
  induction calls using List.reverseRecOn with
  | nil => cases found
  | append_singleton calls c ih =>
    rw [after_concat] at found ⊢
    cases c with
    | next =>
      obtain ⟨u, enters, equal⟩ := enters_of_next found
      obtain ⟨founded, entered⟩ := founded_of_enters below distinct ih enters
      rw [call, equal] at found ⊢
      obtain ⟨last, finished, task⟩ := founded.settle found
      refine ⟨?_, entered.trans task, finished, by simp⟩
      rw [inForce_concat (.inl rfl)]
      exact last
    | propagate =>
      have rested := ih ((phase_propagate _).symm.trans found)
      have done := propagate_of_done (s := (start clauses atoms config).after calls) (by simp [rested.finished])
      rw [call, done]
      refine ⟨?_, rested.task, rested.finished, by simp [rested.begun]⟩
      rw [inForce_concat (.inr rested.begun)]
      exact rested.toFounded
    | decide =>
      have returns : ((start clauses atoms config).after calls).DrawReturns :=
        drawReturns_of_decide fun stalled => by cases found.symm.trans stalled
      rw [call, decide_frame returns] at found ⊢
      have rested := ih found
      refine ⟨?_, rested.task.relabel rfl, rested.finished, by simp [rested.begun]⟩
      rw [inForce_concat (.inr rested.begun)]
      exact rested.toFounded.relabel rfl
    | assumePure =>
      have rested := ih found
      refine ⟨?_, rested.task.relabel rfl, rested.finished, by simp [rested.begun]⟩
      rw [inForce_concat (.inr rested.begun)]
      exact rested.toFounded.relabel rfl

/-- A fresh search propagates its valued root first. -/
theorem rounds_root (fresh : s.phase = .fresh) (valued : s.valueRoot.1 = true) : s.Rounds s.valueRoot.2 :=
  ⟨_, .root fresh (Prod.ext valued rfl), .refl⟩

theorem Rounds.branch (rounds : s.Rounds t) (peaceful : t.propagate.1 = none)
    (decided : t.propagate.2.decide.1 = some l) : s.Rounds (t.propagate.2.decide.2.branch l) := by
  obtain ⟨u, enters, steps⟩ := rounds
  exact ⟨u, enters, steps.tail (.branch (Prod.ext peaceful rfl) (Prod.ext decided rfl))⟩

theorem Rounds.flip {i : Nat} (rounds : s.Rounds t) (conflict : t.propagate.1 = some i)
    (flipped : t.propagate.2.countConflict.backtrack.1 = true) :
    s.Rounds t.propagate.2.countConflict.backtrack.2 := by
  obtain ⟨u, enters, steps⟩ := rounds
  exact ⟨u, enters, steps.tail (.flip (Prod.ext conflict rfl) (Prod.ext flipped rfl))⟩

/-- Every propagation in a call for the next model starts with the trail in layers. -/
theorem founded_of_rounds (below : clauses.Below atoms) (distinct : ∀ c ∈ clauses, c.Nodup)
    (rounds : ((start clauses atoms config).after calls).Rounds t) :
    Founded (InForce clauses calls) t ∧ (start clauses atoms config).SameTask t := by
  obtain ⟨u, enters, steps⟩ := rounds
  obtain ⟨founded, task⟩ := founded_of_enters below distinct (rests_after below distinct) enters
  exact ⟨founded.iterations steps, task.trans (founded.toReady.iterations steps).2.moves.task⟩

end Run

section Fixpoint

/-- What propagation puts on the trail follows from what is given. -/
theorem Founded.closure_of_mem (founded : Founded A s) (deduces : s.Deduces t) (listed : l ∈ t.path) :
    s.clauses.Closure (s.Given A) l := by
  refine deduces.follows _ Formula.unitClosed_closure (fun m before => ?_) l listed
  have derived := founded.follows s.path.length m (by rwa [List.take_length])
  refine derived.mono fun n given => ?_
  rcases given with assumed | ⟨d, member, -, same⟩
  · exact .inl assumed
  · exact .inr ⟨d, member, same⟩

/-- Without a conflict it puts all of that on the trail. -/
theorem Founded.mem_iff_closure (founded : Founded A s) (h : s.propagate = (none, t)) :
    l ∈ t.path ↔ s.clauses.Closure (s.Given A) l := by
  obtain ⟨last, deduces, finished⟩ := founded.propagate_none h
  refine ⟨founded.closure_of_mem deduces, fun derived => ?_⟩
  have saturated := last.front
  rw [finished, List.take_length, deduces.clauses] at saturated
  refine derived.least (P := (· ∈ t.path)) saturated fun m given => deduces.grows.subset ?_
  rcases given with assumed | ⟨d, member, rfl⟩
  · exact (founded.assumed m assumed).1
  · exact List.mem_of_getElem? (founded.placed d member)

/-- There is a conflict just if what follows is incoherent. -/
theorem Founded.propagate_eq_none_iff (founded : Founded A s) :
    s.propagate.1 = none ↔ s.clauses.Coherent (s.clauses.Closure (s.Given A)) := by
  rcases h : s.propagate with ⟨_ | i, t⟩
  · refine iff_of_true rfl ⟨fun l derived opposite => ?_, fun c member => ?_⟩
    · rw [← founded.mem_iff_closure h] at derived opposite
      exact (founded.propagate_none h).1.records.consistent derived opposite
    · obtain ⟨last, deduces, finished⟩ := founded.propagate_none h
      obtain ⟨l, inside, absent⟩ := last.clean c (deduces.clauses ▸ member)
      rw [finished, List.take_length, founded.mem_iff_closure h] at absent
      exact ⟨l, inside, absent⟩
  · refine iff_of_false (by simp) fun coherent => ?_
    obtain ⟨-, deduces, c, found, falsified⟩ := propagate_some founded.toWellFormed h
    obtain ⟨l, inside, absent⟩ := coherent.2 c (Array.mem_of_getElem? found)
    exact absent (founded.closure_of_mem deduces (falsified l inside))

/-- So the true literals are those that follow. -/
theorem Founded.literal?_eq_true_iff (founded : Founded A s) (peaceful : s.propagate.1 = none) :
    s.propagate.2.valuation.literal? l = some true ↔ s.clauses.Closure (s.Given A) l := by
  have h : s.propagate = (none, s.propagate.2) := by rw [← peaceful]
  rw [PartialValuation.literal?_eq_true_iff (founded.propagate_none h).1.records.lists]
  exact founded.mem_iff_closure h

/-- A conflict is a clause that is false. -/
theorem Founded.falsified (founded : Founded A s) {i : Nat} (conflict : s.propagate.1 = some i) :
    ∃ c, s.clauses[i]? = some c ∧ ∀ l ∈ c, s.propagate.2.valuation.literal? l = some false := by
  have h : s.propagate = (some i, s.propagate.2) := by rw [← conflict]
  obtain ⟨formed, -, c, found, falsified⟩ := propagate_some founded.toWellFormed h
  exact ⟨c, found, fun l inside =>
    (PartialValuation.literal?_eq_false_iff formed.records.lists).mpr (falsified l inside)⟩

/-- Two searches through the same clauses, in whatever order, that have the same literals given propagate to
the same end. -/
theorem Founded.propagate_congr {B : Literal → Prop} (first : Founded A s) (second : Founded B t)
    (reorders : s.clauses.Reorders t.clauses) (size : t.valuation.size = s.valuation.size)
    (same : ∀ l, t.Given B l ↔ s.Given A l) : (t.propagate.1 = none ↔ s.propagate.1 = none) ∧
      (s.propagate.1 = none → t.propagate.2.valuation = s.propagate.2.valuation) := by
  have closure := fun l => reorders.closure_iff (l := l) same
  have peaceful : t.propagate.1 = none ↔ s.propagate.1 = none := by
    rw [first.propagate_eq_none_iff, second.propagate_eq_none_iff]
    exact ⟨reorders.symm.coherent fun l => (closure l).symm, reorders.coherent closure⟩
  refine ⟨peaceful, fun none => PartialValuation.eq_of_literal? ?_ fun l => ?_⟩
  · rw [(propagate_keeps t).2, (propagate_keeps s).2, size]
  · rw [first.literal?_eq_true_iff none, second.literal?_eq_true_iff (peaceful.mpr none)]
    exact closure l

end Fixpoint

/-- Whenever a call for the next model propagates, in any run on clauses without repeated literals, such as
normal ones, it finds no conflict just if the closure of what is assumed and decided then is coherent. The true
literals are then exactly the closure; a conflict is a clause that is false. So neither depends on the order of
the clauses or of the literals in them, nor on how the search came there. -/
theorem propagate_closure {clauses : Formula} {atoms : Nat} {config : Config} {calls : List Call}
    (below : clauses.Below atoms) (distinct : ∀ c ∈ clauses, c.Nodup)
    (rounds : ((start clauses atoms config).after calls).Rounds t) :
    let closure := clauses.Closure (t.Given (InForce clauses calls))
    (t.propagate.1 = none ↔ clauses.Coherent closure) ∧
      (t.propagate.1 = none → ∀ l, t.propagate.2.valuation.literal? l = some true ↔ closure l) ∧
      (∀ i, t.propagate.1 = some i →
        ∃ c, clauses[i]? = some c ∧ ∀ l ∈ c, t.propagate.2.valuation.literal? l = some false) ∧
      ∀ (other : Formula) (config' : Config) (calls' : List Call) (u : Search), clauses.Reorders other →
        ((start other atoms config').after calls').Rounds u →
        (∀ l, u.Given (InForce other calls') l ↔ t.Given (InForce clauses calls) l) →
        (u.propagate.1 = none ↔ t.propagate.1 = none) ∧
          (t.propagate.1 = none → u.propagate.2.valuation = t.propagate.2.valuation) := by
  intro closure
  obtain ⟨founded, task⟩ := founded_of_rounds below distinct rounds
  have same : t.clauses = clauses := task.clauses
  subst same
  refine ⟨founded.propagate_eq_none_iff, fun none l => founded.literal?_eq_true_iff none,
    fun i => founded.falsified, fun other config' calls' u reorders rounds' given => ?_⟩
  obtain ⟨founded', task'⟩ := founded_of_rounds (reorders.below below) (reorders.nodup distinct) rounds'
  have same : u.clauses = other := task'.clauses
  subst same
  have size : u.valuation.size = t.valuation.size := by
    rw [task'.size, task.size]
    simp [start]
  exact founded.propagate_congr founded' reorders size given

/-- With the one pure literal assumed, deciding an atom false makes a conflict. With the decision flipped the
assumption and the decision have one unit consequence, and one atom has no value, also with the clauses and
their literals the other way round. -/
theorem propagate_closure_flip :
    let clauses : Formula :=
      #[[⟨0, true⟩, ⟨1, true⟩], [⟨0, true⟩, ⟨1, false⟩], [⟨0, false⟩, ⟨3, true⟩], [⟨2, true⟩, ⟨3, false⟩]]
    let other : Formula :=
      #[[⟨3, false⟩, ⟨2, true⟩], [⟨3, true⟩, ⟨0, false⟩], [⟨1, false⟩, ⟨0, true⟩], [⟨1, true⟩, ⟨0, true⟩]]
    let decided (f : Formula) : Search :=
      ((start f 4 {}).after [.assumePure]).valueRoot.2.propagate.2.decide.2.branch ⟨0, false⟩
    let flipped (f : Formula) : Search := (decided f).propagate.2.countConflict.backtrack.2
    let reached : List Literal := [⟨2, true⟩, ⟨0, true⟩, ⟨3, true⟩]
    (decided clauses).propagate.1 ≠ none ∧ (flipped clauses).propagate.1 = none ∧
      (∀ l, (flipped clauses).propagate.2.valuation.literal? l = some true ↔ l ∈ reached) ∧
      (flipped other).propagate.1 = none ∧
      (flipped other).propagate.2.valuation = (flipped clauses).propagate.2.valuation := by
  intro clauses other decided flipped reached
  have below : clauses.Below 4 := by
    rw [Formula.Below]
    decide
  have reorders : clauses.Reorders other := by
    rw [Formula.Reorders]
    decide
  have root : ((start clauses 4 {}).after [.assumePure]).Rounds _ := rounds_root rfl (by decide)
  have first : ((start clauses 4 {}).after [.assumePure]).Rounds (decided clauses) :=
    root.branch (by decide +kernel) (by decide +kernel)
  have second : ((start clauses 4 {}).after [.assumePure]).Rounds (flipped clauses) :=
    first.flip (i := 1) (by decide +kernel) (by decide +kernel)
  have root' : ((start other 4 {}).after [.assumePure]).Rounds _ := rounds_root rfl (by decide)
  have second' : ((start other 4 {}).after [.assumePure]).Rounds (flipped other) :=
    (root'.branch (by decide +kernel) (by decide +kernel)).flip (i := 3) (by decide +kernel) (by decide +kernel)
  have pure : clauses.pureLiterals = [⟨2, true⟩] ∧ other.pureLiterals = [⟨2, true⟩] := by decide
  have given : ∀ l, (decided clauses).Given (InForce clauses [.assumePure]) l ↔ l = ⟨2, true⟩ ∨ l = ⟨0, false⟩ := by
    have decisions : (decided clauses).decisions = [⟨1, ⟨0, false⟩, false⟩] := by decide +kernel
    simp [Given, InForce, pure, decisions, eq_comm]
  have given' : ∀ l, (flipped clauses).Given (InForce clauses [.assumePure]) l ↔ l = ⟨2, true⟩ ∨ l = ⟨0, true⟩ := by
    have decisions : (flipped clauses).decisions = [⟨1, ⟨0, true⟩, true⟩] := by decide +kernel
    simp [Given, InForce, pure, decisions, eq_comm]
  have same : ∀ l, (flipped other).Given (InForce other [.assumePure]) l ↔
      (flipped clauses).Given (InForce clauses [.assumePure]) l := by
    have decisions : (flipped other).decisions = (flipped clauses).decisions := by decide +kernel
    simp [Given, InForce, pure, decisions]
  obtain ⟨clash, -⟩ := propagate_closure below (by decide) first
  obtain ⟨peaceful, literals, -, order⟩ := propagate_closure below (by decide) second
  have conflict : (decided clauses).propagate.1 ≠ none := fun none => by
    have zero : clauses.Closure ((decided clauses).Given (InForce clauses [.assumePure])) ⟨0, false⟩ :=
      .given ((given _).mpr (.inr rfl))
    have one : ∀ p, clauses.Closure ((decided clauses).Given (InForce clauses [.assumePure])) ⟨1, p⟩ := fun p => by
      refine .unit (c := [⟨0, true⟩, ⟨1, p⟩]) (by cases p <;> simp [clauses]) (by simp) fun m member different => ?_
      obtain rfl : m = ⟨0, true⟩ := by simpa [different] using member
      exact zero
    exact (clash.mp none).1 ⟨1, true⟩ (one true) (one false)
  have closure : ∀ l, clauses.Closure ((flipped clauses).Given (InForce clauses [.assumePure])) l ↔
      l ∈ reached := by
    have zero : clauses.Closure ((flipped clauses).Given (InForce clauses [.assumePure])) ⟨0, true⟩ :=
      .given ((given' _).mpr (.inr rfl))
    refine fun l => ⟨fun derived => ?_, fun member => ?_⟩
    · refine derived.least (P := (· ∈ reached)) ?_ fun m known => ?_
      · rw [Formula.UnitClosed]
        decide
      · rcases (given' m).mp known with rfl | rfl
        · decide
        · decide
    · simp only [reached, List.mem_cons, List.not_mem_nil, or_false] at member
      rcases member with rfl | rfl | rfl
      · exact .given ((given' _).mpr (.inl rfl))
      · exact zero
      · refine .unit (c := [⟨0, false⟩, ⟨3, true⟩]) (by simp [clauses]) (by simp) fun m member different => ?_
        obtain rfl : m = ⟨0, false⟩ := by simpa [different] using member
        exact zero
  have coherent : clauses.Coherent (clauses.Closure ((flipped clauses).Given (InForce clauses [.assumePure]))) := by
    simp only [Formula.Coherent, closure]
    have apart : ∀ l ∈ reached, -l ∉ reached := by decide
    exact ⟨apart, by decide⟩
  have none : (flipped clauses).propagate.1 = none := peaceful.mpr coherent
  obtain ⟨peaceful', equal⟩ := order other {} [.assumePure] (flipped other) reorders second' same
  exact ⟨conflict, none, fun l => (literals none l).trans (closure l), peaceful'.mpr none, equal none⟩

end Search

end Clausal

import Clausal.Proofs.Entailment
import Clausal.Proofs.Invariant
import Clausal.Proofs.Typing
import Mathlib.Algebra.Order.BigOperators.Group.Finset

/-!
What the compilation of some expressions takes. Each expression that is not compiled yet takes
atoms of its own, once, however often it occurs and in whatever disjunct. So before anything is
compiled it can be told whether the limits and the domains allow a disjunction, and how many atoms
will be made for it. Main statements: `add_ok_iff`, and `Reachable.bound_iff` on symbols without
a domain.
-/

namespace Clausal

/-- What is part of a part is part of the whole. -/
theorem Expr.parts_trans {p q e : Expr} (first : p ∈ q.parts) (second : q ∈ e.parts) : p ∈ e.parts := by
  have operands : ∀ {left right : Expr}, (q ∈ left.parts → p ∈ left.parts) → (q ∈ right.parts → p ∈ right.parts) →
      q ∈ left.parts ++ right.parts → p ∈ left.parts ++ right.parts := by
    intro left right ihl ihr inside
    exact List.mem_append.mpr ((List.mem_append.mp inside).imp ihl ihr)
  induction e with
  | symbol s => exact List.mem_singleton.mp second ▸ first
  | constant value => exact List.mem_singleton.mp second ▸ first
  | not e ih =>
    rcases List.mem_cons.mp second with rfl | inner
    · exact first
    · exact List.mem_cons_of_mem _ (ih inner)
  | sum left right ihl ihr =>
    rcases List.mem_cons.mp second with rfl | inner
    · exact first
    · exact List.mem_cons_of_mem _ (operands ihl ihr inner)
  | compare op left right ihl ihr =>
    rcases List.mem_cons.mp second with rfl | inner
    · exact first
    · exact List.mem_cons_of_mem _ (operands ihl ihr inner)

/-- All that some expressions are made of, each once. -/
def Expr.within (es : List Expr) : Finset Expr := (es.flatMap parts).toFinset

theorem Expr.mem_within {p : Expr} {es : List Expr} : p ∈ within es ↔ ∃ e ∈ es, p ∈ e.parts := by
  simp [within]

theorem Expr.within_closed {es : List Expr} : ∀ e ∈ within es, ∀ p ∈ e.parts, p ∈ within es := by
  intro e member p part
  obtain ⟨whole, listed, inside⟩ := mem_within.mp member
  exact mem_within.mpr ⟨whole, listed, parts_trans part inside⟩

theorem Expr.typed_of_mem_within {es : List Expr} (boolean : ∀ e ∈ es, e.type = .ok .boolean) :
    ∀ p ∈ within es, ∃ ty, p.type = .ok ty := by
  intro p member
  obtain ⟨e, listed, part⟩ := mem_within.mp member
  exact type_of_mem_parts ⟨_, boolean e listed⟩ part

theorem Domain.sum?_isSome_iff {d e : Domain} : (∃ sum, d.sum? e = some sum) ↔
    d.isEmpty = true ∨ e.isEmpty = true ∨ Word.Fits (d.min + e.min) ∧ Word.Fits (d.max + e.max) := by
  constructor
  · rintro ⟨sum, found⟩
    rcases sum?_eq_some_iff.mp found with ⟨empty, -⟩ | ⟨-, fits, -⟩
    · exact or_assoc.mp (.inl empty)
    · exact .inr (.inr fits)
  · intro possible
    by_cases empty : d.isEmpty = true ∨ e.isEmpty = true
    · exact ⟨_, sum?_eq_some_iff.mpr (.inl ⟨empty, rfl⟩)⟩
    · exact ⟨_, sum?_eq_some_iff.mpr (.inr ⟨empty, (or_assoc.mpr possible).resolve_left empty, rfl⟩)⟩

namespace KnowledgeBase

variable {kb more most : KnowledgeBase} {added : List (List Expr)} {A B X : Finset Expr} {e p : Expr}
  {enc : Encoding} {s : Symbol} {n : Nat}

/-- The domain that an integer expression is encoded over, or would be. -/
def range? (kb : KnowledgeBase) : Expr → Option Domain
  | .symbol s => if s.isBoolean then none else kb.domain? s
  | .constant value => some (.singleton value)
  | .not _ => none
  | .sum left right => do (← kb.range? left).sum? (← kb.range? right)
  | .compare _ _ _ => none

/-- Whether an expression is to be compiled, but was not yet. A negation takes nothing itself. -/
def isNew (kb : KnowledgeBase) : Expr → Bool
  | .symbol s => if s.isBoolean then (kb.booleans.get? s).isNone else (kb.encodings.get? (.symbol s)).isNone
  | .constant value => (kb.encodings.get? (.constant value)).isNone
  | .not _ => false
  | .sum left right => (kb.encodings.get? (.sum left right)).isNone
  | .compare op left right => (kb.comparisons.get? (.compare op left right)).isNone

/-- How many atoms an expression takes itself: one if it is a boolean symbol or a comparison, and one for
each value of its domain if it is an integer symbol or a sum. -/
def atomsFor (kb : KnowledgeBase) : Expr → Nat
  | .symbol s => if s.isBoolean then 1 else ((kb.range? (.symbol s)).map Domain.count).getD 0
  | .constant _ => 0
  | .not _ => 0
  | .sum left right => ((kb.range? (.sum left right)).map Domain.count).getD 0
  | .compare _ _ _ => 1

/-- How many atoms some expressions take: what those among them take that were not compiled yet. -/
def demand (kb : KnowledgeBase) (X : Finset Expr) : Nat := ∑ e ∈ X with kb.isNew e = true, kb.atomsFor e

/-- The domains and the limits allow some expressions. Only what was not compiled yet is asked about. -/
structure Admits (kb : KnowledgeBase) (X : Finset Expr) : Prop where
  /-- An integer symbol has a domain, declared or by default. It needs none if it was encoded before: the default
  domain may have been taken back since. See `Reachable.bound_iff`. -/
  bound : ∀ s, .symbol s ∈ X → s.isBoolean = false → kb.encodings.get? (.symbol s) = none →
    ∃ d, kb.resolve? s = some d
  /-- The domain of an integer symbol or of a sum has no more values than allowed. -/
  small : ∀ e ∈ X, kb.isNew e = true → (∀ value, e ≠ .constant value) → ∀ d, kb.range? e = some d →
    d.count ≤ kb.config.domainLimit
  /-- The values of a sum fit a word, unless there are none as one side has none. -/
  inRange : ∀ left right, .sum left right ∈ X → kb.encodings.get? (.sum left right) = none →
    ∀ l r, kb.range? left = some l → kb.range? right = some r →
      l.isEmpty = true ∨ r.isEmpty = true ∨ Word.Fits (l.min + r.min) ∧ Word.Fits (l.max + r.max)
  /-- There is room for the atoms that are taken, if any are. -/
  room : kb.demand X = 0 ∨ kb.atomCount + kb.demand X ≤ kb.config.atomLimit

/-- The domain of an expression is there and has no more values than allowed, if it is to be encoded
with new atoms. -/
def Allows (kb : KnowledgeBase) : Expr → Prop
  | .symbol s => s.isBoolean = true ∨ ∃ d, kb.range? (.symbol s) = some d ∧ d.size ≤ kb.config.domainLimit
  | .constant _ => True
  | .not _ => True
  | .sum left right => ∃ d, kb.range? (.sum left right) = some d ∧ d.size ≤ kb.config.domainLimit
  | .compare _ _ _ => True

/-- The same as `Admits` in the form that compilation meets it: one condition for each expression, and room
for all of them. -/
def Feasible (kb : KnowledgeBase) (X : Finset Expr) : Prop :=
  (∀ e ∈ X, kb.isNew e = true → kb.Allows e) ∧ kb.Room (kb.demand X)

section Admission

/-- An encoded expression is encoded over its domain. -/
theorem WellFormed.range_of_encoded (formed : kb.WellFormed) (found : kb.encodings.get? e = some enc) :
    kb.range? e = some enc.domain := by
  induction e generalizing enc with
  | symbol s =>
    have integer : s.isBoolean = false := (formed.encoded _ enc found).2
    rw [range?, integer, domain?, found]
    rfl
  | constant value =>
    have same : enc = Build.encodeConstant value := (formed.encoded _ enc found).2
    rw [same]
    rfl
  | sum left right ihl ihr =>
    obtain ⟨l, r, first, second, domain⟩ := (formed.encoded _ enc found).2
    rw [range?, ihl first, ihr second]
    exact domain
  | not e _ => exact (formed.encoded _ enc found).2.elim
  | compare op left right _ _ => exact (formed.encoded _ enc found).2.elim

/-- The domain of a new symbol is the declared one, or else the default one. -/
theorem range_symbol (integer : s.isBoolean = false) (new : kb.encodings.get? (.symbol s) = none) :
    kb.range? (.symbol s) = kb.resolve? s := by
  rw [range?, integer, domain?, new]
  rfl

/-- All integer expressions that are admitted with their parts have a domain. -/
theorem Admits.range (admits : kb.Admits X) (formed : kb.WellFormed) (integer : e.type = .ok .integer)
    (parts : ∀ p ∈ e.parts, p ∈ X) : ∃ d, kb.range? e = some d := by
  induction e with
  | symbol s =>
    have kind : s.isBoolean = false := Symbol.type_eq_integer.mp integer
    cases found : kb.encodings.get? (.symbol s) with
    | some enc => exact ⟨_, formed.range_of_encoded found⟩
    | none =>
      rw [range_symbol kind found]
      exact admits.bound s (parts _ (by simp [Expr.parts])) kind found
  | constant value => exact ⟨_, rfl⟩
  | sum left right ihl ihr =>
    cases found : kb.encodings.get? (.sum left right) with
    | some enc => exact ⟨_, formed.range_of_encoded found⟩
    | none =>
      obtain ⟨⟨first, second⟩, -⟩ := Expr.type_sum.mp integer
      simp only [Expr.parts, List.forall_mem_cons, List.forall_mem_append] at parts
      obtain ⟨l, left_range⟩ := ihl first parts.2.1
      obtain ⟨r, right_range⟩ := ihr second parts.2.2
      have fits := admits.inRange left right parts.1 found l r left_range right_range
      obtain ⟨d, sum⟩ := Domain.sum?_isSome_iff.mpr fits
      exact ⟨d, by rw [range?, left_range, right_range]; exact sum⟩
  | not e _ => exact Ty.noConfusion (Expr.type_not.mp integer).2
  | compare op left right _ _ => exact Ty.noConfusion (Expr.type_compare.mp integer).2

/-- If there is room for an expression, the values of its domain can be counted in 64 bits. -/
theorem Feasible.size_eq (feasible : kb.Feasible X) (limited : kb.config.atomLimit ≤ Word.greatestCount)
    (member : e ∈ X) (new : kb.isNew e = true) (apart : ∀ value, e ≠ .constant value) {d : Domain}
    (range : kb.range? e = some d) : d.size = d.count := by
  have own : kb.atomsFor e = d.count := by
    cases e with
    | symbol s =>
      have integer : s.isBoolean = false := by
        by_contra boolean
        simp [range?, boolean] at range
      simp [atomsFor, integer, range]
    | constant value => exact absurd rfl (apart value)
    | not e => cases range
    | sum left right => rw [atomsFor, range]; rfl
    | compare op left right => cases range
  have taken : kb.atomsFor e ≤ kb.demand X :=
    Finset.single_le_sum (fun _ _ => Nat.zero_le _) (Finset.mem_filter.mpr ⟨member, new⟩)
  have room : kb.demand X ≤ Word.greatestCount := by
    rcases feasible.2 with none | inside
    · rw [none]
      exact Nat.zero_le _
    · omega
  exact Nat.min_eq_left (by omega)

/-- The two ways to say what is allowed agree on expressions with all their parts. -/
theorem admits_iff_feasible (formed : kb.WellFormed) (limited : kb.config.atomLimit ≤ Word.greatestCount)
    (typed : ∀ e ∈ X, ∃ ty, e.type = .ok ty)
    (closed : ∀ e ∈ X, ∀ p ∈ e.parts, p ∈ X) : kb.Admits X ↔ kb.Feasible X := by
  constructor
  · intro admits
    refine ⟨fun e member new => ?_, admits.room⟩
    cases e with
    | symbol s =>
      by_cases boolean : s.isBoolean = true
      · exact .inl boolean
      · have integer := Bool.eq_false_iff.mpr boolean
        obtain ⟨d, range⟩ := admits.range formed (Symbol.type_eq_integer.mpr integer) (closed _ member)
        exact .inr ⟨d, range, Nat.le_trans (Nat.min_le_left _ _) (admits.small _ member new (by simp) d range)⟩
    | constant value => trivial
    | not e => trivial
    | sum left right =>
      obtain ⟨ty, type⟩ := typed _ member
      obtain ⟨-, rfl⟩ := Expr.type_sum.mp type
      obtain ⟨d, range⟩ := admits.range formed type (closed _ member)
      exact ⟨d, range, Nat.le_trans (Nat.min_le_left _ _) (admits.small _ member new (by simp) d range)⟩
    | compare op left right => trivial
  · intro feasible
    obtain ⟨allows, room⟩ := id feasible
    refine ⟨fun s member integer new => ?_, fun e member new apart d range => ?_,
      fun left right member new l r left_range right_range => ?_, room⟩
    · rcases allows _ member (by simp [isNew, integer, new]) with boolean | ⟨d, range, -⟩
      · simp [integer] at boolean
      · exact ⟨d, (range_symbol integer new).symm.trans range⟩
    · have allowed := allows e member new
      rw [← feasible.size_eq limited member new apart range]
      cases e with
      | symbol s =>
        rcases allowed with boolean | ⟨other, known, small⟩
        · simp [range?, boolean] at range
        · rw [range, Option.some.injEq] at known
          exact known ▸ small
      | constant value => exact absurd rfl (apart value)
      | not e => cases range
      | sum left right =>
        obtain ⟨other, known, small⟩ := allowed
        rw [range, Option.some.injEq] at known
        exact known ▸ small
      | compare op left right => cases range
    · obtain ⟨d, known, -⟩ := allows _ member (by simp [isNew, new])
      rw [range?, left_range, right_range] at known
      exact Domain.sum?_isSome_iff.mp ⟨d, known⟩

end Admission

section DefaultDomain

variable {default : Option Domain}

/-- The default domain is the given one, and each symbol that is encoded is encoded over the domain that it
would get now. -/
structure Defaults (kb : KnowledgeBase) (default : Option Domain) : Prop where
  same : kb.config.defaultDomain = default
  resolved : ∀ s enc, kb.encodings.get? (.symbol s) = some enc → kb.resolve? s = some enc.domain

theorem Defaults.compile {scope : Expr → Prop} (defaults : kb.Defaults default)
    (compiles : kb.Compiles more added scope) : more.Defaults default := by
  refine ⟨compiles.config ▸ defaults.same, fun s enc found => ?_⟩
  rw [resolve?, compiles.config]
  cases old : kb.encodings.get? (.symbol s) with
  | none => exact compiles.symbols s enc old found
  | some before =>
    rw [compiles.retains.encodings _ before old, Option.some.injEq] at found
    exact found ▸ defaults.resolved s before old

theorem Defaults.configure {config : Config} (defaults : kb.Defaults default)
    (same : config.defaultDomain = default) : { kb with config := config : KnowledgeBase }.Defaults default := by
  refine ⟨same, fun s enc found => ?_⟩
  rw [resolve?, same, ← defaults.same]
  exact defaults.resolved s enc found

/-- So it is as long as the default domain stays the same. -/
theorem Reachable.defaults (reached : Reachable (fun config => config.defaultDomain = default) kb) :
    kb.Defaults default := by
  refine reached.keep_compiled (P := fun kb => kb.Defaults default) (fun same => ⟨same, fun s enc found => ?_⟩)
    (fun _ compiles before => before.compile compiles) (fun c before => ?_) fun same before => before.configure same
  · cases found
  · rw [store_frame]
    exact ⟨before.same, before.resolved⟩

/-- As long as the default domain stays the same, `Admits.bound` says that each integer symbol in an expression
that was not compiled yet has a declared or a default domain. -/
theorem Reachable.bound_iff (reached : Reachable (fun config => config.defaultDomain = default) kb)
    (closed : ∀ e ∈ X, ∀ p ∈ e.parts, p ∈ X) :
    (∀ s, .symbol s ∈ X → s.isBoolean = false → kb.encodings.get? (.symbol s) = none →
      ∃ d, kb.resolve? s = some d) ↔
    ∀ e ∈ X, kb.isNew e = true → ∀ s, .symbol s ∈ e.parts → s.isBoolean = false → ∃ d, kb.resolve? s = some d := by
  constructor
  · intro bound e member _ s part integer
    cases found : kb.encodings.get? (.symbol s) with
    | some enc => exact ⟨enc.domain, reached.defaults.resolved s enc found⟩
    | none => exact bound s (closed e member _ part) integer found
  · intro worded s member integer new
    exact worded _ member (by simp [isNew, integer, new]) s (by simp [Expr.parts]) integer

end DefaultDomain

section Composition

/-- Some expressions, and no others, were compiled, with the atoms that they take. -/
structure Allocates (kb more : KnowledgeBase) (added : List (List Expr)) (X : Finset Expr) : Prop where
  compiles : kb.Compiles more added (· ∈ X)
  compiled : ∀ e ∈ X, more.isNew e = false
  atoms : more.atomCount = kb.atomCount + kb.demand X

theorem Room.mono {m : Nat} (room : kb.Room n) (le : m ≤ n) : kb.Room m := by
  unfold Room at room ⊢
  omega

theorem demand_mono (within : A ⊆ B) : kb.demand A ≤ kb.demand B :=
  Finset.sum_le_sum_of_subset (Finset.filter_subset_filter _ within)

theorem Feasible.mono (feasible : kb.Feasible B) (within : A ⊆ B) : kb.Feasible A :=
  ⟨fun e member => feasible.1 e (within member), feasible.2.mono (demand_mono within)⟩

/-- A domain stays what it was. -/
theorem Compiles.range {scope : Expr → Prop} (compiles : kb.Compiles more added scope) (e : Expr) :
    more.range? e = kb.range? e := by
  induction e with
  | symbol s =>
    have same : more.domain? s = kb.domain? s := by
      cases found : more.encodings.get? (.symbol s) with
      | some enc =>
        rw [compiles.domain found, domain?, found]
        rfl
      | none =>
        have new : kb.encodings.get? (.symbol s) = none := by
          by_contra known
          obtain ⟨enc, known⟩ := Option.ne_none_iff_exists'.mp known
          simp [compiles.retains.encodings _ enc known] at found
        rw [domain?, domain?, found, new, resolve?, resolve?, compiles.config]
    rw [range?, range?, same]
  | constant value => rfl
  | not e _ => rfl
  | sum left right ihl ihr => rw [range?, range?, ihl, ihr]
  | compare op left right _ _ => rfl

namespace Allocates

variable (allocates : kb.Allocates more added X)

include allocates

/-- What is new afterwards was new before, and is none of what was compiled. -/
theorem isNew_iff : more.isNew e = true ↔ kb.isNew e = true ∧ e ∉ X := by
  have retains := allocates.compiles.retains
  -- One table, which keeps what it has and gets keys out of `X` only.
  have lookup : ∀ {α : Type} {before after : Option α}, (∀ a, before = some a → after = some a) →
      (∀ a, before = none → after = some a → e ∈ X) →
      (after.isNone = true → before.isNone = true) ∧ (before.isNone = true → e ∉ X → after.isNone = true) := by
    intro α before after kept only
    cases before with
    | some a => simp [kept a rfl]
    | none =>
      refine ⟨fun _ => rfl, fun _ out => ?_⟩
      cases after with
      | none => rfl
      | some a => exact absurd (only a rfl rfl) out
  have both : (more.isNew e = true → kb.isNew e = true) ∧
      (kb.isNew e = true → e ∉ X → more.isNew e = true) := by
    cases e with
    | symbol s =>
      by_cases boolean : s.isBoolean = true
      · simp only [isNew, if_pos boolean]
        exact lookup (retains.booleans s) (allocates.compiles.booleans s)
      · simp only [isNew, if_neg boolean]
        exact lookup (retains.encodings _) (allocates.compiles.encodings _)
    | constant value => exact lookup (retains.encodings _) (allocates.compiles.encodings _)
    | not e => simp [isNew]
    | sum left right => exact lookup (retains.encodings _) (allocates.compiles.encodings _)
    | compare op left right => exact lookup (retains.comparisons _) (allocates.compiles.comparisons _)
  refine ⟨fun new => ⟨both.1 new, fun member => ?_⟩, fun new => both.2 new.1 new.2⟩
  simp [allocates.compiled e member] at new

theorem atomsFor_eq (e : Expr) : more.atomsFor e = kb.atomsFor e := by
  cases e with
  | symbol s => rw [atomsFor, atomsFor, allocates.compiles.range]
  | sum left right => rw [atomsFor, atomsFor, allocates.compiles.range]
  | _ => rfl

theorem allows_iff (e : Expr) : more.Allows e ↔ kb.Allows e := by
  cases e with
  | symbol s => rw [Allows, Allows, allocates.compiles.range, allocates.compiles.config]
  | sum left right => rw [Allows, Allows, allocates.compiles.range, allocates.compiles.config]
  | _ => rfl

/-- What is compiled twice takes atoms once. -/
theorem demand_union (Y : Finset Expr) : kb.demand (X ∪ Y) = kb.demand X + more.demand Y := by
  have split : (X ∪ Y).filter (fun e => kb.isNew e = true) =
      X.filter (fun e => kb.isNew e = true) ∪ Y.filter (fun e => more.isNew e = true) := by
    ext e
    simp only [Finset.mem_filter, Finset.mem_union, allocates.isNew_iff]
    tauto
  have apart : Disjoint (X.filter fun e => kb.isNew e = true) (Y.filter fun e => more.isNew e = true) := by
    refine Finset.disjoint_left.mpr fun e first second => ?_
    exact (allocates.isNew_iff.mp (Finset.mem_filter.mp second).2).2 (Finset.mem_filter.mp first).1
  rw [demand, split, Finset.sum_union apart, demand, demand]
  simp only [allocates.atomsFor_eq]

/-- All is feasible if the first part is, and then the rest on what the first part leaves. -/
theorem feasible_union (Y : Finset Expr) : kb.Feasible (X ∪ Y) ↔ kb.Feasible X ∧ more.Feasible Y := by
  have room : kb.Room (kb.demand X + more.demand Y) ↔ kb.Room (kb.demand X) ∧ more.Room (more.demand Y) := by
    unfold Room
    rw [allocates.atoms, allocates.compiles.config]
    omega
  unfold Feasible
  rw [allocates.demand_union, room]
  constructor
  · rintro ⟨allows, first, second⟩
    refine ⟨⟨fun e member => allows e (Finset.mem_union_left Y member), first⟩, fun e member new => ?_, second⟩
    exact (allocates.allows_iff e).mpr (allows e (Finset.mem_union_right X member) (allocates.isNew_iff.mp new).1)
  · rintro ⟨⟨allows, first⟩, later, second⟩
    refine ⟨fun e member new => ?_, first, second⟩
    by_cases inside : e ∈ X
    · exact allows e inside new
    · have other := (Finset.mem_union.mp member).resolve_left inside
      exact (allocates.allows_iff e).mp (later e other (allocates.isNew_iff.mpr ⟨new, inside⟩))

theorem trans {Y : Finset Expr} (next : more.Allocates most added Y) : kb.Allocates most added (X ∪ Y) := by
  refine ⟨?_, fun e member => ?_, ?_⟩
  · exact (allocates.compiles.mono fun e => Finset.mem_union_left Y).trans
      (next.compiles.mono fun e => Finset.mem_union_right X)
  · rcases Finset.mem_union.mp member with first | second
    · by_contra new
      have before := (next.isNew_iff.mp (Bool.not_eq_false _ ▸ new)).1
      simp [allocates.compiled e first] at before
    · exact next.compiled e second
  · rw [next.atoms, allocates.atoms, allocates.demand_union, Nat.add_assoc]

end Allocates

theorem Feasible.of_old (old : ∀ e ∈ X, kb.isNew e = false) : kb.Feasible X ∧ kb.demand X = 0 := by
  have nothing : X.filter (fun e => kb.isNew e = true) = ∅ :=
    Finset.filter_eq_empty_iff.mpr fun e member new => by simp [old e member] at new
  have none : kb.demand X = 0 := by rw [demand, nothing, Finset.sum_empty]
  exact ⟨⟨fun e member new => by simp [old e member] at new, .inl none⟩, none⟩

theorem feasible_singleton (new : kb.isNew e = true) :
    (kb.Feasible {e} ↔ kb.Allows e ∧ kb.Room (kb.atomsFor e)) ∧ kb.demand {e} = kb.atomsFor e := by
  have demand : kb.demand {e} = kb.atomsFor e := by
    rw [demand, Finset.filter_singleton, if_pos new, Finset.sum_singleton]
  refine ⟨?_, demand⟩
  rw [Feasible, demand]
  simp [new]

end Composition

end KnowledgeBase

namespace Build

open KnowledgeBase

variable {α β : Type} {kb more most : KnowledgeBase} {added : List (List Expr)} {A B X : Finset Expr}
  {change other : Build α} {e left right : Expr} {s : Symbol} {a : α} {o : Origin} {origin : Nat → Origin}
  {d : Domain} {l r : Encoding}

/-- A change gives a result. -/
def Succeeds (change : Build α) (kb : KnowledgeBase) : Prop := ∃ a more, change.Yields kb a more

section Success

@[simp] theorem succeeds_bind {first : Build α} {next : α → Build β} :
    (first >>= next).Succeeds kb ↔ ∃ a more, first.Yields kb a more ∧ (next a).Succeeds more := by
  simp only [Succeeds, yields_bind]
  constructor
  · rintro ⟨b, most, a, more, start, rest⟩
    exact ⟨a, more, start, b, most, rest⟩
  · rintro ⟨a, more, start, b, most, rest⟩
    exact ⟨b, most, a, more, start, rest⟩

@[simp] theorem succeeds_pure (a : α) : (pure a : Build α).Succeeds kb := ⟨a, kb, rfl⟩

@[simp] theorem not_succeeds_throw (cause : Error) : ¬ (throw cause : Build α).Succeeds kb := by
  rintro ⟨a, more, ⟨⟩⟩

/-- If what comes next always succeeds, the first change decides. -/
theorem succeeds_bind_of_next {first : Build α} {next : α → Build β} (always : ∀ a more, (next a).Succeeds more) :
    (first >>= next).Succeeds kb ↔ first.Succeeds kb := by
  rw [succeeds_bind]
  exact exists₂_congr fun a more => and_iff_left (always a more)

theorem succeeds_get {next : KnowledgeBase → Build α} : (get >>= next : Build α).Succeeds kb ↔ (next kb).Succeeds kb := by
  simp

theorem succeeds_freshAtom : (freshAtom o).Succeeds kb ↔ kb.Room 1 := by
  unfold freshAtom
  rw [succeeds_get]
  by_cases inside : kb.atomCount < kb.config.atomLimit
  · rw [if_pos inside]
    exact iff_of_true ⟨_, _, rfl⟩ (.inr inside)
  · rw [if_neg inside]
    refine iff_of_false (not_succeeds_throw _) ?_
    unfold Room
    omega

theorem succeeds_freshAtoms {count : Nat} : (freshAtoms count origin).Succeeds kb ↔ kb.Room count := by
  unfold freshAtoms
  rw [succeeds_get]
  by_cases room : count = 0 ∨ kb.atomCount + count ≤ kb.config.atomLimit
  · rw [if_pos room]
    exact iff_of_true ⟨_, _, rfl⟩ room
  · rw [if_neg room]
    exact iff_of_false (not_succeeds_throw _) room

theorem succeeds_encodeDomain : (encodeDomain d origin).Succeeds kb ↔
    d.size ≤ kb.config.domainLimit ∧ kb.Room d.count := by
  have checked : ∀ more, (checkDomain d).Yields kb () more ↔ more = kb ∧ d.size ≤ kb.config.domainLimit := by
    refine fun more => ⟨checkDomain_yields, ?_⟩
    rintro ⟨rfl, small⟩
    simp [checkDomain, small]
  have rest : ∀ ls more, (define (exactlyOne ls) >>= fun _ => pure (⟨d, ls⟩ : Encoding) : Build Encoding).Succeeds more :=
    fun ls more => ⟨_, _, rfl⟩
  unfold encodeDomain
  rw [succeeds_bind]
  simp only [checked, succeeds_bind_of_next rest, succeeds_freshAtoms]
  constructor
  · rintro ⟨-, _, ⟨rfl, small⟩, room⟩
    exact ⟨small, room⟩
  · rintro ⟨small, room⟩
    exact ⟨(), kb, ⟨rfl, small⟩, room⟩

theorem succeeds_encodeSymbol (integer : s.isBoolean = false) : (encodeSymbol s).Succeeds kb ↔
    ∃ d, kb.resolve? s = some d ∧ d.size ≤ kb.config.domainLimit ∧ kb.Room d.count := by
  have known : ∀ d more, (domainOf s).Yields kb d more ↔ more = kb ∧ kb.resolve? s = some d := by
    refine fun d more => ⟨fun h => ⟨(domainOf_yields h).1, (domainOf_yields h).2.2⟩, ?_⟩
    rintro ⟨rfl, domain⟩
    unfold domainOf
    split
    · next boolean => simp [Symbol.isBoolean, boolean] at integer
    · next declared kind =>
      rw [resolve?, kind] at domain
      simp only [yields_bind, yields_get]
      refine ⟨more, more, ⟨rfl, rfl⟩, ?_⟩
      change (declared <|> more.config.defaultDomain) = some d at domain
      rw [domain]
      simp
  unfold encodeSymbol
  rw [succeeds_bind]
  simp only [known, succeeds_encodeDomain]
  constructor
  · rintro ⟨d, _, ⟨rfl, domain⟩, fits⟩
    exact ⟨d, domain, fits⟩
  · rintro ⟨d, domain, fits⟩
    exact ⟨d, kb, ⟨rfl, domain⟩, fits⟩

theorem succeeds_encodeSum : (encodeSum l r).Succeeds kb ↔
    ∃ d, l.domain.sum? r.domain = some d ∧ d.size ≤ kb.config.domainLimit ∧ kb.Room d.count := by
  unfold encodeSum
  cases l.domain.sum? r.domain with
  | none => simp
  | some d =>
    have rest : ∀ sum more, (define (sumClauses l r sum) >>= fun _ => pure sum : Build Encoding).Succeeds more :=
      fun sum more => ⟨_, _, rfl⟩
    refine (succeeds_bind_of_next rest).trans (succeeds_encodeDomain.trans ?_)
    simp

end Success

/-- A change compiles some expressions: it succeeds just if that is feasible, and then it compiles these
and no others, with the atoms that they take. -/
structure Takes (change : Build α) (kb : KnowledgeBase) (added : List (List Expr)) (X : Finset Expr) : Prop where
  succeeds : change.Succeeds kb ↔ kb.Feasible X
  allocates : ∀ {a more}, change.Yields kb a more → kb.Allocates more added X

namespace Takes

/-- One change after another takes what both take, but what is in both takes atoms once. -/
theorem bind {first : Build α} {next : α → Build β} (start : first.Takes kb added A)
    (rest : ∀ {a more}, first.Yields kb a more → more.Faithful added → (next a).Takes more added B) :
    (first >>= next).Takes kb added (A ∪ B) := by
  refine ⟨succeeds_bind.trans ⟨?_, fun feasible => ?_⟩, fun {b most} h => ?_⟩
  · rintro ⟨a, more, yields, success⟩
    have allocates := start.allocates yields
    have later := (rest yields allocates.compiles.faithful).succeeds.mp success
    exact (allocates.feasible_union B).mpr ⟨start.succeeds.mp ⟨a, more, yields⟩, later⟩
  · obtain ⟨a, more, yields⟩ := start.succeeds.mpr (feasible.mono Finset.subset_union_left)
    have allocates := start.allocates yields
    have later := ((allocates.feasible_union B).mp feasible).2
    exact ⟨a, more, yields, (rest yields allocates.compiles.faithful).succeeds.mpr later⟩
  · obtain ⟨a, more, yields, last⟩ := yields_bind.mp h
    have allocates := start.allocates yields
    exact allocates.trans ((rest yields allocates.compiles.faithful).allocates last)

/-- What was compiled before takes nothing. -/
theorem of_old (faithful : kb.Faithful added) (old : ∀ e ∈ X, kb.isNew e = false) (a : α) :
    (pure a : Build α).Takes kb added X := by
  obtain ⟨feasible, nothing⟩ := Feasible.of_old old
  refine ⟨iff_of_true (succeeds_pure a) feasible, fun {b more} h => ?_⟩
  obtain ⟨-, rfl⟩ := yields_pure.mp h
  exact ⟨.refl faithful, old, by rw [nothing, Nat.add_zero]⟩

theorem map (takes : change.Takes kb added X) (f : α → β) :
    (change >>= fun a => pure (f a)).Takes kb added X := by
  have both := takes.bind (B := ∅) fun {a more} _ faithful => of_old faithful (by simp) (f a)
  rwa [Finset.union_empty] at both

theorem get {next : KnowledgeBase → Build α} (takes : (next kb).Takes kb added X) :
    (MonadState.get >>= next : Build α).Takes kb added X := by
  refine ⟨succeeds_get.trans takes.succeeds, fun {a more} h => takes.allocates (a := a) ?_⟩
  simpa using h

/-- One expression, the parts of which are compiled already. -/
theorem single (new : kb.isNew e = true) (succeeds : change.Succeeds kb ↔ kb.Allows e ∧ kb.Room (kb.atomsFor e))
    (compiles : ∀ {a more}, change.Yields kb a more → kb.Compiles more added (· = e) ∧
      more.isNew e = false ∧ more.atomCount = kb.atomCount + kb.atomsFor e) :
    change.Takes kb added {e} := by
  obtain ⟨feasible, demand⟩ := feasible_singleton new
  refine ⟨succeeds.trans feasible.symm, fun {a more} h => ?_⟩
  obtain ⟨compiled, known, atoms⟩ := compiles h
  refine ⟨compiled.mono fun _ => Finset.mem_singleton.mpr, fun p member => ?_, by rw [demand, atoms]⟩
  rw [Finset.mem_singleton.mp member, known]

end Takes

section Expressions

/-- The domain of an expression that is new, if it has one, is small and there is room for its values. -/
private theorem exists_sized {known : Option Domain} {small : Domain → Prop} : (∃ d, known = some d ∧ small d ∧ kb.Room d.count) ↔
    (∃ d, known = some d ∧ small d) ∧ kb.Room ((known.map Domain.count).getD 0) := by
  cases known <;> simp

theorem takes_booleanAtom (faithful : kb.Faithful added) (boolean : s.isBoolean = true) :
    (booleanAtom s).Takes kb added {.symbol s} := by
  cases found : kb.booleans.get? s with
  | some a =>
    refine .get ?_
    rw [found]
    exact .of_old faithful (by simp [isNew, boolean, found]) a
  | none =>
    have new : kb.isNew (.symbol s) = true := by simp [isNew, boolean, found]
    have made : (booleanAtom s).Succeeds kb ↔ kb.Room 1 := by
      rw [booleanAtom, succeeds_get, found]
      exact (succeeds_bind_of_next fun a more => ⟨_, _, rfl⟩).trans succeeds_freshAtom
    refine .single new (made.trans ?_) fun {a more} h => ?_
    · simp [Allows, boolean, atomsFor]
    · obtain ⟨compiles, known⟩ := booleanAtom_spec faithful boolean h
      refine ⟨compiles, by simp [isNew, boolean, known], ?_⟩
      simp only [booleanAtom, yields_bind, yields_get] at h
      obtain ⟨_, _, ⟨rfl, rfl⟩, rest⟩ := h
      simp only [found, yields_bind, yields_modify, yields_pure] at rest
      obtain ⟨b, mid, fresh, _, last, rfl, rfl, rfl⟩ := rest
      obtain ⟨-, rfl, -⟩ := freshAtom_yields fresh
      simp [atomCount, atomsFor, boolean]

/-- Puts an encoding into the table. -/
def remember (e : Expr) (enc : Encoding) : Build Encoding := do
  modify fun kb => { kb with encodings := kb.encodings.insert e enc }
  return enc

theorem remember_yields {enc enc' : Encoding} : (remember e enc).Yields kb enc' more ↔
    enc' = enc ∧ more = { kb with encodings := kb.encodings.insert e enc } := by
  simp only [remember, yields_bind, yields_modify, yields_pure]
  constructor
  · rintro ⟨_, _, rfl, rfl, rfl⟩
    exact ⟨rfl, rfl⟩
  · rintro ⟨rfl, rfl⟩
    exact ⟨⟨⟩, _, rfl, rfl, rfl⟩

theorem isNew_of_encoded (formed : kb.WellFormed) {enc : Encoding} (found : kb.encodings.get? e = some enc) :
    kb.isNew e = false := by
  have encodes := formed.encoded e enc found
  cases e with
  | symbol s =>
    have integer : s.isBoolean = false := encodes.2
    simp [isNew, integer, found]
  | constant value => simp [isNew, found]
  | not e => rfl
  | sum left right => simp [isNew, found]
  | compare op left right => exact encodes.2.elim

/-- An expression is encoded once, its parts with it. -/
theorem takes_cachedEncoding {make : Build Encoding} (faithful : kb.Faithful added)
    (takes : kb.encodings.get? e = none → (make >>= remember e).Takes kb added e.parts.toFinset) :
    (cachedEncoding e make).Takes kb added e.parts.toFinset := by
  refine .get ?_
  cases found : kb.encodings.get? e with
  | some enc =>
    refine .of_old faithful (fun p part => ?_) enc
    obtain ⟨other, known⟩ := faithful.parts_encoded found p (List.mem_toFinset.mp part)
    exact isNew_of_encoded faithful.toWellFormed known
  | none => exact takes found

/-- One integer expression, the parts of which are encoded already. -/
theorem takes_encoding {make : Build Encoding} (new : kb.isNew e = true)
    (succeeds : make.Succeeds kb ↔ kb.Allows e ∧ kb.Room (kb.atomsFor e))
    (compiles : ∀ {enc mid more}, make.Yields kb enc mid →
      more = { mid with encodings := mid.encodings.insert e enc } →
      kb.Compiles more added (· = e) ∧ more.encodings.get? e = some enc)
    (atoms : ∀ {enc mid}, make.Yields kb enc mid → mid.atomCount = kb.atomCount + kb.atomsFor e) :
    (make >>= remember e).Takes kb added {e} := by
  refine .single new ((succeeds_bind_of_next fun enc mid => ?_).trans succeeds) fun {enc more} h => ?_
  · exact ⟨_, _, rfl⟩
  · obtain ⟨other, mid, made, kept⟩ := yields_bind.mp h
    obtain ⟨rfl, same⟩ := remember_yields.mp kept
    obtain ⟨compiled, found⟩ := compiles made same
    refine ⟨compiled, isNew_of_encoded compiled.faithful.toWellFormed found, ?_⟩
    have grown := atoms made
    rw [same]
    exact grown

theorem takes_encodeSymbol (faithful : kb.Faithful added) (integer : s.isBoolean = false)
    (new : kb.encodings.get? (.symbol s) = none) :
    (encodeSymbol s >>= remember (.symbol s)).Takes kb added {.symbol s} := by
  have range := range_symbol integer new
  refine takes_encoding (by simp [isNew, integer, new]) ?_ (encodeSymbol_spec faithful new) fun {enc mid} made => ?_
  · rw [succeeds_encodeSymbol integer, exists_sized, ← range]
    simp [Allows, atomsFor, integer]
  · obtain ⟨d, _, known, encoded⟩ := yields_bind.mp made
    obtain ⟨rfl, -, domain⟩ := domainOf_yields known
    obtain ⟨-, -, -, rfl⟩ := encodeDomain_yields encoded
    rw [atomsFor, range, domain]
    simp [atomCount, ← Array.length_toList, integer]

theorem takes_encodeConstant (faithful : kb.Faithful added) {value : Int}
    (new : kb.encodings.get? (.constant value) = none) :
    (pure (encodeConstant value) >>= remember (.constant value)).Takes kb added {.constant value} := by
  refine takes_encoding (by simp [isNew, new]) ?_ (fun made same => ?_) fun made => ?_
  · exact iff_of_true (succeeds_pure _) ⟨trivial, .inl rfl⟩
  · obtain ⟨rfl, rfl⟩ := yields_pure.mp made
    exact encodeConstant_spec faithful new same
  · obtain ⟨rfl, rfl⟩ := yields_pure.mp made
    rfl

theorem takes_encodeSum (faithful : kb.Faithful added) (first : kb.encodings.get? left = some l)
    (second : kb.encodings.get? right = some r) (new : kb.encodings.get? (.sum left right) = none) :
    (encodeSum l r >>= remember (.sum left right)).Takes kb added {.sum left right} := by
  have range : kb.range? (.sum left right) = l.domain.sum? r.domain := by
    rw [range?, faithful.range_of_encoded first, faithful.range_of_encoded second]
    rfl
  refine takes_encoding (by simp [isNew, new]) ?_ (encodeSum_spec faithful first second new) fun {enc mid} made => ?_
  · rw [succeeds_encodeSum, exists_sized, ← range]
    rfl
  · obtain ⟨d, domain, -, -, -, rfl⟩ := encodeSum_yields made
    rw [atomsFor, range, domain]
    simp [atomCount, ← Array.length_toList]

/-- Both sides of an expression and then the expression itself, given what both sides were encoded to. -/
theorem takes_operands (next : Encoding → Encoding → Build α)
    (faithful : kb.Faithful added)
    (takesLeft : (encode left).Takes kb added left.parts.toFinset)
    (takesRight : ∀ {more : KnowledgeBase}, more.Faithful added → (encode right).Takes more added right.parts.toFinset)
    (takes : ∀ {l r more}, kb.Compiles more added (· ∈ left.parts ++ right.parts) →
      more.encodings.get? left = some l → more.encodings.get? right = some r → (next l r).Takes more added {e}) :
    (encode left >>= fun l => encode right >>= next l).Takes kb added (e :: (left.parts ++ right.parts)).toFinset := by
  have both : (encode left >>= fun l => encode right >>= next l).Takes kb added
      (left.parts.toFinset ∪ (right.parts.toFinset ∪ {e})) := by
    refine takesLeft.bind fun {l kb₁} makesLeft faithful₁ => (takesRight faithful₁).bind fun {r kb₂} makesRight _ => ?_
    obtain ⟨compilesLeft, foundLeft⟩ := encode_spec faithful makesLeft
    obtain ⟨compilesRight, foundRight⟩ := encode_spec faithful₁ makesRight
    refine takes (.trans (compilesLeft.mono fun p part => ?_) (compilesRight.mono fun p part => ?_))
      (compilesRight.retains.encodings left l foundLeft) foundRight
    · exact List.mem_append_left right.parts part
    · exact List.mem_append_right left.parts part
  have same : left.parts.toFinset ∪ (right.parts.toFinset ∪ {e}) = (e :: (left.parts ++ right.parts)).toFinset := by
    ext p
    simp only [Finset.mem_union, List.mem_toFinset, Finset.mem_singleton, List.mem_cons, List.mem_append]
    tauto
  exact same ▸ both

theorem takes_encode (faithful : kb.Faithful added) (integer : e.type = .ok .integer) :
    (encode e).Takes kb added e.parts.toFinset := by
  induction e generalizing kb with
  | symbol s =>
    exact takes_cachedEncoding faithful (takes_encodeSymbol faithful (Symbol.type_eq_integer.mp integer))
  | constant value => exact takes_cachedEncoding faithful (takes_encodeConstant faithful)
  | sum left right ihl ihr =>
    obtain ⟨⟨first, second⟩, -⟩ := Expr.type_sum.mp integer
    refine takes_cachedEncoding faithful fun new => ?_
    have takes := takes_operands (fun l r => encodeSum l r >>= remember (.sum left right)) faithful
      (ihl faithful first) (fun faithful₁ => ihr faithful₁ second)
      fun compiles foundLeft foundRight => takes_encodeSum compiles.faithful foundLeft foundRight
        (compiles.encodings_none new (Expr.sum_not_mem_parts left right))
    simp only [bind_assoc]
    exact takes
  | not e _ => exact Ty.noConfusion (Expr.type_not.mp integer).2
  | compare op left right _ _ => exact Ty.noConfusion (Expr.type_compare.mp integer).2

/-- The atom of a comparison, the sides of which are encoded already. -/
theorem takes_compare {op : Comparison} (faithful : kb.Faithful added) (first : kb.encodings.get? left = some l)
    (second : kb.encodings.get? right = some r) (new : kb.comparisons.get? (.compare op left right) = none) :
    (do
      let a ← freshAtom .auxiliary
      define (comparisonClauses op l r (.positive a))
      modify fun kb => { kb with comparisons := kb.comparisons.insert (.compare op left right) a }
      return a : Build Atom).Takes kb added {.compare op left right} := by
  refine .single (by simp [isNew, new]) ?_ fun {a more} h => ?_
  · refine (succeeds_bind_of_next fun a more => ⟨_, _, rfl⟩).trans (succeeds_freshAtom.trans ?_)
    exact (and_iff_right trivial).symm
  · simp only [yields_bind, yields_modify, yields_pure] at h
    obtain ⟨a, kb₁, made, _, kb₂, defined, _, last, rfl, rfl, rfl⟩ := h
    obtain ⟨rfl, same, room⟩ := comparison_yields made defined
    rw [same]
    refine ⟨compiles_comparison faithful new first second room, ?_, ?_⟩
    · simp [isNew, get?_withComparison]
    · simp [withComparison, atomCount, atomsFor]

theorem takes_comparisonAtom {op : Comparison} (faithful : kb.Faithful added)
    (first : left.type = .ok .integer) (second : right.type = .ok .integer) :
    (comparisonAtom op left right).Takes kb added (Expr.compare op left right).parts.toFinset := by
  refine .get ?_
  cases found : kb.comparisons.get? (.compare op left right) with
  | some a =>
    refine .of_old faithful (fun p part => ?_) a
    by_cases whole : p = .compare op left right
    · simp [whole, isNew, found]
    · obtain ⟨enc, known⟩ := faithful.operands_encoded found p (List.mem_toFinset.mp part) whole
      exact isNew_of_encoded faithful.toWellFormed known
  | none =>
    exact takes_operands _ faithful (takes_encode faithful first) (fun faithful₁ => takes_encode faithful₁ second)
      fun compiles foundLeft foundRight => takes_compare compiles.faithful foundLeft foundRight
        (compiles.comparisons_none found (Expr.compare_not_mem_parts op left right))

theorem takes_literalOf (faithful : kb.Faithful added) (boolean : e.type = .ok .boolean) :
    (literalOf e).Takes kb added e.parts.toFinset := by
  induction e with
  | symbol s =>
    have kind := Symbol.type_eq_boolean.mp boolean
    rw [literalOf, if_pos kind]
    exact (takes_booleanAtom faithful kind).map _
  | not e ih =>
    have inner := ih (Expr.type_not.mp boolean).1
    have both := inner.bind (B := {.not e}) fun {l more} _ faithful₁ =>
      .of_old faithful₁ (by simp [isNew]) (-l)
    have same : e.parts.toFinset ∪ {.not e} = (Expr.not e).parts.toFinset := by
      rw [Expr.parts, List.toFinset_cons, Finset.union_comm, Finset.insert_eq]
    exact same ▸ both
  | compare op left right _ _ =>
    obtain ⟨⟨first, second⟩, -⟩ := Expr.type_compare.mp boolean
    exact (takes_comparisonAtom faithful first second).map _
  | constant value => cases boolean
  | sum left right _ _ => exact Ty.noConfusion (Expr.type_sum.mp boolean).2

/-- By induction the disjuncts take what they are all made of. -/
theorem takes_mapM_literalOf {disjuncts : List Expr} (faithful : kb.Faithful added)
    (boolean : ∀ e ∈ disjuncts, e.type = .ok .boolean) :
    (disjuncts.mapM literalOf).Takes kb added (Expr.within disjuncts) := by
  induction disjuncts generalizing kb with
  | nil => exact .of_old faithful (by simp [Expr.within]) []
  | cons e disjuncts ih =>
    obtain ⟨first, rest⟩ := List.forall_mem_cons.mp boolean
    have split : Expr.within (e :: disjuncts) = e.parts.toFinset ∪ Expr.within disjuncts := by
      rw [Expr.within, List.flatMap_cons, List.toFinset_append, Expr.within]
    rw [List.mapM_cons, split]
    exact (takes_literalOf faithful first).bind fun _ faithful₁ => (ih faithful₁ rest).map _

end Expressions

end Build

namespace KnowledgeBase

open Build

variable {kb : KnowledgeBase} {allowed : Config → Prop} {disjuncts : List Expr}

/-- A clause that is compiled is stored. -/
theorem add_of_yields {c : Clause} {mid : KnowledgeBase} (compiled : (clauseOf disjuncts).Yields kb c mid) :
    kb.add disjuncts = (.ok (mid.store c).1, (mid.store c).2) := by
  unfold add attempt
  rw [compiled]

theorem yields_of_add {stored : Stored} (added : (kb.add disjuncts).1 = .ok stored) :
    ∃ c mid, (clauseOf disjuncts).Yields kb c mid := by
  unfold add attempt at added
  rcases result : (clauseOf disjuncts).run.run kb with ⟨cause | c, changed⟩
  · rw [result] at added
    cases added
  · exact ⟨c, changed, result⟩

/-- A disjunction of boolean expressions is added just if the domains and the limits admit all that it is made
of, and then as many atoms are made as that takes: one for each boolean symbol and comparison and one for each
value of an integer symbol or a sum, of those that were not compiled yet and each once. The limit on atoms is any
64-bit count. -/
theorem add_ok_iff (reached : Reachable allowed kb) (counted : kb.config.atomLimit ≤ Word.greatestCount)
    (boolean : ∀ e ∈ disjuncts, e.type = .ok .boolean) :
    ((∃ stored, (kb.add disjuncts).1 = .ok stored) ↔ kb.Admits (Expr.within disjuncts)) ∧
    ∀ stored, (kb.add disjuncts).1 = .ok stored →
      (kb.add disjuncts).2.atomCount = kb.atomCount + kb.demand (Expr.within disjuncts) := by
  obtain ⟨added, faithful⟩ := reached.faithful
  have same : clauseOf disjuncts = disjuncts.mapM literalOf := by
    rw [clauseOf, checkBoolean_of_boolean boolean]
    exact pure_bind () _
  have takes := takes_mapM_literalOf faithful boolean
  rw [← same] at takes
  constructor
  · rw [admits_iff_feasible faithful.toWellFormed counted (Expr.typed_of_mem_within boolean) Expr.within_closed,
      ← takes.succeeds]
    constructor
    · rintro ⟨stored, succeeds⟩
      exact yields_of_add succeeds
    · rintro ⟨c, mid, compiled⟩
      exact ⟨(mid.store c).1, congrArg Prod.fst (add_of_yields compiled)⟩
  · intro stored succeeds
    obtain ⟨c, mid, compiled⟩ := yields_of_add succeeds
    rw [add_of_yields compiled, store_frame]
    exact (takes.allocates compiled).atoms

/-- Sums and comparisons that occur twice take atoms once, and an integer symbol that was encoded before takes
none. The same disjunction fails if one atom less is allowed. -/
theorem add_ok_iff_shared :
    let x : Expr := .symbol ⟨0, 0, "x", .integer (some ⟨0, 1⟩)⟩
    let y : Expr := .symbol ⟨0, 1, "y", .integer none⟩
    let p : Expr := .symbol ⟨0, 2, "p", .boolean⟩
    let least : Expr := .compare .less (.sum x y) (.constant 2)
    let disjuncts : List Expr := [.not least, p, .compare .equal (.sum x y) y, .not (.not (.not least))]
    let kb := ((KnowledgeBase.empty {}).add [.compare .less x (.constant 1)]).2
    let enough : KnowledgeBase := { kb with config := { atomLimit := 14, defaultDomain := some ⟨0, 2⟩ } }
    let short : KnowledgeBase := { kb with config := { atomLimit := 13, defaultDomain := some ⟨0, 2⟩ } }
    enough.demand (Expr.within disjuncts) = 10 ∧ enough.Admits (Expr.within disjuncts) ∧
      (enough.add disjuncts).2.atomCount = kb.atomCount + 10 ∧ ¬ short.Admits (Expr.within disjuncts) := by
  intro x y p least disjuncts kb enough short
  have boolean : ∀ e ∈ disjuncts, e.type = .ok .boolean := by
    simp only [disjuncts, List.forall_mem_cons, List.not_mem_nil, false_imp_iff, implies_true, and_true]
    exact ⟨rfl, rfl, rfl, rfl⟩
  have reached : Reachable (fun _ => True) kb := .add (.empty trivial) _
  have added : (enough.add disjuncts).1 = .ok .added := by decide +kernel
  have refused : (short.add disjuncts).1 = .error (.atomsExceeded 13) := by decide +kernel
  have takes : enough.demand (Expr.within disjuncts) = 10 := by decide +kernel
  have reachedEnough : Reachable (fun _ => True) enough := .configure reached trivial
  have reachedShort : Reachable (fun _ => True) short := .configure reached trivial
  have large := add_ok_iff reachedEnough (by decide) boolean
  have small := add_ok_iff reachedShort (by decide) boolean
  refine ⟨takes, large.1.mp ⟨_, added⟩, takes ▸ large.2 _ added, fun admits => ?_⟩
  obtain ⟨stored, succeeds⟩ := small.1.mpr admits
  cases refused.symm.trans succeeds

end KnowledgeBase

end Clausal

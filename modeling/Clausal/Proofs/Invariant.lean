import Clausal.KnowledgeBase.Query
import Clausal.Proofs.Propagation
import Clausal.Proofs.Reachability

/-!
What holds of every knowledge base that operations lead to, whether they succeed or
fail. An operation that fails leaves the knowledge base as it was. Each atom stands
for what it was made for, the atom that always holds occurs in the first clause
only, and no key is twice in a table. Main statements: `unchanged_of_refused` and
`Reachable.intact`.
-/

namespace Clausal

/-- The keys of a table, in the order of insertion. -/
def Table.keys {κ α : Type} [Hashable κ] (t : Table κ α) : List κ := t.toList.map Prod.fst

theorem Table.nodup_insert {κ α : Type} [Hashable κ] [BEq κ] [LawfulBEq κ] {t : Table κ α} {key : κ}
    (new : t.get? key = none) (distinct : t.keys.Nodup) (value : α) : (t.insert key value).keys.Nodup := by
  have apart : ∀ other ∈ t.keys, other ≠ key := by
    intro other member
    obtain ⟨pair, listed, rfl⟩ := List.mem_map.mp member
    obtain ⟨e, inside, rfl⟩ := List.mem_map.mp (List.mem_reverse.mp listed)
    exact get?_eq_none_iff.mp new e inside
  rw [keys, toList_insert, List.map_append]
  refine List.nodup_append.mpr ⟨distinct, List.nodup_singleton _, fun other member same listed => ?_⟩
  rw [List.mem_singleton.mp listed]
  exact apart other member

/-- The limit on atoms is within the bounds of its setting. -/
def Config.Bounded (c : Config) : Prop :=
  Config.Setting.atomLimit.min ≤ c.atomLimit ∧ c.atomLimit ≤ Config.Setting.atomLimit.max

/-- No literal of a clause is on the atom that always holds. -/
def Clause.Settled (c : Clause) : Prop := ∀ l ∈ c, l.atom ≠ Atom.top

namespace KnowledgeBase

variable {kb more : KnowledgeBase} {allowed : Config → Prop} {item : Item} {i a : Nat} {o : Origin}
  {e : Expr}

/-- The knowledge bases that operations lead to, whether they succeed or fail, under configurations
that are allowed. -/
inductive Reachable (allowed : Config → Prop) : KnowledgeBase → Prop where
  | empty {config : Config} (permitted : allowed config) : Reachable allowed (.empty config)
  | add {kb : KnowledgeBase} (reached : Reachable allowed kb) (disjuncts : List Expr) :
      Reachable allowed (kb.add disjuncts).2
  | declare {kb : KnowledgeBase} (reached : Reachable allowed kb) (s : Symbol) :
      Reachable allowed (kb.declare s).2
  | read {kb : KnowledgeBase} (reached : Reachable allowed kb) (session : Session)
      (source : Text.Source) : Reachable allowed (kb.read session source).2.2
  | configure {kb : KnowledgeBase} (reached : Reachable allowed kb) {config : Config}
      (permitted : allowed config) : Reachable allowed { kb with config := config }

theorem Reachable.built (reached : Reachable allowed kb) : ∃ added, Built kb added := by
  induction reached with
  | empty => exact ⟨[], .empty _⟩
  | @add kb _ disjuncts ih =>
    obtain ⟨added, built⟩ := ih
    rcases result : kb.add disjuncts with ⟨cause | stored, more⟩
    · exact ⟨added, built.refused result⟩
    · exact ⟨_, built.added result⟩
  | declare _ s ih =>
    obtain ⟨added, built⟩ := ih
    exact ⟨added, built.declared rfl⟩
  | read _ session source ih =>
    obtain ⟨added, built⟩ := ih
    exact built.read rfl
  | configure _ _ ih =>
    obtain ⟨added, built⟩ := ih
    exact ⟨added, built.configured _⟩

theorem Reachable.faithful (reached : Reachable allowed kb) : ∃ added, kb.Faithful added := by
  obtain ⟨added, built⟩ := reached.built
  exact ⟨added, built.faithful⟩

/-- Adding or declaring changes nothing if it fails, whatever was compiled before the failure. -/
theorem unchanged_of_refused (reached : Reachable allowed kb) (config : Config) :
    (∀ disjuncts cause, ({ kb with config := config }.add disjuncts).1 = .error cause →
      ({ kb with config := config }.add disjuncts).2 = { kb with config := config }) ∧
    ∀ s cause, ({ kb with config := config }.declare s).1 = .error cause →
      ({ kb with config := config }.declare s).2 = { kb with config := config } := by
  obtain ⟨added, built⟩ := reached.built
  have faithful := (built.configured config).faithful
  constructor
  · intro disjuncts cause fails
    rcases add_spec faithful (Prod.mk.eta (p := add _ disjuncts)).symm with
      ⟨_, -, same⟩ | ⟨stored, mid, c, succeeds, -⟩
    · exact same
    · rw [succeeds] at fails
      cases fails
  · intro s cause fails
    rcases declare_spec faithful (Prod.mk.eta (p := declare _ s)).symm with ⟨_, -, same⟩ | ⟨succeeds, -⟩
    · exact same
    · rw [succeeds] at fails
      cases fails

/-- The limit is passed after a boolean symbol, a sum and one side of a comparison were compiled. -/
theorem unchanged_of_refused_midway :
    let p : Expr := .symbol ⟨0, 0, "p", .boolean⟩
    let x : Expr := .symbol ⟨0, 1, "x", .integer (some ⟨0, 1⟩)⟩
    let y : Symbol := ⟨0, 2, "y", .integer (some ⟨0, 3⟩)⟩
    let disjuncts : List Expr := [p, .compare .equal (.sum x x) (.symbol y)]
    let kb := ((KnowledgeBase.empty {}).add [.compare .less x (.constant 1)]).2
    let tight : KnowledgeBase := { kb with config := { atomLimit := 8 } }
    let narrow : KnowledgeBase := { kb with config := { domainLimit := 3 } }
    Reachable (fun _ => True) kb ∧ ((Build.clauseOf disjuncts).run.run tight).2.atomCount = kb.atomCount + 4 ∧
      (tight.add disjuncts).1 = .error (.atomsExceeded 8) ∧ (tight.add disjuncts).2 = tight ∧
      (narrow.declare y).1 = .error (.domainExceeded 3) ∧ (narrow.declare y).2 = narrow := by
  intro p x y disjuncts kb tight narrow
  have reached : Reachable (fun _ => True) kb := .add (.empty trivial) _
  have exceeded : (tight.add disjuncts).1 = .error (.atomsExceeded 8) := by decide +kernel
  have wide : (narrow.declare y).1 = .error (.domainExceeded 3) := by decide +kernel
  exact ⟨reached, by decide +kernel, exceeded, (unchanged_of_refused reached _).1 disjuncts _ exceeded,
    wide, (unchanged_of_refused reached _).2 y _ wide⟩

section Storing

/-- Storing a clause adds at most one, which has no literal on the atom that always holds. -/
theorem store_cases (kb : KnowledgeBase) (c : Clause) : (kb.store c).2.clauses = kb.clauses ∨
    ∃ d, d.Settled ∧ (kb.store c).2.clauses = kb.clauses.push d := by
  unfold store
  split
  · exact .inl rfl
  · next absent =>
    split
    · exact .inl rfl
    · next normal found =>
      refine .inr ⟨normal, fun l member => ?_, rfl⟩
      obtain ⟨listed, different⟩ := List.mem_filter.mp (((Clause.normalise_some found).2 l).mp member)
      rintro same
      obtain ⟨a, p⟩ := l
      obtain rfl : a = Atom.top := same
      cases p with
      | true => exact absent (by simpa [Literal.top, Literal.positive] using listed)
      | false => exact absurd rfl (bne_iff_ne.mp different)

theorem storeAll_append_clauses (kb : KnowledgeBase) (cs : List Clause) :
    ∃ ds, (∀ d ∈ ds, d.Settled) ∧ (kb.storeAll cs).clauses.toList = kb.clauses.toList ++ ds := by
  induction cs generalizing kb with
  | nil => exact ⟨[], by simp, by simp [storeAll]⟩
  | cons c cs ih =>
    obtain ⟨ds, settled, later⟩ := ih (kb.store c).2
    rcases kb.store_cases c with same | ⟨d, first, pushed⟩
    · exact ⟨ds, settled, by rw [← same]; exact later⟩
    · refine ⟨d :: ds, List.forall_mem_cons.mpr ⟨first, settled⟩, ?_⟩
      rw [pushed, Array.toList_push, List.append_assoc] at later
      exact later

end Storing

/-- Each atom stands for what it was made for, the atom that always holds occurs in the first clause
only, and no key is twice in a table. -/
structure Traced (kb : KnowledgeBase) : Prop where
  top : kb.origin? Atom.top = some .top
  origins : ∀ item i a, a ≠ Atom.top → kb.Owns item i a →
    ∃ o, kb.standsFor item i = some o ∧ kb.origin? a = some o
  clauses : ∃ rest, kb.clauses.toList = [Literal.top] :: rest ∧ ∀ c ∈ rest, Clause.Settled c
  encodings : kb.encodings.keys.Nodup
  comparisons : kb.comparisons.keys.Nodup

theorem Retains.standsFor (retains : kb.Retains more) (known : kb.standsFor item i = some o) :
    more.standsFor item i = some o := by
  unfold KnowledgeBase.standsFor at known ⊢
  split at known
  · exact known
  · obtain ⟨enc, found, same⟩ := Option.map_eq_some_iff.mp known
    exact Option.map_eq_some_iff.mpr ⟨enc, retains.encodings _ enc found, same⟩
  · exact known
  · exact known
  · cases known

/-- A step puts at most one key into a table, which was not there. -/
theorem Step.nodup_keys (step : kb.Step more) (encodings : kb.encodings.keys.Nodup)
    (comparisons : kb.comparisons.keys.Nodup) :
    more.encodings.keys.Nodup ∧ more.comparisons.keys.Nodup := by
  cases step with
  | boolean new boolean room => exact ⟨encodings, comparisons⟩
  | symbol new integer small room => exact ⟨Table.nodup_insert new encodings _, comparisons⟩
  | constant new => exact ⟨Table.nodup_insert new encodings _, comparisons⟩
  | sum new first second domain small room => exact ⟨Table.nodup_insert new encodings _, comparisons⟩
  | comparison new first second room => exact ⟨encodings, Table.nodup_insert new comparisons _⟩

theorem Traced.empty (config : Config) : (KnowledgeBase.empty config).Traced := by
  refine ⟨rfl, fun item i a apart owns => ?_, ⟨[], rfl, by simp⟩, List.nodup_nil, List.nodup_nil⟩
  obtain ⟨ls, found, -⟩ := owns
  cases item <;> cases found

theorem Traced.store (traced : kb.Traced) (c : Clause) : (kb.store c).2.Traced := by
  obtain ⟨rest, clauses, settled⟩ := traced.clauses
  have shape : ∃ rest, (kb.store c).2.clauses.toList = [Literal.top] :: rest ∧ ∀ c ∈ rest, Clause.Settled c := by
    rcases kb.store_cases c with same | ⟨d, new, pushed⟩
    · exact ⟨rest, by rw [same, clauses], settled⟩
    · refine ⟨rest ++ [d], by rw [pushed, Array.toList_push, clauses]; rfl, fun e member => ?_⟩
      rcases List.mem_append.mp member with old | last
      · exact settled e old
      · exact List.mem_singleton.mp last ▸ new
  rw [store_frame]
  exact ⟨traced.top, traced.origins, shape, traced.encodings, traced.comparisons⟩

/-- New atoms get the origins that say what they stand for; of the others nothing changes. -/
theorem Traced.step (traced : kb.Traced) (formed : kb.WellFormed) (step : kb.Step more) :
    more.Traced := by
  obtain ⟨item, cs, os, adds, origins, standing⟩ := step.adds formed
  have listed : ∀ a, more.origin? a = (kb.origins.toList ++ os)[a]? := by
    intro a
    rw [origin?, origins, ← Array.getElem?_toList, Array.toList_appendList]
  have old : ∀ {a o}, kb.origin? a = some o → more.origin? a = some o := by
    intro a o found
    rw [listed, List.getElem?_append_left (Array.getElem?_eq_some_iff.mp found).1, Array.getElem?_toList]
    exact found
  obtain ⟨encodings, comparisons⟩ := step.nodup_keys traced.encodings traced.comparisons
  refine ⟨old traced.top, fun other i a apart owns => ?_, ?_, encodings, comparisons⟩
  · rcases adds.owns (Nat.pos_of_ne_zero apart) owns with ⟨rfl, inside, rfl⟩ | ⟨-, before⟩
    · have found : os[i]? = some os[i] := List.getElem?_eq_getElem inside
      refine ⟨os[i], standing i os[i] found, ?_⟩
      rw [listed, atomCount, ← Array.length_toList, List.getElem?_append_right (Nat.le_add_right _ _),
        Nat.add_sub_cancel_left, found]
    · obtain ⟨o, known, found⟩ := traced.origins other i a apart before
      exact ⟨o, adds.retains.standsFor known, old found⟩
  · obtain ⟨rest, clauses, settled⟩ := traced.clauses
    obtain ⟨ds, later, stored⟩ := kb.storeAll_append_clauses cs
    refine ⟨rest ++ ds, by rw [adds.clauses, stored, clauses, List.cons_append], fun c member => ?_⟩
    exact (List.mem_append.mp member).elim (settled c) (later c)

/-- What holds of an empty knowledge base and is kept by compiling, by storing a clause and by
configuring holds of every knowledge base that can be reached. -/
theorem Reachable.keep_compiled {P : KnowledgeBase → Prop}
    (start : ∀ {config}, allowed config → P (.empty config))
    (compile : ∀ {kb more : KnowledgeBase} {added : List (List Expr)} {scope : Expr → Prop}, kb.WellFormed →
      kb.Compiles more added scope → P kb → P more)
    (store : ∀ {kb : KnowledgeBase} (c : Clause), P kb → P (kb.store c).2)
    (configure : ∀ {kb : KnowledgeBase} {config : Config}, allowed config → P kb →
      P { kb with config := config })
    (reached : Reachable allowed kb) : P kb := by
  have add : ∀ {kb more disjuncts r}, P kb → (∃ added, Built kb added) →
      kb.add disjuncts = (r, more) → P more := by
    rintro kb more disjuncts r before ⟨added, built⟩ result
    rcases add_spec built.faithful result with ⟨-, -, rfl⟩ | ⟨stored, mid, c, -, compiles, -, rfl⟩
    · exact before
    · exact store c (compile built.faithful.toWellFormed compiles before)
  have declare : ∀ {kb more s r}, P kb → (∃ added, Built kb added) → kb.declare s = (r, more) →
      P more := by
    rintro kb more s r before ⟨added, built⟩ result
    rcases declare_spec built.faithful result with ⟨-, -, rfl⟩ | ⟨-, compiles⟩
    · exact before
    · exact compile built.faithful.toWellFormed compiles before
  induction reached with
  | empty permitted => exact start permitted
  | add reached disjuncts ih => exact add ih reached.built rfl
  | declare reached s ih =>
    exact declare ih reached.built rfl
  | read reached session source ih =>
    have both := read_keeps (P := fun kb => (∃ added, Built kb added) ∧ P kb)
      (fun before succeeds => ⟨before.1.imp' _ fun _ built => built.added succeeds, add before.2 before.1 succeeds⟩)
      ⟨reached.built, ih⟩ (Prod.mk.eta (p := KnowledgeBase.read _ session source)).symm
    exact both.2
  | configure _ permitted ih => exact configure permitted ih

/-- The same if what is kept is kept by compiling one item more. -/
theorem Reachable.keep {P : KnowledgeBase → Prop} (start : ∀ {config}, allowed config → P (.empty config))
    (step : ∀ {kb more : KnowledgeBase}, kb.WellFormed → kb.Step more → P kb → P more)
    (store : ∀ {kb : KnowledgeBase} (c : Clause), P kb → P (kb.store c).2)
    (configure : ∀ {kb : KnowledgeBase} {config : Config}, allowed config → P kb →
      P { kb with config := config })
    (reached : Reachable allowed kb) : P kb :=
  reached.keep_compiled start (fun formed compiles before => compiles.steps.keep step formed before) store configure

theorem Reachable.traced (reached : Reachable allowed kb) : kb.Traced := by
  refine reached.keep (fun _ => .empty _) (fun formed step traced => traced.step formed step)
    (fun c traced => traced.store c) fun _ traced => ?_
  exact ⟨traced.top, traced.origins, traced.clauses, traced.encodings, traced.comparisons⟩

/-- Atoms are made within the limit only. -/
theorem Step.atomCount_le (step : kb.Step more) {limit : Nat} (within : kb.config.atomLimit ≤ limit)
    (before : kb.atomCount ≤ limit) : more.atomCount ≤ limit := by
  have room : ∀ {n}, kb.Room n → kb.atomCount + n ≤ limit := by
    rintro n (rfl | inside)
    · exact before
    · exact Nat.le_trans inside within
  cases step with
  | boolean new boolean space => simpa [withBoolean, atomCount] using room space
  | symbol new integer small space => simpa [atomCount_withEncoding] using room space
  | constant new => simpa [atomCount_withEncoding] using before
  | sum new first second domain small space => simpa [atomCount_withEncoding] using room space
  | comparison new first second space => simpa [withComparison, atomCount] using room space

theorem Step.config (step : kb.Step more) : more.config = kb.config := by
  cases step <;> rfl

theorem Reachable.atomCount_le (reached : Reachable Config.Bounded kb) : kb.atomCount ≤ Atom.greatest := by
  have both : kb.config.Bounded ∧ kb.atomCount ≤ Atom.greatest := by
    refine reached.keep (P := fun kb => kb.config.Bounded ∧ kb.atomCount ≤ Atom.greatest)
      (fun permitted => ⟨permitted, Nat.le_of_ble_eq_true rfl⟩) (fun _ step before => ?_)
      (fun c before => ?_) fun permitted before => ⟨permitted, before.2⟩
    · rw [step.config]
      exact ⟨before.1, step.atomCount_le before.1.2 before.2⟩
    · rw [store_frame]
      exact before
  exact both.2

section Representation

/-- An atom was made for a position of an item, and its origin says so. -/
inductive OwnedBy (kb : KnowledgeBase) (a : Atom) : Item → Nat → Prop where
  | boolean {s : Symbol} (found : kb.booleans.get? s = some a) (boolean : s.isBoolean = true)
      (origin : kb.origin? a = some (.boolean s)) : OwnedBy kb a (.boolean s) 0
  | symbol {s : Symbol} {enc : Encoding} {i : Nat} (found : kb.encodings.get? (.symbol s) = some enc)
      (integer : s.isBoolean = false) (position : enc.indicators[i]? = some (.positive a))
      (origin : kb.origin? a = some (.indicator s (enc.domain.min + i))) :
      OwnedBy kb a (.integer (.symbol s)) i
  | sum {left right : Expr} {enc : Encoding} {i : Nat}
      (found : kb.encodings.get? (.sum left right) = some enc)
      (position : enc.indicators[i]? = some (.positive a)) (origin : kb.origin? a = some .auxiliary) :
      OwnedBy kb a (.integer (.sum left right)) i
  | comparison {op : Comparison} {left right : Expr}
      (found : kb.comparisons.get? (.compare op left right) = some a)
      (origin : kb.origin? a = some .auxiliary) : OwnedBy kb a (.comparison (.compare op left right)) 0

/-- A knowledge base is in order: its first clause says that the atom that always holds does, and all
others are normal clauses on other atoms of it; each of these belongs to one position of one item; and
the tables hold full encodings of whatever the expressions in them are made of, under distinct keys. -/
structure Intact (kb : KnowledgeBase) : Prop where
  top : kb.origin? Atom.top = some .top
  clauses : ∃ rest, kb.clauses.toList = [Literal.top] :: rest ∧
    ∀ c ∈ rest, Clause.Normal c ∧ ∀ l ∈ c, l.atom ≠ Atom.top ∧ l.atom < kb.atomCount
  owned : ∀ a, a ≠ Atom.top → a < kb.atomCount → ∃ item i, kb.OwnedBy a item i ∧
    ∀ item' i', kb.Owns item' i' a → item' = item ∧ i' = i
  literals : ∀ item ls, kb.literals? item = some ls → ∀ l ∈ ls, ∃ a < kb.atomCount, l = .positive a
  full : ∀ e enc, kb.encodings.get? e = some enc → enc.indicators.length = enc.domain.count
  parts : ∀ e enc, kb.encodings.get? e = some enc → ∀ p ∈ e.parts, ∃ enc, kb.encodings.get? p = some enc
  operands : ∀ e a, kb.comparisons.get? e = some a → ∀ p ∈ e.parts, p ≠ e →
    ∃ enc, kb.encodings.get? p = some enc
  encodedOnce : kb.encodings.keys.Nodup
  comparedOnce : kb.comparisons.keys.Nodup
  atoms : kb.atomCount ≤ Atom.greatest
  search : Search.occurrencesIn? kb.clauses kb.atomCount = some kb.search.occurrences
  normal : ∀ c ∈ kb.clauses, c.Normal

theorem WellFormed.ownedBy (formed : kb.WellFormed) (owns : kb.Owns item i a)
    (standing : kb.standsFor item i = some o) (origin : kb.origin? a = some o) : kb.OwnedBy a item i := by
  obtain ⟨ls, found, position⟩ := owns
  unfold standsFor at standing
  split at standing
  · next s =>
    obtain ⟨b, known, rfl⟩ := Option.map_eq_some_iff.mp found
    obtain ⟨inside, same⟩ := List.getElem?_eq_some_iff.mp position
    obtain rfl : i = 0 := Nat.lt_one_iff.mp inside
    cases same
    cases standing
    exact .boolean known (formed.boolean s _ known) origin
  · next s =>
    obtain ⟨enc, known, rfl⟩ := Option.map_eq_some_iff.mp found
    rw [known] at standing
    cases standing
    exact .symbol known (formed.encoded _ enc known).2 position origin
  · obtain ⟨enc, known, rfl⟩ := Option.map_eq_some_iff.mp found
    cases standing
    exact .sum known position origin
  · next op left right =>
    obtain ⟨b, known, rfl⟩ := Option.map_eq_some_iff.mp found
    obtain ⟨inside, same⟩ := List.getElem?_eq_some_iff.mp position
    obtain rfl : i = 0 := Nat.lt_one_iff.mp inside
    cases same
    cases standing
    exact .comparison known origin
  · cases standing

/-- All that an encoded expression is made of is encoded. -/
theorem WellFormed.parts_encoded (formed : kb.WellFormed) {enc : Encoding}
    (found : kb.encodings.get? e = some enc) : ∀ p ∈ e.parts, ∃ enc, kb.encodings.get? p = some enc := by
  induction e generalizing enc with
  | symbol s => exact List.forall_mem_singleton.mpr ⟨enc, found⟩
  | constant value => exact List.forall_mem_singleton.mpr ⟨enc, found⟩
  | sum left right ihl ihr =>
    obtain ⟨l, r, first, second, -⟩ := (formed.encoded _ enc found).2
    exact List.forall_mem_cons.mpr ⟨⟨enc, found⟩, List.forall_mem_append.mpr ⟨ihl first, ihr second⟩⟩
  | not e _ => exact (formed.encoded _ enc found).2.elim
  | compare op left right _ _ => exact (formed.encoded _ enc found).2.elim

theorem WellFormed.operands_encoded (formed : kb.WellFormed) (found : kb.comparisons.get? e = some a) :
    ∀ p ∈ e.parts, p ≠ e → ∃ enc, kb.encodings.get? p = some enc := by
  obtain ⟨op, left, right, l, r, rfl, first, second⟩ := formed.compared e a found
  intro p member apart
  rcases List.mem_append.mp (List.mem_of_ne_of_mem apart member) with inLeft | inRight
  · exact formed.parts_encoded first p inLeft
  · exact formed.parts_encoded second p inRight

/-- Every knowledge base that operations lead to, whether they succeed or fail, is in order. -/
theorem Reachable.intact (reached : Reachable Config.Bounded kb) : kb.Intact := by
  obtain ⟨added, faithful⟩ := reached.faithful
  have formed := faithful.toWellFormed
  have traced := reached.traced
  obtain ⟨rest, clauses, settled⟩ := traced.clauses
  have inside : ∀ c ∈ rest, c ∈ kb.clauses := fun c member =>
    Array.mem_toList_iff.mp (clauses ▸ List.mem_cons_of_mem _ member)
  refine ⟨traced.top, ⟨rest, clauses, fun c member => ?_⟩, fun a apart within => ?_, formed.positive,
    fun e enc found => (formed.encoded e enc found).1, fun e enc found => formed.parts_encoded found,
    fun e a found => formed.operands_encoded found, traced.encodings, traced.comparisons,
    reached.atomCount_le, Search.occurrencesIn?_eq formed.below, formed.normal⟩
  · exact ⟨formed.normal c (inside c member), fun l listed =>
      ⟨settled c member l listed, formed.below c (inside c member) l listed⟩⟩
  · obtain ⟨item, i, owns⟩ := formed.covered a (Nat.pos_of_ne_zero apart) within
    obtain ⟨o, standing, origin⟩ := traced.origins item i a apart owns
    refine ⟨item, i, formed.ownedBy owns standing origin, fun item' i' other => ?_⟩
    exact formed.unique a (Nat.pos_of_ne_zero apart) item' i' item i other owns

/-- After a clause with a sum, a failure deep inside another one, and a formula that is read. -/
theorem intact_after_refusal :
    let x : Expr := .symbol ⟨0, 0, "x", .integer (some ⟨0, 1⟩)⟩
    let y : Expr := .symbol ⟨0, 1, "y", .integer none⟩
    let first := ((KnowledgeBase.empty {}).add [.compare .less (.sum x x) (.constant 1)]).2
    let second := (first.add [.compare .equal (.sum x (.constant 5)) y]).2
    let last := (second.read (.empty 1) (.ofText "1 -2 0\n")).2.2
    Reachable Config.Bounded last ∧ last.atomCount = 9 ∧ last.Intact := by
  intro x y first second last
  have start : Config.Bounded {} := ⟨by decide, by decide⟩
  have begun : Reachable Config.Bounded first := .add (.empty start) _
  have refused : Reachable Config.Bounded second := .add begun _
  have reached : Reachable Config.Bounded last := .read refused _ _
  exact ⟨reached, by decide +kernel, reached.intact⟩

end Representation

end KnowledgeBase

end Clausal

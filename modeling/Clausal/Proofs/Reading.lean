import Clausal.Proofs.Reachability
import Mathlib.Data.Set.Function

/-!
Models as assignments. A model of the clauses of a knowledge base is read as an
assignment to its symbols, and each assignment that fits and makes the added
disjunctions true is read from exactly one model: the values of the symbols
determine those of all other atoms.
-/

namespace Clausal.KnowledgeBase

variable {kb : KnowledgeBase} {added : List (List Expr)} {v w : Valuation} {α : Assignment} {e : Expr}
  {enc : Encoding} {s : Symbol} {n : Int} {a i : Nat} {item : Item} {l : Literal}

/-- A valuation in terms of symbols. -/
def reading (kb : KnowledgeBase) (v : Valuation) : Assignment where
  boolean? := (Model.mk kb v).boolean?
  integer? := (Model.mk kb v).integer?

/-- An assignment to the symbols of a knowledge base: each boolean one has a truth value, each integer
one a value of the domain it was encoded over, and no other symbol has a value. -/
structure Fits (kb : KnowledgeBase) (α : Assignment) : Prop where
  boolean : ∀ s, (∃ b, α.boolean? s = some b) ↔ ∃ a, kb.booleans.get? s = some a
  integer : ∀ s, (∃ n, α.integer? s = some n) ↔ ∃ enc, kb.encodings.get? (.symbol s) = some enc
  inside : ∀ s enc n, kb.encodings.get? (.symbol s) = some enc → α.integer? s = some n →
    enc.domain.contains n = true

/-- An assignment has the values that the symbols have under a valuation. -/
structure Agrees (kb : KnowledgeBase) (α : Assignment) (v : Valuation) : Prop where
  boolean : ∀ s a, kb.booleans.get? s = some a → α.boolean? s = some (v.holds (.positive a))
  integer : ∀ s enc n, kb.encodings.get? (.symbol s) = some enc → enc.Shows v n → α.integer? s = some n

/-- What it means under an assignment that the literal at a position of an item is true. -/
def Means (kb : KnowledgeBase) (α : Assignment) (i : Nat) : Item → Prop
  | .boolean s => α.boolean? s = some true
  | .integer e => ∃ enc, kb.encodings.get? e = some enc ∧ e.value? α = some (enc.domain.value i)
  | .comparison e => e.truth? α = some true

section Agreement

/-- An encoded expression has the value that it shows. -/
theorem Agrees.value (agrees : kb.Agrees α v) (formed : kb.WellFormed) (consistent : kb.Consistent added v)
    (found : kb.encodings.get? e = some enc) (shown : enc.Shows v n) : e.value? α = some n := by
  induction e generalizing enc n with
  | symbol s => exact agrees.integer s enc n found shown
  | constant value =>
    have same : enc = Build.encodeConstant value := (formed.encoded _ enc found).2
    have inside := shown.inside
    rw [same, Domain.contains_iff] at inside
    exact congrArg some (Int.le_antisymm inside.1 inside.2)
  | sum left right ihl ihr =>
    obtain ⟨a, b, ⟨l, first, showsLeft⟩, ⟨r, second, showsRight⟩, sum⟩ := consistent.sums left right enc found
    rw [Expr.value?_sum (ihl first showsLeft) (ihr second showsRight),
      sum.unique (formed.encoded _ enc found).1 shown]
  | not e _ => exact (formed.encoded _ enc found).2.elim
  | compare op left right _ _ => exact (formed.encoded _ enc found).2.elim

theorem Agrees.comparison (agrees : kb.Agrees α v) (formed : kb.WellFormed)
    (consistent : kb.Consistent added v) (found : kb.comparisons.get? e = some a) :
    e.truth? α = some (v.holds (.positive a)) := by
  obtain ⟨op, left, right, _, _, rfl, -, -⟩ := formed.compared e a found
  obtain ⟨m, n, ⟨l, first, showsLeft⟩, ⟨r, second, showsRight⟩, holds⟩ :=
    consistent.comparisons op left right a found
  rw [holds]
  exact Expr.truth?_compare op (agrees.value formed consistent first showsLeft)
    (agrees.value formed consistent second showsRight)

/-- A compiled expression has the truth value of its literal. -/
theorem Agrees.truth (agrees : kb.Agrees α v) (formed : kb.WellFormed) (consistent : kb.Consistent added v)
    (large : kb.atomCount ≤ v.size) (found : kb.literal? e = some l) :
    e.truth? α = some (v.holds l) := by
  induction e generalizing l with
  | symbol s =>
    obtain ⟨a, known, rfl⟩ := Option.map_eq_some_iff.mp found
    exact agrees.boolean s a known
  | not e ih =>
    obtain ⟨m, known, rfl⟩ := Option.map_eq_some_iff.mp found
    rw [Expr.truth?, ih known, Valuation.holds_neg (Nat.lt_of_lt_of_le (formed.literal_lt known) large)]
    rfl
  | compare op left right _ _ =>
    obtain ⟨a, known, rfl⟩ := Option.map_eq_some_iff.mp found
    exact agrees.comparison formed consistent known
  | constant value => cases found
  | sum left right _ _ => cases found

/-- The added disjunctions hold. -/
theorem Agrees.satisfies (agrees : kb.Agrees α v) (formed : kb.WellFormed)
    (consistent : kb.Consistent added v) (large : kb.atomCount ≤ v.size) :
    ∀ disjuncts ∈ added, α.Satisfies disjuncts := by
  intro disjuncts member
  obtain ⟨e, listed, l, found, holds⟩ := consistent.added disjuncts member
  exact ⟨e, listed, by rw [agrees.truth formed consistent large found, holds]⟩

/-- The truth value of an atom is determined by the assignment. -/
theorem Agrees.holds_iff (agrees : kb.Agrees α v) (formed : kb.WellFormed)
    (consistent : kb.Consistent added v) (owns : kb.Owns item i a) :
    v.holds (.positive a) = true ↔ kb.Means α i item := by
  obtain ⟨ls, found, position⟩ := owns
  cases item with
  | boolean s =>
    obtain ⟨b, known, rfl⟩ := Option.map_eq_some_iff.mp found
    have same := List.mem_singleton.mp (List.mem_of_getElem? position)
    rw [Means, agrees.boolean s b known, ← same, Option.some.injEq]
  | integer e =>
    obtain ⟨enc, known, rfl⟩ := Option.map_eq_some_iff.mp found
    obtain ⟨n, shown⟩ := consistent.shown e enc known
    rw [shown.indicates i _ position, Means]
    constructor
    · intro same
      exact ⟨enc, known, same ▸ agrees.value formed consistent known shown⟩
    · rintro ⟨other, also, value⟩
      rw [known, Option.some.injEq] at also
      rw [agrees.value formed consistent known shown, Option.some.injEq] at value
      exact also ▸ value.symm
  | comparison e =>
    obtain ⟨b, known, rfl⟩ := Option.map_eq_some_iff.mp found
    have same := List.mem_singleton.mp (List.mem_of_getElem? position)
    rw [Means, agrees.comparison formed consistent known, ← same, Option.some.injEq]

end Agreement

section Reading

theorem reading_boolean (found : kb.booleans.get? s = some a) : (kb.reading v).boolean? s = v[a]? := by
  simp [reading, Model.boolean?, atomOf?, found]

/-- The value read is the one of the first indicator that is true, which is the only one. -/
theorem reading_integer (full : enc.Full) (found : kb.encodings.get? (.symbol s) = some enc)
    (shown : enc.Shows v n) : (kb.reading v).integer? s = some n := by
  obtain ⟨i, rfl, inside⟩ := Domain.exists_index shown.inside
  have bound : i < enc.indicators.length := full ▸ inside
  have first : enc.indicators.findIdx? v.holds = some i := by
    rw [List.findIdx?_eq_some_iff_getElem]
    refine ⟨bound, (shown.indicates i _ (List.getElem?_eq_getElem bound)).mpr rfl, fun j less => ?_⟩
    have within : j < enc.indicators.length := Nat.lt_trans less bound
    intro holds
    have same := (shown.indicates j _ (List.getElem?_eq_getElem within)).mp holds
    exact Nat.ne_of_lt less (Domain.value_inj.mp same)
  simp [reading, Model.integer?, found, first, inside]

theorem reading_agrees (formed : kb.WellFormed) (large : kb.atomCount ≤ v.size) :
    kb.Agrees (kb.reading v) v := by
  refine ⟨fun s a found => ?_, fun s enc n found shown => ?_⟩
  · have own : kb.literals? (.boolean s) = some [.positive a] := by simp [literals?, found]
    have inside := Nat.lt_of_lt_of_le (formed.owns_lt ⟨_, own, List.getElem?_cons_zero⟩) large
    rw [reading_boolean found, Array.getElem?_eq_getElem inside, Valuation.holds, Literal.positive,
      Array.getElem?_eq_getElem inside]
    cases v[a] <;> rfl
  · exact reading_integer (formed.encoded _ enc found).1 found shown

/-- An assignment that fits and agrees with a valuation is what is read from it. -/
theorem Fits.reading_eq (fits : kb.Fits α) (agrees : kb.Agrees α v) (formed : kb.WellFormed)
    (consistent : kb.Consistent added v) (large : kb.atomCount ≤ v.size) : kb.reading v = α := by
  have same := reading_agrees formed large
  obtain ⟨boolean?, integer?⟩ := α
  refine congrArg₂ Assignment.mk (funext fun s => ?_) (funext fun s => ?_)
  · cases found : kb.booleans.get? s with
    | some a => exact (same.boolean s a found).trans (agrees.boolean s a found).symm
    | none =>
      have absent : boolean? s = none := by
        by_contra value
        obtain ⟨a, known⟩ := (fits.boolean s).mp (Option.ne_none_iff_exists'.mp value)
        rw [found] at known
        cases known
      rw [absent]
      simp [Model.boolean?, atomOf?, found]
  · cases found : kb.encodings.get? (.symbol s) with
    | some enc =>
      obtain ⟨n, shown⟩ := consistent.shown _ enc found
      exact (same.integer s enc n found shown).trans (agrees.integer s enc n found shown).symm
    | none =>
      have absent : integer? s = none := by
        by_contra value
        obtain ⟨enc, known⟩ := (fits.integer s).mp (Option.ne_none_iff_exists'.mp value)
        rw [found] at known
        cases known
      rw [absent]
      simp [Model.integer?, found]

theorem reading_fits (formed : kb.WellFormed) (consistent : kb.Consistent added v)
    (large : kb.atomCount ≤ v.size) : kb.Fits (kb.reading v) := by
  have agrees := reading_agrees formed large
  refine ⟨fun s => ⟨?_, ?_⟩, fun s => ⟨?_, ?_⟩, fun s enc n found value => ?_⟩
  · rintro ⟨b, value⟩
    cases found : kb.booleans.get? s with
    | some a => exact ⟨a, rfl⟩
    | none => simp [reading, Model.boolean?, atomOf?, found] at value
  · rintro ⟨a, found⟩
    exact ⟨_, agrees.boolean s a found⟩
  · rintro ⟨n, value⟩
    cases found : kb.encodings.get? (.symbol s) with
    | some enc => exact ⟨enc, rfl⟩
    | none => simp [reading, Model.integer?, found] at value
  · rintro ⟨enc, found⟩
    obtain ⟨n, shown⟩ := consistent.shown _ enc found
    exact ⟨n, agrees.integer s enc n found shown⟩
  · obtain ⟨m, shown⟩ := consistent.shown _ enc found
    rw [agrees.integer s enc m found shown, Option.some.injEq] at value
    exact value ▸ shown.inside

/-- Two valuations that read the same are the same. -/
theorem eq_of_agrees (formed : kb.WellFormed) (first : kb.Agrees α v) (second : kb.Agrees α w)
    (consistent : kb.Consistent added v) (consistent' : kb.Consistent added w)
    (size : v.size = kb.atomCount) (size' : w.size = kb.atomCount) : v = w := by
  refine Array.ext (size.trans size'.symm) fun a inside inside' => ?_
  have same : v.holds (.positive a) = true ↔ w.holds (.positive a) = true := by
    rcases Nat.eq_zero_or_pos a with rfl | positive
    · exact iff_of_true consistent.top consistent'.top
    · obtain ⟨item, i, owns⟩ := formed.covered a positive (size ▸ inside)
      exact (first.holds_iff formed consistent owns).trans (second.holds_iff formed consistent' owns).symm
  rw [Valuation.holds_iff, Valuation.holds_iff, Literal.positive, Array.getElem?_eq_getElem inside,
    Array.getElem?_eq_getElem inside', Option.some.injEq, Option.some.injEq] at same
  exact Bool.eq_iff_iff.mpr same

end Reading

section Existence

open Classical in
/-- The valuation that an assignment determines. -/
noncomputable def valuation (kb : KnowledgeBase) (α : Assignment) : Valuation :=
  Array.ofFn fun a : Fin kb.atomCount => decide (a.val = 0 ∨ ∃ item i, kb.Owns item i a ∧ kb.Means α i item)

/-- An encoded expression has a value of its domain. -/
theorem Fits.value (fits : kb.Fits α) (formed : kb.WellFormed) (found : kb.encodings.get? e = some enc) :
    ∃ n, e.value? α = some n ∧ enc.domain.contains n = true := by
  induction e generalizing enc with
  | symbol s =>
    obtain ⟨n, value⟩ := (fits.integer s).mpr ⟨enc, found⟩
    exact ⟨n, value, fits.inside s enc n found value⟩
  | constant value =>
    have same : enc = Build.encodeConstant value := (formed.encoded _ enc found).2
    refine ⟨value, rfl, ?_⟩
    rw [same, Domain.contains_iff]
    exact ⟨Int.le_refl _, Int.le_refl _⟩
  | sum left right ihl ihr =>
    obtain ⟨l, r, first, second, domain⟩ := (formed.encoded _ enc found).2
    obtain ⟨m, left, insideLeft⟩ := ihl first
    obtain ⟨n, right, insideRight⟩ := ihr second
    exact ⟨m + n, Expr.value?_sum left right, Domain.contains_sum? domain insideLeft insideRight⟩
  | not e _ => exact (formed.encoded _ enc found).2.elim
  | compare op left right _ _ => exact (formed.encoded _ enc found).2.elim

/-- A compiled expression has a truth value. -/
theorem Fits.truth (fits : kb.Fits α) (formed : kb.WellFormed) (found : kb.literal? e = some l) :
    ∃ b, e.truth? α = some b := by
  induction e generalizing l with
  | symbol s =>
    obtain ⟨a, known, -⟩ := Option.map_eq_some_iff.mp found
    exact (fits.boolean s).mpr ⟨a, known⟩
  | not e ih =>
    obtain ⟨m, known, -⟩ := Option.map_eq_some_iff.mp found
    obtain ⟨b, value⟩ := ih known
    exact ⟨!b, by rw [Expr.truth?, value]; rfl⟩
  | compare op left right _ _ =>
    obtain ⟨a, known, -⟩ := Option.map_eq_some_iff.mp found
    obtain ⟨_, _, _, _, _, ⟨⟩, first, second⟩ := formed.compared _ a known
    obtain ⟨m, left', -⟩ := fits.value formed first
    obtain ⟨n, right', -⟩ := fits.value formed second
    exact ⟨op.holds m n, Expr.truth?_compare op left' right'⟩
  | constant value => cases found
  | sum left right _ _ => cases found

theorem size_valuation : (kb.valuation α).size = kb.atomCount := by
  simp [valuation]

theorem top_valuation (formed : kb.WellFormed) : (kb.valuation α).holds Literal.top = true := by
  have inside : 0 < (kb.valuation α).size := size_valuation ▸ formed.nonempty
  rw [Valuation.holds_iff, Literal.top, Literal.positive, Atom.top, Array.getElem?_eq_getElem inside]
  simp [valuation]

theorem holds_valuation (formed : kb.WellFormed) (positive : 0 < a) (owns : kb.Owns item i a) :
    (kb.valuation α).holds (.positive a) = true ↔ kb.Means α i item := by
  have inside : a < (kb.valuation α).size := size_valuation ▸ formed.owns_lt owns
  rw [Valuation.holds_iff, Literal.positive, Array.getElem?_eq_getElem inside, Option.some.injEq]
  simp only [valuation, Array.getElem_ofFn, decide_eq_true_eq]
  constructor
  · rintro (zero | ⟨other, j, also, means⟩)
    · exact absurd zero (Nat.ne_of_gt positive)
    · obtain ⟨rfl, rfl⟩ := formed.unique a positive _ _ _ _ owns also
      exact means
  · exact fun means => .inr ⟨item, i, owns, means⟩

/-- Each encoding shows the value of its expression. -/
theorem Fits.shows_valuation (fits : kb.Fits α) (formed : kb.WellFormed)
    (found : kb.encodings.get? e = some enc) (value : e.value? α = some n) :
    enc.Shows (kb.valuation α) n := by
  obtain ⟨m, also, inside⟩ := fits.value formed found
  rw [value, Option.some.injEq] at also
  subst also
  have own : kb.literals? (.integer e) = some enc.indicators := by simp [literals?, found]
  refine ⟨inside, fun i l position => ?_⟩
  obtain ⟨a, -, rfl⟩ := formed.positive _ _ own l (List.mem_of_getElem? position)
  rcases Nat.eq_zero_or_pos a with rfl | positive
  · -- Only constants have the literal that always holds.
    obtain ⟨value', ⟨⟩⟩ := formed.top _ _ own (List.mem_of_getElem? position)
    have same : enc = Build.encodeConstant value' := (formed.encoded _ enc found).2
    rw [same] at position ⊢
    obtain ⟨small, -⟩ := List.getElem?_eq_some_iff.mp position
    obtain rfl : i = 0 := Nat.lt_one_iff.mp small
    refine iff_of_true (top_valuation formed) ?_
    simpa [Build.encodeConstant, Domain.singleton, Domain.value, Expr.value?] using value
  · rw [holds_valuation formed positive ⟨_, own, position⟩, Means]
    constructor
    · rintro ⟨other, known, same⟩
      rw [found, Option.some.injEq] at known
      rw [value, Option.some.injEq] at same
      exact known ▸ same.symm
    · intro same
      exact ⟨enc, found, same ▸ value⟩

/-- An item other than a constant has no literal that always holds. -/
private theorem positive_of_owns (formed : kb.WellFormed) (owns : kb.Owns item i a)
    (other : ∀ value, item ≠ .integer (.constant value)) : 0 < a := by
  obtain ⟨ls, found, position⟩ := owns
  rcases Nat.eq_zero_or_pos a with rfl | positive
  · obtain ⟨value, same⟩ := formed.top item ls found (List.mem_of_getElem? position)
    exact absurd same (other value)
  · exact positive

theorem Fits.agrees_valuation (fits : kb.Fits α) (formed : kb.WellFormed) :
    kb.Agrees α (kb.valuation α) := by
  refine ⟨fun s a found => ?_, fun s enc n found shown => ?_⟩
  · have owns : kb.Owns (.boolean s) 0 a := ⟨[.positive a], by simp [literals?, found], rfl⟩
    obtain ⟨b, value⟩ := (fits.boolean s).mpr ⟨a, found⟩
    have means : _ ↔ kb.Means α 0 (.boolean s) :=
      holds_valuation formed (positive_of_owns formed owns (by simp)) owns
    rw [Means, value, Option.some.injEq] at means
    rw [value, Bool.eq_iff_iff.mpr means]
  · obtain ⟨m, value, -⟩ := fits.value formed found
    have same := (fits.shows_valuation formed found value).unique (formed.encoded _ enc found).1 shown
    exact value.trans (congrArg some same)

/-- An assignment that fits and makes the added disjunctions true gives a model. -/
theorem Fits.consistent_valuation (fits : kb.Fits α) (faithful : kb.Faithful added)
    (satisfies : ∀ disjuncts ∈ added, α.Satisfies disjuncts) :
    kb.Consistent added (kb.valuation α) := by
  have formed := faithful.toWellFormed
  have agrees := fits.agrees_valuation formed
  have showsIn : ∀ {e enc n}, kb.encodings.get? e = some enc → e.value? α = some n →
      kb.ShowsIn (kb.valuation α) e n := fun found value =>
    ⟨_, found, fits.shows_valuation formed found value⟩
  have shown : ∀ e enc, kb.encodings.get? e = some enc → ∃ n, enc.Shows (kb.valuation α) n := by
    intro e enc found
    obtain ⟨n, value, -⟩ := fits.value formed found
    exact ⟨n, fits.shows_valuation formed found value⟩
  have core : kb.Consistent [] (kb.valuation α) := by
    refine ⟨top_valuation formed, shown, fun left right enc found => ?_, fun op left right a found => ?_,
      by simp⟩
    · obtain ⟨l, r, first, second, -⟩ := (formed.encoded _ enc found).2
      obtain ⟨m, left', -⟩ := fits.value formed first
      obtain ⟨n, right', -⟩ := fits.value formed second
      exact ⟨m, n, showsIn first left', showsIn second right',
        fits.shows_valuation formed found (Expr.value?_sum left' right')⟩
    · obtain ⟨_, _, _, l, r, ⟨⟩, first, second⟩ := formed.compared _ a found
      obtain ⟨m, left', -⟩ := fits.value formed first
      obtain ⟨n, right', -⟩ := fits.value formed second
      have owns : kb.Owns (.comparison (.compare op left right)) 0 a :=
        ⟨[.positive a], by simp [literals?, found], rfl⟩
      refine ⟨m, n, showsIn first left', showsIn second right', Bool.eq_iff_iff.mpr ?_⟩
      rw [holds_valuation formed (positive_of_owns formed owns (by simp)) owns, Means,
        Expr.truth?_compare op left' right', Option.some.injEq]
  refine ⟨core.top, core.shown, core.sums, core.comparisons, fun disjuncts member => ?_⟩
  obtain ⟨e, listed, holds⟩ := satisfies disjuncts member
  obtain ⟨l, found⟩ := faithful.compiled disjuncts member e listed
  rw [agrees.truth formed core (Nat.le_of_eq size_valuation.symm) found, Option.some.injEq] at holds
  exact ⟨e, listed, l, found, holds⟩

end Existence

section Bijection

theorem models_iff (faithful : kb.Faithful added) :
    v.Models kb.clauses kb.atomCount ↔ v.size = kb.atomCount ∧ kb.Consistent added v := by
  have clauses : (∀ c ∈ kb.clauses, v.satisfies c = true) ↔ v.All kb.clauses.toList := by
    simp [Valuation.All]
  rw [Valuation.Models, clauses]
  exact and_congr_right fun size => faithful.meaning v (Nat.le_of_eq size.symm)

/-- Reading models gives each assignment that fits and makes the added disjunctions true, and each
from one model only. -/
theorem Faithful.bijOn (faithful : kb.Faithful added) :
    Set.BijOn kb.reading {v | v.Models kb.clauses kb.atomCount}
      {α | kb.Fits α ∧ ∀ disjuncts ∈ added, α.Satisfies disjuncts} := by
  have formed := faithful.toWellFormed
  refine ⟨fun v model => ?_, fun v model w model' same => ?_, ?_⟩
  · obtain ⟨size, consistent⟩ := (models_iff faithful).mp model
    have large := Nat.le_of_eq size.symm
    exact ⟨reading_fits formed consistent large,
      (reading_agrees formed large).satisfies formed consistent large⟩
  · obtain ⟨size, consistent⟩ := (models_iff faithful).mp model
    obtain ⟨size', consistent'⟩ := (models_iff faithful).mp model'
    have agrees := reading_agrees formed (Nat.le_of_eq size.symm)
    have agrees' := reading_agrees formed (Nat.le_of_eq size'.symm)
    exact eq_of_agrees formed agrees (same ▸ agrees') consistent consistent' size size'
  · rintro α ⟨fits, satisfies⟩
    have consistent := fits.consistent_valuation faithful satisfies
    refine ⟨kb.valuation α, (models_iff faithful).mpr ⟨size_valuation, consistent⟩, ?_⟩
    exact fits.reading_eq (fits.agrees_valuation formed) formed consistent (Nat.le_of_eq size_valuation.symm)

/-- Of every knowledge base that can be reached, the models are read as the assignments to its symbols
that make a disjunct of each added disjunction true, each from one model. So there is none once
an integer symbol has no value or a disjunction without disjuncts was added. -/
theorem models_bijOn_assignments (built : Built kb added) :
    Set.BijOn kb.reading {v | v.Models kb.clauses kb.atomCount}
        {α | kb.Fits α ∧ ∀ disjuncts ∈ added, ∃ e ∈ disjuncts, e.truth? α = some true} ∧
      (∀ s enc, kb.encodings.get? (.symbol s) = some enc → enc.domain.isEmpty = true →
        ∀ v : Valuation, ¬ v.Models kb.clauses kb.atomCount) ∧
      ([] ∈ added → ∀ v : Valuation, ¬ v.Models kb.clauses kb.atomCount) := by
  have bijection := built.faithful.bijOn
  refine ⟨bijection, fun s enc found empty v model => ?_, fun member v model => ?_⟩
  · obtain ⟨fits, -⟩ := bijection.mapsTo model
    obtain ⟨n, value⟩ := (fits.integer s).mpr ⟨enc, found⟩
    have inside := fits.inside s enc n found value
    rw [Domain.not_contains_of_isEmpty empty] at inside
    cases inside
  · obtain ⟨-, satisfies⟩ := bijection.mapsTo model
    obtain ⟨e, listed, -⟩ := satisfies [] member
    cases listed

/-- A base with a doubled symbol in a comparison, after an addition that failed. -/
theorem models_bijOn_after_refusal :
    let x : Symbol := ⟨0, 0, "x", .integer (some ⟨0, 1⟩)⟩
    let p : Symbol := ⟨0, 1, "p", .boolean⟩
    let disjuncts : List Expr :=
      [.not (.symbol p), .compare .equal (.sum (.symbol x) (.symbol x)) (.constant 2)]
    let last := ((((KnowledgeBase.empty {}).add disjuncts).2).add [.symbol x]).2
    Built last [disjuncts] ∧
      Set.BijOn last.reading {v | v.Models last.clauses last.atomCount}
          {α | last.Fits α ∧ ∀ ds ∈ [disjuncts], ∃ e ∈ ds, e.truth? α = some true} ∧
        (∀ s enc, last.encodings.get? (.symbol s) = some enc → enc.domain.isEmpty = true →
          ∀ v : Valuation, ¬ v.Models last.clauses last.atomCount) ∧
        ([] ∈ [disjuncts] → ∀ v : Valuation, ¬ v.Models last.clauses last.atomCount) := by
  intro x p disjuncts last
  let first := ((KnowledgeBase.empty {}).add disjuncts).2
  have succeeds : ((KnowledgeBase.empty {}).add disjuncts).1 = .ok .added := by decide
  have fails : (first.add [.symbol x]).1 = .error (.typeMismatch .boolean) := by decide
  have begun : Built first [disjuncts] := .added (.empty {}) (Prod.ext succeeds rfl)
  have built : Built last [disjuncts] := .refused begun (Prod.ext fails rfl)
  exact ⟨built, models_bijOn_assignments built⟩

end Bijection

end Clausal.KnowledgeBase

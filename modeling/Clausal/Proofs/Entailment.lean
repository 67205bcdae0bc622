import Clausal.Proofs.Reading
import Clausal.Proofs.Satisfiability

/-!
Entailment by refutation. Compiling the negated expression gives values to its
symbols and to no others, and adds nothing that an assignment to them could fail.
So a trial base has no model exactly if every assignment that makes the added
disjunctions true makes the expression true. Main statement: `entails_exact`.
-/

namespace Clausal.KnowledgeBase

variable {kb mid trial : KnowledgeBase} {added : List (List Expr)} {α : Assignment} {e : Expr}
  {enc : Encoding} {s : Symbol} {l : Literal} {b : Bool}

/-- The domain of an integer symbol: the one it was encoded over, or else the one that it gets. -/
def domain? (kb : KnowledgeBase) (s : Symbol) : Option Domain :=
  (kb.encodings.get? (.symbol s)).map Encoding.domain <|> kb.resolve? s

/-- An assignment to the symbols of a knowledge base together with those of an expression: each
boolean one has a truth value, each integer one a value of its domain, and no other symbol a value. -/
structure FitsWith (kb : KnowledgeBase) (e : Expr) (α : Assignment) : Prop where
  boolean : ∀ s, (∃ b, α.boolean? s = some b) ↔
    (∃ a, kb.booleans.get? s = some a) ∨ s ∈ e.symbols ∧ s.isBoolean = true
  integer : ∀ s, (∃ n, α.integer? s = some n) ↔
    (∃ enc, kb.encodings.get? (.symbol s) = some enc) ∨ s ∈ e.symbols ∧ s.isBoolean = false
  inside : ∀ s n, α.integer? s = some n → ∃ d, kb.domain? s = some d ∧ d.contains n = true

section Symbols

/-- The symbols of an encoded expression are encoded. -/
theorem WellFormed.symbols_encoded (formed : kb.WellFormed) (found : kb.encodings.get? e = some enc) :
    ∀ s ∈ e.symbols, ∃ enc, kb.encodings.get? (.symbol s) = some enc := by
  induction e generalizing enc with
  | symbol t =>
    intro s member
    rw [List.mem_singleton.mp member]
    exact ⟨enc, found⟩
  | constant value =>
    intro s member
    cases member
  | sum left right ihl ihr =>
    obtain ⟨l, r, first, second, -⟩ := (formed.encoded _ enc found).2
    intro s member
    rcases List.mem_append.mp member with inLeft | inRight
    · exact ihl first s inLeft
    · exact ihr second s inRight
  | not e _ => exact (formed.encoded _ enc found).2.elim
  | compare op left right _ _ => exact (formed.encoded _ enc found).2.elim

/-- The symbols of a compiled expression have atoms or are encoded. -/
theorem WellFormed.symbols_compiled (formed : kb.WellFormed) (found : kb.literal? e = some l) :
    ∀ s ∈ e.symbols, (∃ a, kb.booleans.get? s = some a) ∨ ∃ enc, kb.encodings.get? (.symbol s) = some enc := by
  induction e generalizing l with
  | symbol t =>
    intro s member
    rw [List.mem_singleton.mp member]
    obtain ⟨a, known, -⟩ := Option.map_eq_some_iff.mp found
    exact .inl ⟨a, known⟩
  | not e ih =>
    obtain ⟨m, known, -⟩ := Option.map_eq_some_iff.mp found
    exact ih known
  | compare op left right _ _ =>
    obtain ⟨a, known, -⟩ := Option.map_eq_some_iff.mp found
    obtain ⟨_, _, _, l, r, ⟨⟩, first, second⟩ := formed.compared _ a known
    intro s member
    rcases List.mem_append.mp member with inLeft | inRight
    · exact .inr (formed.symbols_encoded first s inLeft)
    · exact .inr (formed.symbols_encoded second s inRight)
  | constant value => cases found
  | sum left right _ _ => cases found

/-- The boolean symbols after a compilation of an expression. -/
theorem Compiles.boolean_iff (compiles : kb.Compiles mid added (· ∈ e.parts))
    (found : mid.literal? e = some l) : (∃ a, mid.booleans.get? s = some a) ↔
      (∃ a, kb.booleans.get? s = some a) ∨ s ∈ e.symbols ∧ s.isBoolean = true := by
  have formed := compiles.faithful.toWellFormed
  constructor
  · rintro ⟨a, known⟩
    cases old : kb.booleans.get? s with
    | some b => exact .inl ⟨b, rfl⟩
    | none =>
      refine .inr ⟨Expr.mem_symbols_of_parts (compiles.booleans s a old known), ?_⟩
      exact formed.boolean s a known
  · rintro (⟨a, old⟩ | ⟨member, boolean⟩)
    · exact ⟨a, compiles.retains.booleans s a old⟩
    · refine (formed.symbols_compiled found s member).resolve_right ?_
      rintro ⟨enc, known⟩
      have integer : s.isBoolean = false := (formed.encoded _ enc known).2
      rw [boolean] at integer
      cases integer

/-- The integer symbols after a compilation of an expression. -/
theorem Compiles.integer_iff (compiles : kb.Compiles mid added (· ∈ e.parts))
    (found : mid.literal? e = some l) : (∃ enc, mid.encodings.get? (.symbol s) = some enc) ↔
      (∃ enc, kb.encodings.get? (.symbol s) = some enc) ∨ s ∈ e.symbols ∧ s.isBoolean = false := by
  have formed := compiles.faithful.toWellFormed
  constructor
  · rintro ⟨enc, known⟩
    cases old : kb.encodings.get? (.symbol s) with
    | some enc => exact .inl ⟨enc, rfl⟩
    | none =>
      refine .inr ⟨Expr.mem_symbols_of_parts (compiles.encodings _ enc old known), ?_⟩
      exact (formed.encoded _ enc known).2
  · rintro (⟨enc, old⟩ | ⟨member, integer⟩)
    · exact ⟨enc, compiles.retains.encodings _ enc old⟩
    · refine (formed.symbols_compiled found s member).resolve_left ?_
      rintro ⟨a, known⟩
      rw [formed.boolean s a known] at integer
      cases integer

/-- A symbol is encoded over its domain. -/
theorem Compiles.domain {scope : Expr → Prop} (compiles : kb.Compiles mid added scope)
    (found : mid.encodings.get? (.symbol s) = some enc) : kb.domain? s = some enc.domain := by
  cases old : kb.encodings.get? (.symbol s) with
  | some other =>
    have same := compiles.retains.encodings _ other old
    rw [found, Option.some.injEq] at same
    rw [domain?, old, same]
    rfl
  | none =>
    rw [domain?, old]
    exact compiles.symbols s enc old found

/-- The assignments to the symbols after a compilation are those to the symbols before it and in the
expression. -/
theorem Compiles.fits_iff (compiles : kb.Compiles mid added (· ∈ e.parts))
    (found : mid.literal? e = some l) : mid.Fits α ↔ kb.FitsWith e α := by
  constructor
  · intro fits
    refine ⟨fun s => (fits.boolean s).trans (compiles.boolean_iff found),
      fun s => (fits.integer s).trans (compiles.integer_iff found), fun s n value => ?_⟩
    obtain ⟨enc, known⟩ := (fits.integer s).mp ⟨n, value⟩
    exact ⟨enc.domain, compiles.domain known, fits.inside s enc n known value⟩
  · intro fits
    refine ⟨fun s => (fits.boolean s).trans (compiles.boolean_iff found).symm,
      fun s => (fits.integer s).trans (compiles.integer_iff found).symm, fun s enc n known value => ?_⟩
    obtain ⟨d, domain, inside⟩ := fits.inside s n value
    rw [compiles.domain known, Option.some.injEq] at domain
    exact domain ▸ inside

end Symbols

section Refutation

/-- There is a model exactly if there is an assignment that makes the added disjunctions true. -/
theorem Faithful.exists_models_iff (faithful : kb.Faithful added) :
    (∃ v : Valuation, v.Models kb.clauses kb.atomCount) ↔
      ∃ α, kb.Fits α ∧ ∀ disjuncts ∈ added, α.Satisfies disjuncts := by
  constructor
  · rintro ⟨v, model⟩
    exact ⟨_, faithful.bijOn.mapsTo model⟩
  · rintro ⟨α, good⟩
    obtain ⟨v, model, -⟩ := faithful.bijOn.surjOn good
    exact ⟨v, model⟩

/-- What an answer about an expression rests on. -/
theorem entails_cases (answers : kb.entails e = .ok b) : ∃ stored trial outcome,
    kb.add [.not e] = (.ok stored, trial) ∧ trial.solve = .ok outcome ∧
      (b = true ↔ ¬ outcome.report = .satisfiable) := by
  unfold entails at answers
  split at answers
  · cases answers
  · next stored trial succeeds =>
    cases solved : trial.solve with
    | error cause =>
      simp only [satisfiable, solved] at answers
      cases answers
    | ok outcome =>
      simp only [satisfiable, solved] at answers
      cases answers
      exact ⟨stored, trial, outcome, succeeds, solved, by simp⟩

/-- Adding the negation of an expression gives a base for all assignments that make it false. -/
theorem Faithful.refutes (faithful : kb.Faithful added) {stored : Stored}
    (succeeds : kb.add [.not e] = (.ok stored, trial)) : trial.Faithful ([.not e] :: added) ∧
      (∀ α, trial.Fits α ↔ kb.FitsWith e α) ∧ ∀ α, trial.Fits α → ∃ b, e.truth? α = some b := by
  rcases add_spec faithful succeeds with ⟨cause, ⟨⟩, -⟩ | ⟨_, mid, c, -, compiles, literals, rfl⟩
  obtain ⟨l, -, found⟩ := literal_of_disjunct literals (List.mem_singleton_self (Expr.not e))
  have only : kb.Compiles mid added (· ∈ (Expr.not e).parts) := by
    refine compiles.mono ?_
    rintro p ⟨d, member, part⟩
    rwa [List.mem_singleton.mp member] at part
  have tables : ∀ α, (mid.store c).2.Fits α ↔ mid.Fits α := by
    intro α
    rw [store_frame]
    exact ⟨fun fits => ⟨fits.boolean, fits.integer, fits.inside⟩,
      fun fits => ⟨fits.boolean, fits.integer, fits.inside⟩⟩
  refine ⟨Faithful.store literals compiles.faithful, fun α => (tables α).trans ((only.fits_iff found).trans ?_),
    fun α fits => ?_⟩
  · exact ⟨fun fits => ⟨fits.boolean, fits.integer, fits.inside⟩,
      fun fits => ⟨fits.boolean, fits.integer, fits.inside⟩⟩
  · obtain ⟨m, known, -⟩ := Option.map_eq_some_iff.mp found
    exact ((tables α).mp fits).truth compiles.faithful.toWellFormed known

/-- An answer about an expression says rightly whether every assignment that makes the added
disjunctions true makes the expression true. -/
theorem Faithful.entails_iff (faithful : kb.Faithful added) (answers : kb.entails e = .ok b) :
    b = true ↔ ∀ α, kb.FitsWith e α → (∀ disjuncts ∈ added, α.Satisfies disjuncts) →
      e.truth? α = some true := by
  obtain ⟨stored, trial, outcome, succeeds, solved, negated⟩ := entails_cases answers
  obtain ⟨faithful', same, valued⟩ := faithful.refutes succeeds
  have refuted : ∀ α : Assignment, α.Satisfies [.not e] ↔ e.truth? α = some false := by
    intro α
    simp [Assignment.Satisfies, Expr.truth?]
  rw [negated, solve_report faithful'.normal faithful'.below solved, faithful'.exists_models_iff]
  constructor
  · intro unsatisfiable α fits satisfies
    have fits' := (same α).mpr fits
    obtain ⟨value, truth⟩ := valued α fits'
    cases value with
    | true => exact truth
    | false =>
      have all := List.forall_mem_cons.mpr ⟨(refuted α).mpr truth, satisfies⟩
      exact absurd ⟨α, fits', all⟩ unsatisfiable
  · rintro all ⟨α, fits, satisfies⟩
    obtain ⟨negation, rest⟩ := List.forall_mem_cons.mp satisfies
    have holds := all α ((same α).mp fits) rest
    rw [(refuted α).mp negation] at holds
    cases holds

/-- Of every knowledge base that can be reached, an answer about an expression says rightly whether
it is true under every assignment to the symbols of both that makes a disjunct of each added disjunction
true. So the answers agree under all configurations that give symbols the same default domain. -/
theorem entails_exact (built : Built kb added) (answers : kb.entails e = .ok b) :
    (b = true ↔ ∀ α, kb.FitsWith e α → (∀ disjuncts ∈ added, ∃ d ∈ disjuncts, d.truth? α = some true) →
        e.truth? α = some true) ∧
      ∀ (config : Config) (b' : Bool), config.defaultDomain = kb.config.defaultDomain →
        { kb with config := config : KnowledgeBase }.entails e = .ok b' → b' = b := by
  have correct := built.faithful.entails_iff answers
  refine ⟨correct, fun config b' sameDefault answers' => Bool.eq_iff_iff.mpr ?_⟩
  have correct' := (built.configured config).faithful.entails_iff answers'
  have same : ∀ α, { kb with config := config : KnowledgeBase }.FitsWith e α ↔ kb.FitsWith e α := by
    have domain : ∀ s, { kb with config := config : KnowledgeBase }.domain? s = kb.domain? s := by
      intro s
      rw [domain?, domain?, resolve?, resolve?, sameDefault]
    intro α
    constructor
    · exact fun fits => ⟨fits.boolean, fits.integer, fun s => domain s ▸ fits.inside s⟩
    · exact fun fits => ⟨fits.boolean, fits.integer, fun s => (domain s).symm ▸ fits.inside s⟩
  rw [correct', correct]
  exact forall_congr' fun α => imp_congr_left (same α)

/-- A sum with a symbol that the base does not have yet, which gets its default domain. -/
theorem entails_exact_fresh :
    let p : Expr := .symbol ⟨0, 0, "p", .boolean⟩
    let x : Expr := .symbol ⟨0, 1, "x", .integer (some ⟨1, 2⟩)⟩
    let y : Expr := .symbol ⟨0, 2, "y", .integer none⟩
    let small : Expr := .compare .lessOrEqual (.sum x y) (.constant 2)
    let disjuncts : List Expr := [p, .compare .less x (.constant 2)]
    let first := ((KnowledgeBase.empty { defaultDomain := some ⟨0, 1⟩ }).add disjuncts).2
    let last := (first.add [.not p]).2
    Built last [[.not p], disjuncts] ∧ last.entails small = .ok true ∧
      (∀ α, last.FitsWith small α →
        (∀ ds ∈ [[.not p], disjuncts], ∃ d ∈ ds, d.truth? α = some true) → small.truth? α = some true) ∧
      ∀ (config : Config) (b' : Bool), config.defaultDomain = last.config.defaultDomain →
        { last with config := config : KnowledgeBase }.entails small = .ok b' → b' = true := by
  intro p x y small disjuncts first last
  have succeeds : ((KnowledgeBase.empty { defaultDomain := some ⟨0, 1⟩ }).add disjuncts).1 = .ok .added := by
    decide +kernel
  have follows : (first.add [.not p]).1 = .ok .added := by decide +kernel
  have begun : Built first [disjuncts] := .added (.empty _) (Prod.ext succeeds rfl)
  have built : Built last [[.not p], disjuncts] := .added begun (Prod.ext follows rfl)
  have answers : last.entails small = .ok true := by decide +kernel
  obtain ⟨correct, agree⟩ := entails_exact built answers
  exact ⟨built, answers, correct.mp rfl, agree⟩

end Refutation

end Clausal.KnowledgeBase

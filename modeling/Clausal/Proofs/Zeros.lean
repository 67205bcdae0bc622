import Clausal.Proofs.Registration

/-!
Zeros on the lines of a formula. A clause is ended by the word that is a single zero, and
by no other numeral of zero: those are read as literals, on a symbol with the name 0.
Main statements: `read_zeros` and `read_padded_zero`.
-/

namespace Clausal

open Text

namespace Dimacs

variable {kb more : KnowledgeBase} {session last : Session} {clauses : List (List Int)}
  {c : List Int} {ws words : List (List Char)} {n : Int}

/-- The numbers of clauses are what the words other than single zeros spell. -/
theorem Written.mem_flatten (written : Written Spells clauses words) :
    n ∈ clauses.flatten ↔ ∃ w ∈ words, Spells n w := by
  have each : ∀ {c ws}, List.Forall₂ Spells c ws → (n ∈ c ↔ ∃ w ∈ ws, Spells n w) := by
    intro c ws spelt
    induction spelt with
    | nil => simp
    | @cons m w c ws first rest ih =>
      have same : n = m ↔ Spells n w :=
        ⟨fun equal => equal ▸ first, fun other => other.numeral.unique first.numeral⟩
      rw [List.mem_cons, ih, same, List.exists_mem_cons_iff]
  induction written with
  | nil => simp
  | unended some spelt => simpa using each spelt
  | cons spelt more ih =>
    have ender : ¬ Spells n ['0'] := fun spelt => spelt.apart rfl
    simp only [List.flatten_cons, List.mem_append, List.mem_cons, each spelt, ih]
    constructor
    · rintro (⟨w, member, spells⟩ | ⟨w, member, spells⟩)
      · exact ⟨w, .inl member, spells⟩
      · exact ⟨w, .inr (.inr member), spells⟩
    · rintro ⟨w, member | rfl | member, spells⟩
      · exact .inl ⟨w, member, spells⟩
      · exact absurd spells ender
      · exact .inr ⟨w, member, spells⟩

/-- There are as many clauses as single zeros, and one more if the words go on after the last of them. -/
theorem Written.length_eq (written : Written Spells clauses words) :
    clauses.length = words.count ['0'] + if words.getLast?.getD ['0'] = ['0'] then 0 else 1 := by
  have none : ∀ {c ws}, List.Forall₂ Spells c ws → ['0'] ∉ ws := by
    intro c ws spelt
    induction spelt with
    | nil => simp
    | cons first rest ih => simp [first.apart.symm, ih]
  induction written with
  | nil => rfl
  | @unended c ws some spelt =>
    have filled : ws ≠ [] := by
      rintro rfl
      cases spelt
      exact some rfl
    have last : ws.getLast filled ≠ ['0'] := fun same => none spelt (same ▸ List.getLast_mem filled)
    simp [List.count_eq_zero_of_not_mem (none spelt), List.getLast?_eq_some_getLast filled, last]
  | @cons c cs ws vs spelt more ih =>
    have last : (ws ++ ['0'] :: vs).getLast?.getD ['0'] = vs.getLast?.getD ['0'] := by
      cases vs with
      | nil => simp
      | cons v vs =>
        rw [List.getLast?_append, List.getLast?_cons_cons, List.getLast?_eq_some_getLast (List.cons_ne_nil v vs)]
        rfl
    rw [last, List.count_append, List.count_cons_self, List.count_eq_zero_of_not_mem (none spelt), List.length_cons,
      ih]
    omega

/-- If the number zero is added, then there is a symbol of the name 0, with an atom. -/
theorem addNumbers_zero (result : addNumbers kb session clauses = .ok (last, more))
    (zero : 0 ∈ clauses.flatten) : ∃ s, last.get? "0" = some s ∧ (more.atomOf? s).isSome := by
  obtain ⟨ps, numbers, named, same⟩ := addNumbers_registers result
  rw [← numbers] at zero
  obtain ⟨p, inside, value⟩ := List.mem_map.mp zero
  have known := named.known p inside
  rw [value] at known
  refine ⟨p.1, known, ?_⟩
  rw [same]
  exact KnowledgeBase.get?_withSymbols_of_mem (List.mem_map_of_mem inside)

/-- Without it, no symbol of the name 0 is made or gets an atom. -/
theorem addNumbers_nonzero (result : addNumbers kb session clauses = .ok (last, more))
    (nonzero : 0 ∉ clauses.flatten) :
    last.get? "0" = session.get? "0" ∧ ∀ s, s.name = "0" → more.atomOf? s = kb.atomOf? s := by
  obtain ⟨ps, numbers, named, same⟩ := addNumbers_registers result
  rw [← numbers] at nonzero
  have apart : ∀ p ∈ ps, toString p.2.natAbs ≠ "0" := by
    intro p inside equal
    have value : p.2.natAbs = 0 := toString_inj.mp equal
    exact nonzero (List.mem_map.mpr ⟨p, inside, Int.natAbs_eq_zero.mp value⟩)
  refine ⟨named.others "0" apart, fun s name => ?_⟩
  have out : s ∉ ps.map Prod.fst := by
    intro member
    obtain ⟨p, inside, rfl⟩ := List.mem_map.mp member
    exact apart p inside (named.name p inside ▸ name)
  rw [same]
  exact KnowledgeBase.get?_withSymbols_of_notMem out

end Dimacs

namespace KnowledgeBase

open Dimacs

variable {kb more : KnowledgeBase} {session last : Session} {source : Source} {summary : Summary}

/-- What the words on the lines of a formula do when the formula is read. Each is a numeral of one integer.
Those that are a single zero end the clauses, and all others are read as literals, also those that are
numerals of zero as well. Such a literal is on a symbol of the name 0, and without one no such symbol is made
or gets an atom. -/
structure EndsAtZeros (kb : KnowledgeBase) (session last : Session) (more : KnowledgeBase)
    (words : List (List Char)) (clauses : List (List Int)) : Prop where
  numerals : ∀ w ∈ words, ∃! n, Numeral n w
  count : clauses.length = words.count ['0'] + if words.getLast?.getD ['0'] = ['0'] then 0 else 1
  literals : ∀ n, n ∈ clauses.flatten ↔ ∃ w ∈ words, w ≠ ['0'] ∧ Numeral n w
  named : (∃ w ∈ words, w ≠ ['0'] ∧ Numeral 0 w) → ∃ s, last.get? "0" = some s ∧ (more.atomOf? s).isSome
  unnamed : (∀ w ∈ words, Numeral 0 w → w = ['0']) →
    last.get? "0" = session.get? "0" ∧ ∀ s, s.name = "0" → more.atomOf? s = kb.atomOf? s

/-- Whatever is read without failure, the words that end its clauses are the single zeros. -/
theorem read_zeros (result : kb.read session source = (.ok summary, last, more)) :
    ∃ words clauses, Laid summary.problem words source ∧ Written Spells clauses words ∧
      summary.clauses = clauses.length ∧ addNumbers kb session clauses = .ok (last, more) ∧
      EndsAtZeros kb session last more words clauses := by
  obtain ⟨clauses, ⟨words, laid, written⟩, count, added⟩ := holds_of_read result
  have literals : ∀ n, n ∈ clauses.flatten ↔ ∃ w ∈ words, w ≠ ['0'] ∧ Numeral n w := by
    intro n
    rw [written.mem_flatten]
    refine exists_congr fun w => and_congr_right fun member => ?_
    constructor
    · exact fun spelt => ⟨spelt.apart, spelt.numeral⟩
    · rintro ⟨apart, numeral⟩
      rcases isSome_ofText?_iff.mp (written.isSome w member) with ender | ⟨m, spelt⟩
      · exact absurd ender apart
      · exact numeral.unique spelt.numeral ▸ spelt
  refine ⟨words, clauses, laid, written, count, added, ?_⟩
  constructor
  case numerals =>
    intro w member
    obtain ⟨n, numeral⟩ := exists_numeral (written.isSome w member)
    exact ⟨n, numeral, fun m other => other.unique numeral⟩
  case count => exact written.length_eq
  case literals => exact literals
  case named => exact fun some => addNumbers_zero added ((literals 0).mpr some)
  case unnamed =>
    intro only
    refine addNumbers_nonzero added fun zero => ?_
    obtain ⟨w, member, apart, numeral⟩ := (literals 0).mp zero
    exact apart (only w member numeral)

/-- Zeros with signs, and an empty clause between two single zeros. -/
theorem read_zeros_signed :
    let kb := KnowledgeBase.empty {}
    let source := Source.ofText "c 0\n-0 2 0\n 0 +0"
    ∃ last more, kb.read (.empty 0) source = (.ok ⟨none, 3⟩, last, more) ∧
      ∃ words clauses, Laid none words source ∧ Written Spells clauses words ∧
        3 = clauses.length ∧ addNumbers kb (.empty 0) clauses = .ok (last, more) ∧
        EndsAtZeros kb (.empty 0) last more words clauses := by
  intro kb source
  have outcome : (kb.read (.empty 0) source).1 = .ok ⟨none, 3⟩ := by decide +kernel
  rcases result : kb.read (.empty 0) source with ⟨r, last, more⟩
  rw [result] at outcome
  cases outcome
  exact ⟨last, more, rfl, read_zeros result⟩

/-- A zero that is spelt with two digits ends no clause: it is read as a literal, and its symbol gets an atom. -/
theorem read_padded_zero :
    let kb := KnowledgeBase.empty {}
    let source := Source.ofText "00 1 0\n"
    let zero : Symbol := ⟨0, 0, "0", .boolean⟩
    Laid none [['0', '0'], ['1'], ['0']] source ∧ Numeral 0 ['0', '0'] ∧ Numeral 0 ['0'] ∧
      ∃ last more, kb.read (.empty 0) source = (.ok ⟨none, 1⟩, last, more) ∧
        more.clauses = #[[Literal.top], [-.positive 1, .positive 2]] ∧
        last.get? "0" = some zero ∧ kb.atomOf? zero = none ∧ more.atomOf? zero = some 1 := by
  intro kb source zero
  have outcome : (kb.read (.empty 0) source).1 = .ok ⟨none, 1⟩ := by decide +kernel
  have named : (kb.read (.empty 0) source).2.1.get? "0" = some zero := by decide +kernel
  have atom : (kb.read (.empty 0) source).2.2.atomOf? zero = some 1 := by decide +kernel
  have clauses : (kb.read (.empty 0) source).2.2.clauses = #[[Literal.top], [-.positive 1, .positive 2]] := by
    decide +kernel
  have numeral : ∀ w ∈ words "00 1 0".toList, ∃ n, Numeral n w := by
    intro w member
    refine exists_numeral ?_
    revert w
    decide
  have laid : Laid none (words "00 1 0".toList ++ []) source := .words (spaced_words _) numeral .done
  rcases result : kb.read (.empty 0) source with ⟨r, last, more⟩
  rw [result] at outcome named atom clauses
  cases outcome
  exact ⟨laid, integer?_eq_some_iff.mp (by decide), integer?_eq_some_iff.mp (by decide), last, more, rfl, clauses,
    named, rfl, atom⟩

end KnowledgeBase

end Clausal

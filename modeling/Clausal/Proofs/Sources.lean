import Clausal.Proofs.Reachability
import Clausal.Proofs.Spelling

/-!
Formulas as sources hold them. The numbers of the clauses are written as words, each
clause is ended by a single zero, and the words are spread over lines in any way, between
comments and blank lines. What is read depends on the numbers only, and whatever is read
without failure is such a formula. Main statements: `read_holds`, `holds_of_read` and
`read_layout`.
-/

namespace Clausal

open Text

namespace Dimacs

section Formulas

/-- The words of some clauses. The numbers of each clause are spelt one after the other, and then a zero
ends the clause. Only the zero of a last clause that is not empty can be missing. -/
inductive Written (spelling : Int → List Char → Prop) : List (List Int) → List (List Char) → Prop where
  | nil : Written spelling [] []
  | unended {c : List Int} {ws : List (List Char)} (some : c ≠ []) (spelt : List.Forall₂ spelling c ws) :
    Written spelling [c] ws
  | cons {c : List Int} {cs : List (List Int)} {ws vs : List (List Char)}
    (spelt : List.Forall₂ spelling c ws) (more : Written spelling cs vs) :
    Written spelling (c :: cs) (ws ++ ['0'] :: vs)

/-- A numeral of a number that fits a word, other than the zero that ends a clause. -/
structure Spells (n : Int) (w : List Char) : Prop where
  apart : w ≠ ['0']
  numeral : Numeral n w
  fits : Word.Fits n

/-- The words of a problem line: the two counts stand after its marks, and anything may follow. -/
structure Problem.Announced (p : Problem) (ws : List (List Char)) : Prop where
  marked : ∃ atoms clauses rest, ws = ['p'] :: ['c', 'n', 'f'] :: atoms :: clauses :: rest ∧
    Unsigned p.atoms atoms ∧ Unsigned p.clauses clauses
  atoms : p.atoms ≤ Word.greatestCount
  clauses : p.clauses ≤ Word.greatestCount

/-- The lines of a source that holds some words, after a problem line or without one. Blank lines and
comments can stand anywhere, and nothing is read from a line on that starts with a percent sign. -/
inductive Laid : Option Problem → List (List Char) → Source → Prop where
  | done : Laid none [] []
  | stop {line : List Char} (rest : Source) (mark : Opens '%' line) : Laid none [] (some line :: rest)
  | skip {p : Option Problem} {ws : List (List Char)} {line : List Char} {rest : Source}
    (skipped : Blanks line ∨ Opens 'c' line) (more : Laid p ws rest) : Laid p ws (some line :: rest)
  | problem {p : Problem} {ws vs : List (List Char)} {line : List Char} {rest : Source}
    (spaced : Spaced vs line) (announced : p.Announced vs) (more : Laid none ws rest) :
    Laid (some p) ws (some line :: rest)
  | words {ws vs : List (List Char)} {line : List Char} {rest : Source} (spaced : Spaced vs line)
    (numerals : ∀ w ∈ vs, ∃ n, Numeral n w) (more : Laid none ws rest) :
    Laid none (vs ++ ws) (some line :: rest)

/-- A source holds some clauses, after a problem line or without one. -/
def Holds (source : Source) (p : Option Problem) (clauses : List (List Int)) : Prop :=
  ∃ words, Laid p words source ∧ Written Spells clauses words

end Formulas

section Additions

/-- The literal of a number on a symbol: negated, unless the number is positive. -/
def signed (s : Symbol) (number : Int) : Expr := if 0 < number then .symbol s else .not (.symbol s)

/-- The literals of some numbers, on the boolean symbols that their absolute values name. -/
def literals (session : Session) : List Int → Read (List Expr × Session)
  | [] => .ok ([], session)
  | n :: ns =>
    match session.boolean (toString n.natAbs) with
    | (.error cause, session) => .error (cause, session)
    | (.ok s, session) => do
      let (rest, session) ← literals session ns
      return (signed s n :: rest, session)

/-- Adds the clauses of some numbers, one after the other, up to the first failure. -/
def addNumbers (kb : KnowledgeBase) (session : Session) : List (List Int) → Read (Session × KnowledgeBase)
  | [] => .ok (session, kb)
  | c :: cs => do
    let (disjuncts, session) ← literals session c
    match kb.add disjuncts with
    | (.error cause, _) => .error (cause, session)
    | (.ok _, kb) => addNumbers kb session cs

end Additions

section Tokens

variable {r t : Reader} {line : Nat} {n : Int} {w : List Char} {ws : List (List Char)}

theorem ofText?_eq_close_iff : Token.ofText? w = some .close ↔ w = ['0'] := by
  unfold Token.ofText?
  split
  · next zero => exact iff_of_true rfl zero
  · next apart =>
    refine iff_of_false (fun read => ?_) apart
    obtain ⟨_, -, same⟩ := Option.map_eq_some_iff.mp read
    cases same

theorem ofText?_eq_literal_iff : Token.ofText? w = some (.literal n) ↔ Spells n w := by
  unfold Token.ofText?
  split
  · next zero => exact iff_of_false nofun fun spelt => spelt.apart zero
  · next apart =>
    constructor
    · intro read
      obtain ⟨_, value, same⟩ := Option.map_eq_some_iff.mp read
      cases same
      obtain ⟨numeral, fits⟩ := signedWord?_eq_some_iff.mp value
      exact ⟨apart, numeral, fits⟩
    · rintro ⟨-, numeral, fits⟩
      rw [signedWord?_eq_some_iff.mpr ⟨numeral, fits⟩]
      rfl

/-- A word is a token if it ends a clause or spells a number. -/
theorem isSome_ofText?_iff : (Token.ofText? w).isSome ↔ w = ['0'] ∨ ∃ n, Spells n w := by
  rw [← ofText?_eq_close_iff, Option.isSome_iff_exists]
  simp only [← ofText?_eq_literal_iff]
  constructor
  · rintro ⟨_ | n, read⟩
    · exact .inl read
    · exact .inr ⟨n, read⟩
  · rintro (read | ⟨n, read⟩)
    · exact ⟨_, read⟩
    · exact ⟨_, read⟩

/-- Zeros are numerals as well. -/
theorem exists_numeral (token : (Token.ofText? w).isSome) : ∃ n, Numeral n w := by
  rcases isSome_ofText?_iff.mp token with rfl | ⟨n, spelt⟩
  · exact ⟨0, .unsigned (.inl ⟨0, rfl⟩)⟩
  · exact ⟨n, spelt.numeral⟩

theorem tokens_append (r : Reader) (line : Nat) (ws vs : List (List Char)) :
    r.tokens line (ws ++ vs) = r.tokens line ws >>= (·.tokens line vs) := by
  induction ws generalizing r with
  | nil => rfl
  | cons w ws ih =>
    rw [List.cons_append, Reader.tokens, Reader.tokens]
    cases Token.ofText? w with
    | none => rfl
    | some token =>
      cases token with
      | close =>
        show (r.close >>= fun t => t.tokens line (ws ++ vs)) = (r.close >>= (·.tokens line ws)) >>= _
        rw [bind_assoc]
        exact bind_congr ih
      | literal n =>
        show (r.literal n >>= fun t => t.tokens line (ws ++ vs)) = (r.literal n >>= (·.tokens line ws)) >>= _
        rw [bind_assoc]
        exact bind_congr ih

/-- The number of the line shows only where a word is no token. -/
theorem tokens_line (line line' : Nat) (tokens : ∀ w ∈ ws, (Token.ofText? w).isSome) :
    r.tokens line ws = r.tokens line' ws := by
  induction ws generalizing r with
  | nil => rfl
  | cons w ws ih =>
    obtain ⟨first, rest⟩ := List.forall_mem_cons.mp tokens
    obtain ⟨token, read⟩ := Option.isSome_iff_exists.mp first
    rw [Reader.tokens, Reader.tokens, read]
    cases token with
    | close => exact bind_congr fun _ => ih rest
    | literal n => exact bind_congr fun _ => ih rest

/-- Some token was read. -/
def Reader.Begun (r : Reader) : Prop := 0 < r.clauses ∨ r.pending ≠ []

theorem close_begun (result : r.close = .ok t) : t.Begun := by
  unfold Reader.close at result
  split at result
  · cases result
  · cases result
    exact .inl (Nat.succ_pos _)

theorem literal_begun (result : r.literal n = .ok t) : t.Begun := by
  unfold Reader.literal at result
  split at result
  · cases result
  · cases result
    exact .inr (by simp)

/-- Words that are read without failure are tokens. -/
theorem tokens_ok (result : r.tokens line ws = .ok t) :
    (∀ w ∈ ws, (Token.ofText? w).isSome) ∧ (r.Begun ∨ ws ≠ [] → t.Begun) := by
  induction ws generalizing r with
  | nil =>
    cases result
    exact ⟨by simp, fun begun => begun.resolve_right fun some => some rfl⟩
  | cons w ws ih =>
    rw [Reader.tokens] at result
    cases read : Token.ofText? w with
    | none =>
      rw [read] at result
      cases result
    | some token =>
      have later : ∃ u : Reader, u.Begun ∧ u.tokens line ws = .ok t := by
        rw [read] at result
        cases token with
        | close =>
          obtain ⟨u, first, rest⟩ := Reader.bind_eq_ok.mp result
          exact ⟨u, close_begun first, rest⟩
        | literal n =>
          obtain ⟨u, first, rest⟩ := Reader.bind_eq_ok.mp result
          exact ⟨u, literal_begun first, rest⟩
      obtain ⟨u, begun, rest⟩ := later
      obtain ⟨tokens, closed⟩ := ih rest
      exact ⟨List.forall_mem_cons.mpr ⟨by simp [read], tokens⟩, fun _ => closed (.inl begun)⟩

end Tokens

section Lines

variable {r t last : Reader} {taken : Nat} {p : Problem} {q : Option Problem} {cs w : List Char}
  {ws words : List (List Char)} {source : Source}

theorem ofWords?_eq_some_iff : Problem.ofWords? ws = some p ↔ p.Announced ws := by
  constructor
  · intro read
    unfold Problem.ofWords? at read
    split at read
    · next atoms clauses rest =>
      obtain ⟨n, first, read⟩ := Option.bind_eq_some_iff.mp read
      obtain ⟨m, second, read⟩ := Option.bind_eq_some_iff.mp read
      cases read
      obtain ⟨spelt, small⟩ := count?_eq_some_iff.mp first
      obtain ⟨spelt', small'⟩ := count?_eq_some_iff.mp second
      exact ⟨⟨atoms, clauses, rest, rfl, spelt, spelt'⟩, small, small'⟩
    · cases read
  · rintro ⟨⟨atoms, clauses, rest, rfl, spelt, spelt'⟩, small, small'⟩
    rw [Problem.ofWords?, count?_eq_some_iff.mpr ⟨spelt, small⟩, count?_eq_some_iff.mpr ⟨spelt', small'⟩]
    rfl

theorem ofText_skip (skipped : Blanks cs ∨ Opens 'c' cs) : Line.ofText cs = .skip := by
  unfold Line.ofText
  rcases skipped with blank | mark
  · rw [firstInked?_eq_none_iff.mpr blank]
  · rw [firstInked?_eq_some_iff.mpr ⟨by decide, mark⟩]
    rfl

theorem ofText_stop (mark : Opens '%' cs) : Line.ofText cs = .stop := by
  rw [Line.ofText, firstInked?_eq_some_iff.mpr ⟨by decide, mark⟩]
  rfl

theorem ofText_problem (spaced : Spaced ws cs) (announced : p.Announced ws) :
    Line.ofText cs = .problem (some p) := by
  have mark : Opens 'p' cs := by
    obtain ⟨_, _, _, rfl, -, -⟩ := announced.marked
    exact spaced.opens
  rw [Line.ofText, firstInked?_eq_some_iff.mpr ⟨by decide, mark⟩, words_eq_iff.mpr spaced]
  exact congrArg Line.problem (ofWords?_eq_some_iff.mpr announced)

theorem ofText_words (spaced : Spaced (w :: ws) cs) (numeral : ∃ n, Numeral n w) :
    Line.ofText cs = .tokens (w :: ws) := by
  obtain ⟨n, spelt⟩ := numeral
  obtain ⟨c, rest, rfl, inked, comment, stop, problem⟩ := spelt.head
  have first := firstInked?_eq_some_iff.mpr ⟨inked, spaced.opens⟩
  unfold Line.ofText
  rw [first, words_eq_iff.mpr spaced]
  split <;> simp_all

/-- What a line is, by the character that it starts with. -/
theorem ofText_cases (cs : List Char) :
    (Line.ofText cs = .skip ∧ (Blanks cs ∨ Opens 'c' cs)) ∨ (Line.ofText cs = .stop ∧ Opens '%' cs) ∨
      Line.ofText cs = .problem (Problem.ofWords? (Text.words cs)) ∨
      (Line.ofText cs = .tokens (Text.words cs) ∧ Text.words cs ≠ []) := by
  unfold Line.ofText
  split
  · next empty => exact .inl ⟨rfl, .inl (firstInked?_eq_none_iff.mp empty)⟩
  · next mark => exact .inl ⟨rfl, .inr (firstInked?_eq_some_iff.mp mark).2⟩
  · next mark => exact .inr (.inl ⟨rfl, (firstInked?_eq_some_iff.mp mark).2⟩)
  · exact .inr (.inr (.inl rfl))
  · next found =>
    refine .inr (.inr (.inr ⟨rfl, fun empty => ?_⟩))
    have blank := (words_eq_iff.mp empty).blanks
    rw [firstInked?_eq_none_iff.mpr blank] at found
    cases found

theorem problemLine_ok {counts : Option Problem} : r.problemLine counts = .ok t ↔
    ∃ p, counts = some p ∧ r.problem = none ∧ ¬ r.Begun ∧ t = { r with problem := some p } := by
  have late : (r.problem.isSome || 0 < r.clauses || !r.pending.isEmpty) = true ↔
      ¬ (r.problem = none ∧ ¬ r.Begun) := by
    simp [Reader.Begun, or_assoc, Option.isSome_iff_ne_none, imp_iff_not_or, Nat.pos_iff_ne_zero]
  unfold Reader.problemLine
  by_cases early : r.problem = none ∧ ¬ r.Begun
  · rw [if_neg fun bad => late.mp bad early]
    cases counts with
    | none => simp [Reader.fail]
    | some p => simp [early.1, early.2, eq_comm]
  · rw [if_pos (late.mpr early)]
    refine iff_of_false nofun ?_
    rintro ⟨p, -, none, fresh, -⟩
    exact early ⟨none, fresh⟩

/-- By induction on the lines: only the problem line and the words are read. -/
theorem lines_laid (laid : Laid q words source) (tokens : ∀ w ∈ words, (Token.ofText? w).isSome)
    (early : q = none ∨ r.problem = none ∧ ¬ r.Begun) :
    r.lines taken source = Reader.tokens { r with problem := q.or r.problem } 0 words := by
  induction laid generalizing r taken with
  | done => rfl
  | stop rest mark =>
    rw [Reader.lines, ofText_stop mark]
    rfl
  | skip skipped more ih =>
    rw [Reader.lines, ofText_skip skipped]
    exact ih tokens early
  | problem spaced announced more ih =>
    obtain ⟨none, fresh⟩ := early.resolve_left nofun
    rw [Reader.lines, ofText_problem spaced announced]
    show (r.problemLine _ >>= fun t => t.lines _ _) = _
    rw [problemLine_ok.mpr ⟨_, rfl, none, fresh, rfl⟩]
    exact ih tokens (.inl rfl)
  | @words ws vs cs rest spaced numerals more ih =>
    obtain ⟨first, later⟩ := List.forall_mem_append.mp tokens
    have next : ∀ t : Reader, t.lines (taken + 1) rest = t.tokens 0 ws := fun t => ih later (.inl rfl)
    rw [tokens_append]
    cases vs with
    | nil =>
      rw [Reader.lines, ofText_skip (.inl spaced.blanks)]
      exact next r
    | cons w vs =>
      rw [Reader.lines, ofText_words spaced (numerals w List.mem_cons_self)]
      show (r.tokens (taken + 1) (w :: vs) >>= fun t => t.lines (taken + 1) rest) = _
      rw [tokens_line _ 0 first]
      exact bind_congr next

/-- By induction on the lines: a source that is read without failure is laid out like a formula. -/
theorem laid_of_lines (result : r.lines taken source = .ok last) : ∃ q words, Laid q words source ∧
    (∀ w ∈ words, (Token.ofText? w).isSome) ∧ (q = none ∨ r.problem = none ∧ ¬ r.Begun) := by
  induction source generalizing r taken with
  | nil => exact ⟨none, [], .done, by simp, .inl rfl⟩
  | cons text rest ih =>
    cases text with
    | none => cases result
    | some cs =>
      rw [Reader.lines] at result
      rcases ofText_cases cs with ⟨kind, skipped⟩ | ⟨kind, mark⟩ | kind | ⟨kind, some⟩ <;> rw [kind] at result
      · obtain ⟨q, words, laid, tokens, early⟩ := ih result
        exact ⟨q, words, .skip skipped laid, tokens, early⟩
      · exact ⟨none, [], .stop rest mark, by simp, .inl rfl⟩
      · obtain ⟨t, noted, later⟩ := Reader.bind_eq_ok.mp result
        obtain ⟨p, counts, none, fresh, rfl⟩ := problemLine_ok.mp noted
        obtain ⟨q, words, laid, tokens, early⟩ := ih later
        obtain rfl : q = .none := early.resolve_right fun unread => nomatch unread.1
        exact ⟨p, words, .problem (spaced_words cs) (ofWords?_eq_some_iff.mp counts) laid, tokens,
          .inr ⟨none, fresh⟩⟩
      · obtain ⟨t, taken, later⟩ := Reader.bind_eq_ok.mp result
        obtain ⟨first, begun⟩ := tokens_ok taken
        obtain ⟨q, words, laid, tokens, early⟩ := ih later
        obtain rfl : q = none := early.resolve_right fun unread => unread.2 (begun (.inr some))
        have numerals : ∀ w ∈ Text.words cs, ∃ n, Numeral n w := fun w member => exists_numeral (first w member)
        exact ⟨none, _, .words (spaced_words cs) numerals laid, List.forall_mem_append.mpr ⟨first, tokens⟩, .inl rfl⟩

end Lines

section Clauses

variable {r last : Reader} {line : Nat} {c : List Int} {clauses : List (List Int)} {ws vs words : List (List Char)}
  {p : Option Problem} {source : Source}

/-- Words that spell numbers are read as the literals of these. -/
theorem tokens_spelt (spelt : List.Forall₂ Spells c ws) : r.tokens line (ws ++ vs) =
    literals r.session c >>= fun (disjuncts, session) =>
      Reader.tokens { r with session := session, pending := r.pending ++ disjuncts } line vs := by
  induction spelt generalizing r with
  | nil =>
    show r.tokens line vs = Reader.tokens { r with pending := r.pending ++ [] } line vs
    rw [List.append_nil]
  | @cons n w c ws first rest ih =>
    rw [List.cons_append, Reader.tokens, ofText?_eq_literal_iff.mpr first, literals]
    show (r.literal n >>= fun t => t.tokens line (ws ++ vs)) = _
    rw [Reader.literal]
    rcases r.session.boolean (toString n.natAbs) with ⟨_ | s, session⟩
    · rfl
    · show Reader.tokens _ line (ws ++ vs) = _
      rw [ih]
      show literals session c >>= _ = (literals session c >>= _) >>= _
      rw [bind_assoc]
      refine bind_congr fun (disjuncts, last) => ?_
      show Reader.tokens { r with session := last, pending := (r.pending ++ [signed s n]) ++ disjuncts } line vs = _
      rw [List.append_assoc]
      rfl

/-- There is a literal for each number. -/
theorem length_literals {session : Session} {disjuncts : List Expr} {after : Session}
    (result : literals session c = .ok (disjuncts, after)) : disjuncts.length = c.length := by
  induction c generalizing session disjuncts with
  | nil =>
    cases result
    rfl
  | cons n c ih =>
    rw [literals] at result
    split at result
    · cases result
    · obtain ⟨⟨rest, last⟩, later, same⟩ := Reader.bind_eq_ok.mp result
      cases same
      rw [List.length_cons, List.length_cons, ih later]

/-- What is left to do when the literals of a clause were read. -/
theorem close_literals {disjuncts : List Expr} (ended : r.pending = []) (session : Session) :
    Reader.close { r with session := session, pending := r.pending ++ disjuncts } =
      match r.kb.add disjuncts with
      | (.error cause, _) => .error (cause, session)
      | (.ok _, kb) => .ok { r with session := session, kb := kb, clauses := r.clauses + 1 } := by
  rw [Reader.close]
  simp only [ended, List.nil_append]
  rcases r.kb.add disjuncts with ⟨_ | _, _⟩ <;> rfl

/-- By induction on the clauses: their words are read by adding them. -/
theorem tokens_written (written : Written Spells clauses words) (ended : r.pending = []) :
    r.tokens line words >>= Reader.finish = addNumbers r.kb r.session clauses >>= fun (session, kb) =>
      .ok { r with session := session, kb := kb, clauses := r.clauses + clauses.length } := by
  induction written generalizing r with
  | nil =>
    show r.finish = _
    rw [Reader.finish, if_pos (by simp [ended])]
    rfl
  | @unended c ws some spelt =>
    have all : r.tokens line ws = r.tokens line (ws ++ []) := by rw [List.append_nil]
    rw [all, tokens_spelt spelt, addNumbers, bind_assoc, bind_assoc]
    cases result : literals r.session c with
    | error _ => rfl
    | ok pair =>
      obtain ⟨disjuncts, session⟩ := pair
      have unclosed : ¬ (r.pending ++ disjuncts).isEmpty = true := by
        have count := length_literals result
        have positive := List.length_pos_iff.mpr some
        simp only [List.isEmpty_iff, ended, List.nil_append, ← List.length_eq_zero_iff]
        omega
      show Reader.finish { r with session := session, pending := r.pending ++ disjuncts } = _
      rw [Reader.finish, if_neg unclosed, close_literals ended]
      show _ = (match r.kb.add disjuncts with | (.error cause, _) => _ | (.ok _, kb) => _) >>= _
      rcases r.kb.add disjuncts with ⟨_ | _, _⟩ <;> rfl
  | @cons c cs ws vs spelt more ih =>
    rw [tokens_spelt spelt, addNumbers, bind_assoc, bind_assoc]
    refine bind_congr fun (disjuncts, session) => ?_
    show (Reader.close _ >>= fun t => t.tokens line vs) >>= Reader.finish = _
    rw [close_literals ended]
    show _ = (match r.kb.add disjuncts with | (.error cause, _) => _ | (.ok _, kb) => _) >>= _
    rcases r.kb.add disjuncts with ⟨_ | _, kb⟩
    · rfl
    · have counted : r.clauses + 1 + cs.length = r.clauses + (c :: cs).length := by
        rw [List.length_cons]
        omega
      refine (ih (r := { r with session := session, kb := kb, clauses := r.clauses + 1 }) ended).trans ?_
      simp only [counted]

/-- The words of clauses are tokens. -/
theorem Written.isSome (written : Written Spells clauses words) : ∀ w ∈ words, (Token.ofText? w).isSome := by
  have each : ∀ {c : List Int} {ws : List (List Char)}, List.Forall₂ Spells c ws →
      ∀ w ∈ ws, (Token.ofText? w).isSome := by
    intro c ws spelt
    induction spelt with
    | nil => simp
    | cons first rest ih =>
      exact List.forall_mem_cons.mpr ⟨isSome_ofText?_iff.mpr (.inr ⟨_, first⟩), ih⟩
  induction written with
  | nil => simp
  | unended some spelt => exact each spelt
  | cons spelt more ih =>
    exact List.forall_mem_append.mpr ⟨each spelt, List.forall_mem_cons.mpr ⟨rfl, ih⟩⟩

/-- The clauses that some words are the words of. -/
def clausesOf : List (List Char) → List (List Int)
  | [] => []
  | w :: ws =>
    match Token.ofText? w with
    | some (.literal n) =>
      match clausesOf ws with
      | [] => [[n]]
      | c :: cs => (n :: c) :: cs
    | _ => [] :: clausesOf ws

theorem clausesOf_eq (written : Written Spells clauses words) : clausesOf words = clauses := by
  have close : ∀ vs, clausesOf (['0'] :: vs) = [] :: clausesOf vs := fun vs => rfl
  induction written with
  | nil => rfl
  | @unended c ws some spelt =>
    clear close
    induction spelt with
    | nil => exact absurd rfl some
    | @cons n w c ws first rest ih =>
      rw [clausesOf, ofText?_eq_literal_iff.mpr first]
      cases rest with
      | nil => rfl
      | cons second rest => simp [ih]
  | @cons c cs ws vs spelt more ih =>
    induction spelt with
    | nil => rw [List.nil_append, close, ih]
    | cons first rest inner => rw [List.cons_append, clausesOf, ofText?_eq_literal_iff.mpr first, inner]

/-- Words that are tokens are those of some clauses. -/
theorem written_clausesOf (tokens : ∀ w ∈ words, (Token.ofText? w).isSome) : Written Spells (clausesOf words) words := by
  induction words with
  | nil => exact .nil
  | cons w ws ih =>
    obtain ⟨first, rest⟩ := List.forall_mem_cons.mp tokens
    obtain ⟨token, read⟩ := Option.isSome_iff_exists.mp first
    have later := ih rest
    rw [clausesOf, read]
    cases token with
    | close =>
      obtain rfl := ofText?_eq_close_iff.mp read
      exact .cons .nil later
    | literal n =>
      have spelt := ofText?_eq_literal_iff.mp read
      cases result : clausesOf ws with
      | nil =>
        rw [result] at later
        cases later
        exact .unended nofun (.cons spelt .nil)
      | cons c cs =>
        rw [result] at later
        cases later with
        | unended some more => exact .unended nofun (.cons spelt more)
        | cons more written => exact .cons (.cons spelt more) written

/-- The words of the lines that hold words. -/
def spoken : Source → List (List Char)
  | [] => []
  | none :: _ => []
  | some text :: rest =>
    match Line.ofText text with
    | .skip => spoken rest
    | .stop => []
    | .problem _ => spoken rest
    | .tokens ws => ws ++ spoken rest

theorem Laid.spoken_eq (laid : Laid p words source) : spoken source = words := by
  induction laid with
  | done => rfl
  | stop rest mark => rw [spoken, ofText_stop mark]
  | skip skipped more ih => rw [spoken, ofText_skip skipped, ih]
  | problem spaced announced more ih => rw [spoken, ofText_problem spaced announced, ih]
  | @words ws vs cs rest spaced numerals more ih =>
    cases vs with
    | nil => rw [spoken, ofText_skip (.inl spaced.blanks), ih, List.nil_append]
    | cons w vs => rw [spoken, ofText_words spaced (numerals w List.mem_cons_self), ih]

theorem Holds.clauses_eq (holds : Holds source p clauses) : clausesOf (spoken source) = clauses := by
  obtain ⟨words, laid, written⟩ := holds
  rw [laid.spoken_eq, clausesOf_eq written]

end Clauses

section Texts

variable {spelling other : Int → List Char → Prop} {c : List Int} {clauses : List (List Int)}
  {ws words : List (List Char)} {p : Option Problem} {source : Source}

theorem Written.mono (written : Written spelling clauses words)
    (weaker : ∀ c ∈ clauses, ∀ n ∈ c, ∀ w, spelling n w → other n w) : Written other clauses words := by
  have each : ∀ {c ws}, List.Forall₂ spelling c ws → (∀ n ∈ c, ∀ w, spelling n w → other n w) →
      List.Forall₂ other c ws := by
    intro c ws spelt weaker
    induction spelt with
    | nil => exact .nil
    | cons first rest ih =>
      obtain ⟨now, later⟩ := List.forall_mem_cons.mp weaker
      exact .cons (now _ first) (ih later)
  induction written with
  | nil => exact .nil
  | unended some spelt => exact .unended some (each spelt (weaker _ List.mem_cons_self))
  | cons spelt more ih =>
    obtain ⟨now, later⟩ := List.forall_mem_cons.mp weaker
    exact .cons (each spelt now) (ih later)

/-- An empty line at the end holds nothing. -/
theorem Laid.of_append_empty (laid : Laid p words (source ++ [some []])) : Laid p words source := by
  induction source generalizing p words with
  | nil =>
    cases laid with
    | stop rest mark =>
      obtain ⟨gap, rest, -, same⟩ := mark
      simp at same
    | skip skipped more => exact more
    | problem spaced announced more =>
      obtain ⟨_, _, _, rfl, -, -⟩ := announced.marked
      obtain ⟨gap, rest, -, same⟩ := spaced.opens
      simp at same
    | @words ws vs _ _ spaced numerals more =>
      have empty : Text.words [] = vs := words_eq_iff.mpr spaced
      obtain rfl : [] = vs := empty
      exact more
  | cons line rest ih =>
    cases laid with
    | stop rest mark => exact .stop _ mark
    | skip skipped more => exact .skip skipped (ih more)
    | problem spaced announced more => exact .problem spaced announced (ih more)
    | words spaced numerals more => exact .words spaced numerals (ih more)

/-- The lines of a text are what stands between its line feeds. -/
theorem Laid.ofText {text : String} {lines : List (List Char)} (laid : Laid p words (lines.map some))
    (whole : text.toList = ['\n'].intercalate lines) (plain : ∀ line ∈ lines, '\n' ∉ line) :
    Laid p words (.ofText text) := by
  rcases List.eq_nil_or_concat' lines with rfl | ⟨before, last, rfl⟩
  · rw [Source.ofText, whole]
    exact laid
  · have pieces : text.toList.splitOn '\n' = before ++ [last] := by
      rw [whole, List.splitOn_intercalate '\n' plain (by simp)]
    rw [Source.ofText, endedBy, pieces]
    by_cases empty : last = []
    · subst empty
      rw [List.map_append] at laid
      simpa using laid.of_append_empty
    · simpa [empty] using laid

end Texts

end Dimacs

namespace KnowledgeBase

open Dimacs

variable {kb more : KnowledgeBase} {session last : Session} {source : Source} {p : Option Problem}
  {clauses : List (List Int)} {summary : Summary}

/-- A source that holds some clauses is read by adding these. -/
theorem read_holds (holds : Holds source p clauses) (kb : KnowledgeBase) (session : Session) :
    kb.read session source = match addNumbers kb session clauses with
      | .ok (last, more) => (.ok ⟨p, clauses.length⟩, last, more)
      | .error (cause, last) => (.error cause, last, kb) := by
  obtain ⟨words, laid, written⟩ := holds
  have fresh : ¬ (Reader.mk session kb none 0 []).Begun := by simp [Reader.Begun]
  rw [read, lines_laid laid written.isSome (.inr ⟨rfl, fresh⟩), tokens_written written rfl,
    Option.or_none]
  dsimp only
  cases addNumbers kb session clauses with
  | error failure => rfl
  | ok state => simp [Bind.bind, Except.bind]

/-- Whatever is read without failure holds some clauses, and these were added. -/
theorem holds_of_read (result : kb.read session source = (.ok summary, last, more)) :
    ∃ clauses, Holds source summary.problem clauses ∧ summary.clauses = clauses.length ∧
      addNumbers kb session clauses = .ok (last, more) := by
  obtain ⟨p, words, laid, tokens⟩ : ∃ p words, Laid p words source ∧ ∀ w ∈ words, (Token.ofText? w).isSome := by
    unfold read at result
    split at result
    · next r ended =>
      obtain ⟨t, taken, -⟩ := Reader.bind_eq_ok.mp ended
      obtain ⟨p, words, laid, tokens, -⟩ := laid_of_lines taken
      exact ⟨p, words, laid, tokens⟩
    · cases result
  have holds : Holds source p (clausesOf words) := ⟨words, laid, written_clausesOf tokens⟩
  have same := read_holds holds kb session
  rw [result] at same
  split at same
  · next last' more' added =>
    cases same
    exact ⟨_, holds, rfl, added⟩
  · cases same

/-- How a text lays out its clauses changes nothing about what is read: the clauses are added in order, and
the knowledge base is unchanged if one of them cannot be. -/
theorem read_layout {text : String} {lines words : List (List Char)}
    (whole : text.toList = ['\n'].intercalate lines) (plain : ∀ line ∈ lines, '\n' ∉ line)
    (laid : Laid p words (lines.map some)) (written : Written Numeral clauses words)
    (proper : ∀ c ∈ clauses, ∀ n ∈ c, n ≠ 0 ∧ Word.Fits n) (kb : KnowledgeBase) (session : Session) :
    kb.read session (.ofText text) = match addNumbers kb session clauses with
      | .ok (last, more) => (.ok ⟨p, clauses.length⟩, last, more)
      | .error (cause, last) => (.error cause, last, kb) := by
  have zero : Numeral 0 ['0'] := .unsigned (.inl ⟨0, rfl⟩)
  have spelt : Written Spells clauses words := by
    refine written.mono fun c member n inside w numeral => ?_
    obtain ⟨nonzero, fits⟩ := proper c member n inside
    refine ⟨?_, numeral, fits⟩
    rintro rfl
    exact nonzero (numeral.unique zero)
  exact read_holds ⟨words, laid.ofText whole plain, spelt⟩ kb session

/-- Clauses across lines, comments between these, numerals with signs and zeros, a last clause that is not
ended, and text after the end. -/
theorem read_layout_mixed :
    let text := "c 1 0\n\n p cnf +2 03 0\n+1 -002\n\tc 2\n\x0c0 -1\r\n 0 2\n %1\nx 0"
    let words := ["+1", "-002", "0", "-1", "0", "2"].map String.toList
    let lines := ["c 1 0", "", " p cnf +2 03 0", "+1 -002", "\tc 2", "\x0c0 -1\r", " 0 2", " %1", "x 0"].map
      String.toList
    let kb := KnowledgeBase.empty {}
    text.toList = ['\n'].intercalate lines ∧ Laid (some ⟨2, 3⟩) words (lines.map some) ∧
      Written Numeral [[1, -2], [-1], [2]] words ∧
      (kb.read (.empty 0) (.ofText text)).1 = .ok ⟨some ⟨2, 3⟩, 3⟩ ∧
      kb.read (.empty 0) (.ofText text) = match addNumbers kb (.empty 0) [[1, -2], [-1], [2]] with
        | .ok (last, more) => (.ok ⟨some ⟨2, 3⟩, 3⟩, last, more)
        | .error (cause, last) => (.error cause, last, kb) := by
  intro text words lines kb
  have numeral : ∀ {z w}, integer? w = some z → Numeral z w := integer?_eq_some_iff.mp
  have whole : text.toList = ['\n'].intercalate lines := by decide +kernel
  have line : ∀ (cs : List Char) {ws : List (List Char)} {rest : Source},
      (∀ w ∈ Text.words cs, (integer? w).isSome) → Laid none ws rest →
        Laid none (Text.words cs ++ ws) (some cs :: rest) := by
    intro cs ws rest numerals more
    refine .words (spaced_words cs) (fun w member => ?_) more
    obtain ⟨n, read⟩ := Option.isSome_iff_exists.mp (numerals w member)
    exact ⟨n, numeral read⟩
  have comment : ∀ cs : List Char, firstInked? cs = some 'c' → Opens 'c' cs :=
    fun cs mark => (firstInked?_eq_some_iff.mp mark).2
  have laid : Laid (some ⟨2, 3⟩) words (lines.map some) := by
    refine .skip (.inr (comment _ (by decide))) (.skip (.inl nofun) ?_)
    refine .problem (spaced_words " p cnf +2 03 0".toList) (ofWords?_eq_some_iff.mp (by decide)) ?_
    refine line "+1 -002".toList (by decide) (.skip (.inr (comment _ (by decide))) ?_)
    refine line "\x0c0 -1\r".toList (by decide) (line " 0 2".toList (by decide) ?_)
    exact .stop _ (firstInked?_eq_some_iff.mp (by decide)).2
  have written : Written Numeral [[1, -2], [-1], [2]] words := by
    have first : List.Forall₂ Numeral [1, -2] [['+', '1'], ['-', '0', '0', '2']] :=
      .cons (numeral (by decide)) (.cons (numeral (by decide)) .nil)
    have second : List.Forall₂ Numeral [-1] [['-', '1']] := .cons (numeral (by decide)) .nil
    have third : List.Forall₂ Numeral [2] [['2']] := .cons (numeral (by decide)) .nil
    exact .cons first (.cons second (.unended (by decide) third))
  exact ⟨whole, laid, written, by decide +kernel,
    read_layout whole (by decide +kernel) laid written (by decide +kernel) kb (.empty 0)⟩

end KnowledgeBase

end Clausal

import Clausal.Proofs.Layout
import Clausal.Proofs.Registration
import Clausal.Proofs.Typing

/-!
The lines that errors of reading name. Lines are counted from one and end at line feeds. A token
that is no integer is reported with the number of its line, a line that is not UTF-8 with the number
of the line before it; and in both cases every line above was read and has neither fault. No other
step of the reading fails with an error that names a line, and no source with a fault is read. Main
statement: `read_fault`.
-/

namespace Clausal

open Text

namespace Text

section Bytes

variable {bytes line piece rest : List UInt8} {cs : List Char} {n i : Nat}

/-- A line of some bytes by its number: it ends with a line feed, or with the bytes if any are left. -/
inductive LineAt : List UInt8 → Nat → List UInt8 → Prop where
  | last {line : List UInt8} (some : line ≠ []) (plain : Source.lineFeed ∉ line) : LineAt line 1 line
  | here {line rest : List UInt8} (plain : Source.lineFeed ∉ line) :
    LineAt (line ++ Source.lineFeed :: rest) 1 line
  | later {skipped rest line : List UInt8} {n : Nat} (plain : Source.lineFeed ∉ skipped)
    (more : LineAt rest n line) : LineAt (skipped ++ Source.lineFeed :: rest) (n + 1) line

/-- Some bytes are the UTF-8 of some characters. -/
def Utf8 (cs : List Char) (bytes : List UInt8) : Prop := cs.flatMap String.utf8EncodeChar = bytes

theorem decode?_eq_some_iff : Source.decode? bytes = some cs ↔ Utf8 cs bytes := by
  have whole : Utf8 cs bytes ↔ cs.utf8Encode = ⟨bytes.toArray⟩ := by
    rw [Utf8, List.utf8Encode, ByteArray.ext_iff, ← Array.toList_inj, List.toList_data_toByteArray]
  rw [whole, Source.decode?, Option.map_eq_some_iff, String.fromUTF8?]
  constructor
  · rintro ⟨text, decoded, rfl⟩
    split at decoded
    · cases decoded
      rw [← String.toByteArray_ofList, String.ofList_toList]
      rfl
    · cases decoded
  · intro encoded
    have valid : ByteArray.IsValidUTF8 ⟨bytes.toArray⟩ := .intro cs encoded.symm
    refine ⟨.fromUTF8 _ valid, dif_pos valid, ?_⟩
    have same : String.fromUTF8 _ valid = .ofList cs := by
      rw [← String.toByteArray_inj, String.toByteArray_ofList, encoded]
      rfl
    rw [same, String.toList_ofList]

theorem decode?_eq_none_iff : Source.decode? bytes = none ↔ ∀ cs, ¬ Utf8 cs bytes := by
  simp only [← decode?_eq_some_iff, Option.eq_none_iff_forall_ne_some, ne_eq]

/-- Some bytes are none, or one line without an end, or a line with its end before others. -/
theorem bytes_cases (bytes : List UInt8) : bytes = [] ∨ (bytes ≠ [] ∧ Source.lineFeed ∉ bytes) ∨
    ∃ piece rest, Source.lineFeed ∉ piece ∧ bytes = piece ++ Source.lineFeed :: rest := by
  by_cases ended : Source.lineFeed ∈ bytes
  · obtain ⟨piece, rest, whole, plain⟩ := List.eq_append_cons_of_mem ended
    exact .inr (.inr ⟨piece, rest, plain, whole⟩)
  · by_cases empty : bytes = []
    · exact .inl empty
    · exact .inr (.inl ⟨empty, ended⟩)

theorem LineAt.getElem? (found : LineAt bytes n line) :
    ∃ i, n = i + 1 ∧ (endedBy Source.lineFeed bytes)[i]? = some line := by
  induction found with
  | last some plain => exact ⟨0, rfl, by rw [endedBy_last some plain]; rfl⟩
  | here plain => exact ⟨0, rfl, by rw [endedBy_cons plain]; rfl⟩
  | later plain more ih =>
    obtain ⟨i, rfl, read⟩ := ih
    exact ⟨i + 1, rfl, by rw [endedBy_cons plain, List.getElem?_cons_succ, read]⟩

theorem lineAt_of_getElem? (read : (endedBy Source.lineFeed bytes)[i]? = some line) :
    LineAt bytes (i + 1) line := by
  induction i generalizing bytes with
  | zero =>
    rcases bytes_cases bytes with rfl | ⟨some, plain⟩ | ⟨piece, rest, plain, rfl⟩
    · cases read
    · rw [endedBy_last some plain] at read
      cases read
      exact .last some plain
    · rw [endedBy_cons plain] at read
      cases read
      exact .here plain
  | succ i ih =>
    rcases bytes_cases bytes with rfl | ⟨some, plain⟩ | ⟨piece, rest, plain, rfl⟩
    · cases read
    · rw [endedBy_last some plain] at read
      cases read
    · rw [endedBy_cons plain, List.getElem?_cons_succ] at read
      exact .later plain (ih read)

/-- The lines that are read are the lines of the bytes. -/
theorem lineAt_iff_getElem? :
    LineAt bytes (i + 1) line ↔ (endedBy Source.lineFeed bytes)[i]? = some line := by
  refine ⟨fun position => ?_, lineAt_of_getElem?⟩
  obtain ⟨j, same, read⟩ := position.getElem?
  obtain rfl : i = j := Nat.succ.inj same
  exact read

end Bytes

end Text

/-- The line that an error names. -/
def Error.line? : Error → Option Nat
  | unreadableLine n => some n
  | malformedLiteral n => some n
  | _ => none

namespace Dimacs

variable {r : Reader} {s : Session} {cause : Error} {source : Source} {text : Option (List Char)}
  {cs w : List Char} {ws : List (List Char)} {taken line : Nat} {number : Int}

section Faults

/-- A line of tokens: it is not blank, and is no comment, no problem line and not the end by its mark. -/
def ClauseLine (cs : List Char) : Prop :=
  ∃ c, isBlank c = false ∧ Opens c cs ∧ c ≠ 'c' ∧ c ≠ 'p' ∧ c ≠ '%'

/-- A line of tokens with a word that is no numeral of an integer that fits a word. -/
def Malformed (cs : List Char) : Prop :=
  ClauseLine cs ∧ ∃ ws, Spaced ws cs ∧ ∃ w ∈ ws, ∀ z, Numeral z w → ¬ Word.Fits z

/-- A line after which the reading goes on, if nothing else fails. -/
def Passed (cs : List Char) : Prop := ¬ Malformed cs ∧ ¬ Opens '%' cs

/-- What is wrong with a line that stands after as many as given, with the error that reports it. -/
inductive Fault (taken : Nat) : Option (List Char) → Error → Prop where
  | unreadable : Fault taken none (.unreadableLine taken)
  | malformed {cs : List Char} (bad : Malformed cs) : Fault taken (some cs) (.malformedLiteral (taken + 1))

/-- The first fault of a source, after as many lines as given: all lines before it are passed. -/
def FirstFault (taken : Nat) (source : Source) (cause : Error) : Prop :=
  ∃ i text, source[i]? = some text ∧ Fault (taken + i) text cause ∧
    ∀ j < i, ∃ cs, source[j]? = some (some cs) ∧ Passed cs

theorem FirstFault.head (fault : Fault taken text cause) : FirstFault taken (text :: source) cause :=
  ⟨0, text, rfl, fault, nofun⟩

theorem FirstFault.cons (passed : Passed cs) (first : FirstFault (taken + 1) source cause) :
    FirstFault taken (some cs :: source) cause := by
  obtain ⟨i, text, found, fault, before⟩ := first
  refine ⟨i + 1, text, found, Nat.add_right_comm taken 1 i ▸ fault, fun j less => ?_⟩
  cases j with
  | zero => exact ⟨cs, rfl, passed⟩
  | succ j => exact before j (Nat.lt_of_succ_lt_succ less)

theorem FirstFault.of_none (first : FirstFault taken (none :: source) cause) : cause = .unreadableLine taken := by
  obtain ⟨_ | i, text, found, fault, before⟩ := first
  · cases found
    cases fault
    rfl
  · obtain ⟨cs, ⟨⟩, -⟩ := before 0 (Nat.succ_pos i)

theorem FirstFault.of_some (first : FirstFault taken (some cs :: source) cause) :
    (Malformed cs ∧ cause = .malformedLiteral (taken + 1)) ∨ (Passed cs ∧ FirstFault (taken + 1) source cause) := by
  obtain ⟨_ | i, text, found, fault, before⟩ := first
  · cases found
    cases fault with
    | malformed bad => exact .inl ⟨bad, rfl⟩
  · obtain ⟨_, ⟨⟩, passed⟩ := before 0 (Nat.succ_pos i)
    exact .inr ⟨passed, i, text, found, (Nat.add_right_comm taken 1 i).symm ▸ fault,
      fun j less => before (j + 1) (Nat.succ_lt_succ less)⟩

theorem ofText?_eq_none_iff : Token.ofText? w = none ↔ ∀ z, Numeral z w → ¬ Word.Fits z := by
  have zero : Numeral 0 ['0'] := .unsigned (.inl ⟨0, rfl⟩)
  rw [← not_iff_not, ← ne_eq, ← Option.isSome_iff_ne_none, isSome_ofText?_iff]
  push Not
  constructor
  · rintro (rfl | ⟨z, spelt⟩)
    · exact ⟨0, zero, by decide⟩
    · exact ⟨z, spelt.numeral, spelt.fits⟩
  · rintro ⟨z, numeral, fits⟩
    by_cases closes : w = ['0']
    · exact .inl closes
    · exact .inr ⟨z, closes, numeral, fits⟩

/-- The tokens of a line are its words. -/
theorem ofText_tokens_iff : Line.ofText cs = .tokens ws ↔ ClauseLine cs ∧ Spaced ws cs := by
  rw [← words_eq_iff]
  constructor
  · intro kind
    unfold Line.ofText at kind
    split at kind
    · cases kind
    · cases kind
    · cases kind
    · cases kind
    · next c comment stop problem found =>
      obtain ⟨inked, opens⟩ := firstInked?_eq_some_iff.mp found
      exact ⟨⟨c, inked, opens, by simpa using comment, by simpa using problem, by simpa using stop⟩,
        Line.tokens.inj kind⟩
  · rintro ⟨⟨c, inked, opens, comment, problem, stop⟩, rfl⟩
    rw [Line.ofText, firstInked?_eq_some_iff.mpr ⟨inked, opens⟩]
    split <;> simp_all

theorem malformed_iff : Malformed cs ↔
    ∃ ws, Line.ofText cs = .tokens ws ∧ ∃ w ∈ ws, Token.ofText? w = none := by
  simp only [Malformed, ofText_tokens_iff, ofText?_eq_none_iff, and_assoc, exists_and_left]

/-- A line is passed if it is not the end and all its tokens are tokens. -/
theorem passed_iff : Passed cs ↔ Line.ofText cs ≠ .stop ∧
    ∀ ws, Line.ofText cs = .tokens ws → ∀ w ∈ ws, (Token.ofText? w).isSome := by
  have stop : Line.ofText cs = .stop ↔ Opens '%' cs := by
    refine ⟨fun kind => ?_, ofText_stop⟩
    rcases ofText_cases cs with ⟨other, -⟩ | ⟨-, mark⟩ | other | ⟨other, -⟩
    case inr.inl => exact mark
    all_goals
      rw [other] at kind
      cases kind
  rw [Passed, malformed_iff, and_comm, ← stop]
  simp only [not_exists, not_and, ← ne_eq, ← Option.isSome_iff_ne_none]

end Faults

section Failures

theorem line?_of_shortage {cause : Error} (short : Build.Shortage cause) : cause.line? = none := by
  cases short <;> rfl

theorem add_line? {kb : KnowledgeBase} {disjuncts : List Expr} (failed : (kb.add disjuncts).1 = .error cause) :
    cause.line? = none := by
  rcases KnowledgeBase.add_error_cases failed with ⟨required, rfl⟩ | short
  · rfl
  · exact line?_of_shortage short

theorem close_line? (failed : r.close = .error (cause, s)) : cause.line? = none := by
  unfold Reader.close at failed
  split at failed
  · next added =>
    cases failed
    exact add_line? (congrArg Prod.fst added)
  · cases failed

theorem literal_line? (failed : r.literal number = .error (cause, s)) : cause.line? = none := by
  unfold Reader.literal at failed
  split at failed
  · next refused =>
    cases failed
    rw [Session.boolean_error refused]
    rfl
  · cases failed

theorem problemLine_line? {counts : Option Problem} (failed : r.problemLine counts = .error (cause, s)) :
    cause.line? = none := by
  unfold Reader.problemLine at failed
  split at failed
  · cases failed
    rfl
  · split at failed
    · cases failed
      rfl
    · cases failed

/-- By induction on the words: one that is no token is reported with the line that they are on. -/
theorem tokens_error (failed : r.tokens line ws = .error (cause, s)) :
    cause.line? = none ∨ (cause = .malformedLiteral line ∧ ∃ w ∈ ws, Token.ofText? w = none) := by
  induction ws generalizing r with
  | nil => cases failed
  | cons w ws ih =>
    have later : ∀ {t : Reader}, t.tokens line ws = .error (cause, s) → cause.line? = none ∨
        (cause = .malformedLiteral line ∧ ∃ v ∈ w :: ws, Token.ofText? v = none) := by
      intro t rest
      refine (ih rest).imp_right fun ⟨named, v, member, bad⟩ => ⟨named, v, List.mem_cons_of_mem _ member, bad⟩
    rw [Reader.tokens] at failed
    cases read : Token.ofText? w with
    | none =>
      rw [read] at failed
      cases failed
      exact .inr ⟨rfl, w, List.mem_cons_self, read⟩
    | some token =>
      rw [read] at failed
      cases token with
      | close =>
        rcases Reader.bind_eq_error.mp failed with first | ⟨t, -, rest⟩
        · exact .inl (close_line? first)
        · exact later rest
      | literal n =>
        rcases Reader.bind_eq_error.mp failed with first | ⟨t, -, rest⟩
        · exact .inl (literal_line? first)
        · exact later rest

/-- By induction on the lines: an error that names a line reports the first fault. -/
theorem lines_error (failed : r.lines taken source = .error (cause, s)) :
    cause.line? = none ∨ FirstFault taken source cause := by
  induction source generalizing r taken with
  | nil => cases failed
  | cons text rest ih =>
    cases text with
    | none =>
      cases failed
      exact .inr (.head .unreadable)
    | some cs =>
      rw [Reader.lines] at failed
      cases kind : Line.ofText cs with
      | skip =>
        rw [kind] at failed
        have passed : Passed cs := passed_iff.mpr (by simp [kind])
        exact (ih failed).imp_right (.cons passed)
      | stop =>
        rw [kind] at failed
        cases failed
      | problem counts =>
        rw [kind] at failed
        have passed : Passed cs := passed_iff.mpr (by simp [kind])
        rcases Reader.bind_eq_error.mp failed with first | ⟨t, -, later⟩
        · exact .inl (problemLine_line? first)
        · exact (ih later).imp_right (.cons passed)
      | tokens ws =>
        rw [kind] at failed
        rcases Reader.bind_eq_error.mp failed with first | ⟨t, taken, later⟩
        · refine (tokens_error first).imp_right ?_
          rintro ⟨rfl, bad⟩
          exact .head (.malformed (malformed_iff.mpr ⟨ws, kind, bad⟩))
        · have passed : Passed cs := passed_iff.mpr (by simpa [kind] using (tokens_ok taken).1)
          exact (ih later).imp_right (.cons passed)

/-- By induction on the lines: a source with a fault is not read, and unless anything else fails before, the error
reports the first fault. -/
theorem lines_fails (r : Reader) (first : FirstFault taken source cause) :
    ∃ found s, r.lines taken source = .error (found, s) ∧ (found = cause ∨ found.line? = none) := by
  induction source generalizing r taken with
  | nil =>
    obtain ⟨i, text, ⟨⟩, -⟩ := first
  | cons text rest ih =>
    cases text with
    | none => exact ⟨_, _, rfl, .inl first.of_none.symm⟩
    | some cs =>
      rw [Reader.lines]
      rcases first.of_some with ⟨bad, rfl⟩ | ⟨passed, later⟩
      · obtain ⟨ws, kind, w, member, wrong⟩ := malformed_iff.mp bad
        rw [kind]
        cases result : r.tokens (taken + 1) ws with
        | ok t =>
          have token := (tokens_ok result).1 w member
          rw [wrong] at token
          cases token
        | error failure =>
          exact ⟨failure.1, failure.2, Reader.bind_eq_error.mpr (.inl result),
            ((tokens_error result).imp_right And.left).symm⟩
      · obtain ⟨going, tokens⟩ := passed_iff.mp passed
        cases kind : Line.ofText cs with
        | skip => exact ih r later
        | stop => exact absurd kind going
        | problem counts =>
          cases result : r.problemLine counts with
          | ok t =>
            obtain ⟨found, s, rest, which⟩ := ih t later
            exact ⟨found, s, Reader.bind_eq_error.mpr (.inr ⟨t, result, rest⟩), which⟩
          | error failure =>
            exact ⟨failure.1, failure.2, Reader.bind_eq_error.mpr (.inl result), .inr (problemLine_line? result)⟩
        | tokens ws =>
          cases result : r.tokens (taken + 1) ws with
          | ok t =>
            obtain ⟨found, s, rest, which⟩ := ih t later
            exact ⟨found, s, Reader.bind_eq_error.mpr (.inr ⟨t, result, rest⟩), which⟩
          | error failure =>
            refine ⟨failure.1, failure.2, Reader.bind_eq_error.mpr (.inl result),
              .inr ((tokens_error result).resolve_right ?_)⟩
            rintro ⟨-, w, member, wrong⟩
            have token := tokens ws kind w member
            rw [wrong] at token
            cases token

end Failures

end Dimacs

namespace KnowledgeBase

open Dimacs

variable {kb : KnowledgeBase} {session : Session} {bytes : List UInt8} {cause : Error}

/-- All lines before a number are the UTF-8 of lines that are passed. -/
def ReadBefore (bytes : List UInt8) (n : Nat) : Prop :=
  ∀ m < n, ∀ line, LineAt bytes m line → ∃ cs, Utf8 cs line ∧ Passed cs

/-- The first line at fault, by its number, is not UTF-8. -/
structure FirstUnreadable (bytes : List UInt8) (n : Nat) : Prop where
  unreadable : ∃ line, LineAt bytes n line ∧ ∀ cs, ¬ Utf8 cs line
  before : ReadBefore bytes n

/-- The first line at fault, by its number, is a clause line with a word that is no integer. -/
structure FirstMalformed (bytes : List UInt8) (n : Nat) : Prop where
  malformed : ∃ line cs, LineAt bytes n line ∧ Utf8 cs line ∧ Malformed cs
  before : ReadBefore bytes n

section Lines

theorem readBefore_iff {i : Nat} {line : List UInt8} (position : LineAt bytes (i + 1) line) :
    ReadBefore bytes (i + 1) ↔ ∀ j < i, ∃ cs, (Source.ofBytes bytes)[j]? = some (some cs) ∧ Passed cs := by
  constructor
  · intro before j less
    obtain ⟨inside, -⟩ := List.getElem?_eq_some_iff.mp (lineAt_iff_getElem?.mp position)
    have read := List.getElem?_eq_getElem (Nat.lt_trans less inside)
    obtain ⟨cs, encoded, passed⟩ := before (j + 1) (Nat.succ_lt_succ less) _ (lineAt_iff_getElem?.mpr read)
    refine ⟨cs, ?_, passed⟩
    rw [Source.ofBytes, List.getElem?_map, read, Option.map_some, decode?_eq_some_iff.mpr encoded]
  · intro passed m less line position
    obtain ⟨j, rfl, read⟩ := position.getElem?
    obtain ⟨cs, known, passed⟩ := passed j (Nat.lt_of_succ_lt_succ less)
    rw [Source.ofBytes, List.getElem?_map, read, Option.map_some, Option.some.injEq] at known
    exact ⟨cs, decode?_eq_some_iff.mp known, passed⟩

/-- The first fault of some bytes, by the number of its line. -/
theorem firstFault_iff : FirstFault 0 (.ofBytes bytes) cause ↔ ∃ i line text, LineAt bytes (i + 1) line ∧
    Source.decode? line = text ∧ Fault i text cause ∧ ReadBefore bytes (i + 1) := by
  simp only [FirstFault, Nat.zero_add, Source.ofBytes, List.getElem?_map, Option.map_eq_some_iff]
  constructor
  · rintro ⟨i, text, ⟨line, read, decoded⟩, fault, passed⟩
    have position := lineAt_iff_getElem?.mpr read
    refine ⟨i, line, text, position, decoded, fault, (readBefore_iff position).mpr ?_⟩
    simpa only [Source.ofBytes, List.getElem?_map, Option.map_eq_some_iff] using passed
  · rintro ⟨i, line, text, position, decoded, fault, before⟩
    refine ⟨i, text, ⟨line, lineAt_iff_getElem?.mp position, decoded⟩, fault, ?_⟩
    simpa only [Source.ofBytes, List.getElem?_map, Option.map_eq_some_iff] using (readBefore_iff position).mp before

theorem firstUnreadable_iff {n : Nat} :
    FirstUnreadable bytes (n + 1) ↔ FirstFault 0 (.ofBytes bytes) (.unreadableLine n) := by
  rw [firstFault_iff]
  constructor
  · rintro ⟨⟨line, position, never⟩, before⟩
    exact ⟨n, line, none, position, decode?_eq_none_iff.mpr never, .unreadable, before⟩
  · rintro ⟨i, line, text, position, decoded, fault, before⟩
    cases fault with
    | unreadable => exact ⟨⟨line, position, decode?_eq_none_iff.mp decoded⟩, before⟩

theorem firstMalformed_iff {n : Nat} :
    FirstMalformed bytes n ↔ FirstFault 0 (.ofBytes bytes) (.malformedLiteral n) := by
  rw [firstFault_iff]
  constructor
  · rintro ⟨⟨line, cs, position, encoded, bad⟩, before⟩
    obtain ⟨i, rfl, -⟩ := position.getElem?
    exact ⟨i, line, some cs, position, decode?_eq_some_iff.mpr encoded, .malformed bad, before⟩
  · rintro ⟨i, line, text, position, decoded, fault, before⟩
    cases fault with
    | malformed bad => exact ⟨⟨line, _, position, decode?_eq_some_iff.mp decoded, bad⟩, before⟩

end Lines

/-- An error that names a line reports the first fault. -/
theorem firstFault_of_read {source : Source} (failed : (kb.read session source).1 = .error cause) :
    cause.line? = none ∨ FirstFault 0 source cause := by
  unfold read at failed
  split at failed
  · cases failed
  · next result =>
    cases failed
    rcases Reader.bind_eq_error.mp result with early | ⟨r, -, ended⟩
    · exact lines_error early
    · unfold Reader.finish at ended
      split at ended
      · cases ended
      · exact .inl (close_line? ended)

/-- A source with a fault is not read. -/
theorem read_of_firstFault {source : Source} (kb : KnowledgeBase) (session : Session)
    (first : FirstFault 0 source cause) :
    ∃ found, (kb.read session source).1 = .error found ∧ (found = cause ∨ found.line? = none) := by
  obtain ⟨found, s, failed, which⟩ := lines_fails ⟨session, kb, none, 0, []⟩ first
  refine ⟨found, ?_, which⟩
  rw [read, failed]
  rfl

/-- The lines that errors of reading name. A line that is not UTF-8 is reported with the number of the line
before it, which is zero for the first line, and a clause line with a word that is no integer with its own
number; in both cases each line above was read and has neither fault. And bytes with such a fault are not read:
the error reports the first one, or something that is wrong with no line alone. -/
theorem read_fault (kb : KnowledgeBase) (session : Session) (bytes : List UInt8) (n : Nat) :
    ((kb.read session (.ofBytes bytes)).1 = .error (.unreadableLine n) → FirstUnreadable bytes (n + 1)) ∧
    ((kb.read session (.ofBytes bytes)).1 = .error (.malformedLiteral n) → FirstMalformed bytes n) ∧
    (FirstUnreadable bytes (n + 1) → ∃ found, (kb.read session (.ofBytes bytes)).1 = .error found ∧
      (found = .unreadableLine n ∨ found.line? = none)) ∧
    (FirstMalformed bytes n → ∃ found, (kb.read session (.ofBytes bytes)).1 = .error found ∧
      (found = .malformedLiteral n ∨ found.line? = none)) := by
  refine ⟨fun failed => ?_, fun failed => ?_, fun first => ?_, fun first => ?_⟩
  · exact firstUnreadable_iff.mpr ((firstFault_of_read failed).resolve_left nofun)
  · exact firstMalformed_iff.mpr ((firstFault_of_read failed).resolve_left nofun)
  · exact read_of_firstFault kb session (firstUnreadable_iff.mp first)
  · exact read_of_firstFault kb session (firstMalformed_iff.mp first)

/-- A line that is not UTF-8 after a clause, and a word that is no integer after another. -/
theorem read_fault_second_line :
    let kb := KnowledgeBase.empty {}
    let broken : List UInt8 := [0x31, 0x20, 0x30, 0x0a, 0xff, 0x0a]
    let worded : List UInt8 := [0x31, 0x20, 0x30, 0x0a, 0x32, 0x20, 0x78]
    (kb.read (.empty 0) (.ofBytes broken)).1 = .error (.unreadableLine 1) ∧ FirstUnreadable broken 2 ∧
      (kb.read (.empty 0) (.ofBytes worded)).1 = .error (.malformedLiteral 2) ∧ FirstMalformed worded 2 := by
  intro kb broken worded
  have unread : (kb.read (.empty 0) (.ofBytes broken)).1 = .error (.unreadableLine 1) := by decide +kernel
  have wrong : (kb.read (.empty 0) (.ofBytes worded)).1 = .error (.malformedLiteral 2) := by decide +kernel
  exact ⟨unread, (kb.read_fault _ _ _).1 unread, wrong, (kb.read_fault _ _ _).2.1 wrong⟩

/-- The second line is the one that is not UTF-8, but the error names the first, which is. -/
theorem unreadable_line_before :
    let bytes : List UInt8 := [0x31, 0x20, 0x30, 0x0a, 0xff, 0x0a]
    ((KnowledgeBase.empty {}).read (.empty 0) (.ofBytes bytes)).1 = .error (.unreadableLine 1) ∧
      LineAt bytes 2 [0xff] ∧ (∀ cs, ¬ Utf8 cs [0xff]) ∧
      ∀ line, LineAt bytes 1 line → Utf8 ['1', ' ', '0'] line := by
  intro bytes
  refine ⟨by decide +kernel, lineAt_iff_getElem?.mpr (by decide), decode?_eq_none_iff.mp (by decide +kernel),
    fun line position => ?_⟩
  have first : (endedBy Source.lineFeed bytes)[0]? = some [0x31, 0x20, 0x30] := by decide
  obtain ⟨i, same, read⟩ := position.getElem?
  obtain rfl : 0 = i := Nat.succ.inj same
  obtain rfl : [0x31, 0x20, 0x30] = line := Option.some.inj (first.symm.trans read)
  rw [Utf8]
  decide

end KnowledgeBase

end Clausal

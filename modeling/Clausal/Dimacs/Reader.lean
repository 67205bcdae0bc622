import Clausal.KnowledgeBase.Compile
import Clausal.Text.Blank
import Clausal.Text.Numeral
import Clausal.Text.Source

/-!
# Reading DIMACS

A line is a comment, the problem line, the end of the formula, or it holds tokens. Tokens are taken
across lines: a zero ends a clause, and any other integer is a literal of it, on the boolean symbol
that is named by the absolute value. A clause that is still open at the end is ended there.
-/

namespace Clausal.Dimacs

open Text

/-- The counts on a problem line: of atoms and of clauses. -/
structure Problem where
  atoms : Nat
  clauses : Nat
  deriving DecidableEq

/-- The counts on a problem line. What follows them is not looked at. -/
def Problem.ofWords? : List (List Char) → Option Problem
  | ['p'] :: ['c', 'n', 'f'] :: atoms :: clauses :: _ => do
    return ⟨← count? atoms, ← count? clauses⟩
  | _ => none

/-- What a line is, by its first character that is not blank. -/
inductive Line where
  | skip
  | stop
  /-- A problem line, with its counts if it is well formed. -/
  | problem (counts : Option Problem)
  | tokens (words : List (List Char))
  deriving DecidableEq

def Line.ofText (cs : List Char) : Line :=
  match firstInked? cs with
  | none | some 'c' => .skip
  | some '%' => .stop
  | some 'p' => .problem (Problem.ofWords? (words cs))
  | some _ => .tokens (words cs)

/-- A token of a clause. -/
inductive Token where
  | close
  | literal (number : Int)
  deriving DecidableEq

/-- A token is a single zero or an integer that fits a word. -/
def Token.ofText? (cs : List Char) : Option Token :=
  if cs = ['0'] then some .close else (signedWord? cs).map .literal

structure Reader where
  session : Session
  kb : KnowledgeBase
  problem : Option Problem
  clauses : Nat
  /-- The literals of the clause that is not ended yet. -/
  pending : List Expr

/-- A failure leaves the symbols that were made before it. -/
abbrev Read := Except (Error × Session)

namespace Reader

def fail {α : Type} (r : Reader) (cause : Error) : Read α := .error (cause, r.session)

def close (r : Reader) : Read Reader :=
  match r.kb.add r.pending with
  | (.error cause, _) => r.fail cause
  | (.ok _, kb) => .ok { r with kb := kb, clauses := r.clauses + 1, pending := [] }

/-- Adds a literal to the clause: the symbol if the number is positive, else its negation. -/
def literal (r : Reader) (number : Int) : Read Reader :=
  match r.session.boolean (toString number.natAbs) with
  | (.error cause, session) => .error (cause, session)
  | (.ok s, session) =>
    let disjunct := if 0 < number then .symbol s else .not (.symbol s)
    .ok { r with session := session, pending := r.pending ++ [disjunct] }

/-- Takes the tokens of a line, the number of which is given. -/
def tokens (r : Reader) (line : Nat) : List (List Char) → Read Reader
  | [] => .ok r
  | word :: rest => do
    match Token.ofText? word with
    | none => r.fail (.malformedLiteral line)
    | some .close => (← r.close).tokens line rest
    | some (.literal number) => (← r.literal number).tokens line rest

/-- Takes a problem line: at most one, and before the first token. -/
def problemLine (r : Reader) (counts : Option Problem) : Read Reader :=
  if r.problem.isSome || 0 < r.clauses || !r.pending.isEmpty then r.fail .problemLine
  else
    match counts with
    | none => r.fail .problemLine
    | some counts => .ok { r with problem := some counts }

/-- Takes the lines of a source, after as many as given. -/
def lines (r : Reader) (taken : Nat) : Source → Read Reader
  | [] => .ok r
  | none :: _ => r.fail (.unreadableLine taken)
  | some text :: rest => do
    match Line.ofText text with
    | .skip => r.lines (taken + 1) rest
    | .stop => .ok r
    | .problem counts => (← r.problemLine counts).lines (taken + 1) rest
    | .tokens words => (← r.tokens (taken + 1) words).lines (taken + 1) rest

/-- Ends the clause that is still open, if any literal of it was read. -/
def finish (r : Reader) : Read Reader := if r.pending.isEmpty then .ok r else r.close

end Reader

structure Summary where
  problem : Option Problem
  clauses : Nat
  deriving DecidableEq

end Clausal.Dimacs

namespace Clausal.KnowledgeBase

open Dimacs

/-- Adds the clauses of a source, or none of them if one cannot be read or added. -/
def read (kb : KnowledgeBase) (session : Session) (source : Text.Source) :
    Except Error Summary × Session × KnowledgeBase :=
  match (Reader.mk session kb none 0 []).lines 0 source >>= Reader.finish with
  | .ok r => (.ok ⟨r.problem, r.clauses⟩, r.session, r.kb)
  | .error (cause, session) => (.error cause, session, kb)

end Clausal.KnowledgeBase

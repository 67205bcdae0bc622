import Clausal.Config
import Clausal.Expr
import Clausal.Purity
import Clausal.Table

/-!
# Knowledge bases

A knowledge base is a growing conjunction of clauses over atoms of its own. Each atom has an origin:
a boolean symbol, a value of an integer symbol, or nothing but the compilation itself. The tables
say what was compiled already, and to what. Its extent is remembered before an addition and restored
if the addition fails.
-/

namespace Clausal

/-- What an atom stands for. -/
inductive Origin where
  /-- The atom that always holds. -/
  | top
  | boolean (s : Symbol)
  /-- That an integer symbol has a value. -/
  | indicator (s : Symbol) (value : Int)
  /-- An atom that compilation introduced. -/
  | auxiliary
  deriving DecidableEq

/-- An integer expression in clauses: for each value of its domain, in order, a literal that is true
exactly if the expression has the value. -/
structure Encoding where
  domain : Domain
  indicators : List Literal
  deriving DecidableEq

namespace Encoding

def indicator? (e : Encoding) (value : Int) : Option Literal := do
  e.indicators[← e.domain.index? value]?

def entries (e : Encoding) : List (Int × Literal) := e.domain.values.zip e.indicators

end Encoding

/-- What became of an added clause. -/
inductive Stored where
  | added
  /-- The clause always holds, so nothing was stored. -/
  | tautology
  deriving DecidableEq

/-- A conjunction of clauses, with what its atoms stand for and what was compiled to them. -/
structure KnowledgeBase where
  config : Config
  /-- The origin of each atom, by atom. -/
  origins : Array Origin
  booleans : Table Symbol Atom
  encodings : Table Expr Encoding
  comparisons : Table Expr Atom
  clauses : Formula

/-- How much a knowledge base holds. -/
structure Extent where
  atoms : Nat
  encodings : Nat
  comparisons : Nat
  clauses : Nat
  deriving DecidableEq

namespace KnowledgeBase

/-- The knowledge base that holds nothing but the atom that always holds. -/
def empty (config : Config) : KnowledgeBase where
  config := config
  origins := #[.top]
  booleans := {}
  encodings := {}
  comparisons := {}
  clauses := #[[Literal.top]]

def atomCount (kb : KnowledgeBase) : Nat := kb.origins.size

def clauseCount (kb : KnowledgeBase) : Nat := kb.clauses.size

def atomOf? (kb : KnowledgeBase) (s : Symbol) : Option Atom := kb.booleans.get? s

/-- What an atom stands for. -/
def origin? (kb : KnowledgeBase) (a : Atom) : Option Origin := kb.origins[a]?

def extent (kb : KnowledgeBase) : Extent where
  atoms := kb.origins.size
  encodings := kb.encodings.size
  comparisons := kb.comparisons.size
  clauses := kb.clauses.size

/-- Drops whatever came after an extent: boolean symbols by their atoms, and what else was compiled by
the keys that the tables got later. -/
def rollback (kb : KnowledgeBase) (e : Extent) : KnowledgeBase :=
  { kb with
    origins := kb.origins.take e.atoms
    booleans := kb.booleans.keep (· < e.atoms)
    encodings := kb.encodings.forget e.encodings
    comparisons := kb.comparisons.forget e.comparisons
    clauses := kb.clauses.take e.clauses }

/-- Stores a clause in its normal form, unless it always holds. The literal that always holds makes
it do so; its negation is left out. -/
def store (kb : KnowledgeBase) (c : Clause) : Stored × KnowledgeBase :=
  if c.contains Literal.top then (.tautology, kb)
  else
    match Clause.normalise (c.filter (· != -Literal.top)) with
    | none => (.tautology, kb)
    | some normal => (.added, { kb with clauses := kb.clauses.push normal })

def storeAll (kb : KnowledgeBase) (cs : List Clause) : KnowledgeBase :=
  cs.foldl (fun kb c => (kb.store c).2) kb

end KnowledgeBase

end Clausal

import Clausal.KnowledgeBase.Basic
import Clausal.Valuation
import Std.Data.TreeMap

/-!
# Models

A model is a valuation of the atoms of a knowledge base, read in terms of its symbols: a boolean
symbol has the value of its atom, an integer symbol the value whose indicator is true.
-/

namespace Clausal

/-- A valuation of the atoms of a knowledge base. -/
structure Model where
  kb : KnowledgeBase
  valuation : Valuation

namespace Model

def boolean? (m : Model) (s : Symbol) : Option Bool := do
  m.valuation[← m.kb.atomOf? s]?

/-- The value of an integer symbol: the one of the first indicator that is true. -/
def integer? (m : Model) (s : Symbol) : Option Int := do
  let encoding ← m.kb.encodings.get? (.symbol s)
  let i ← encoding.indicators.findIdx? m.valuation.holds
  if i < encoding.domain.count then some (encoding.domain.value i) else none

/-- The value of a symbol that must be a boolean one of the knowledge base. -/
def require (m : Model) (s : Symbol) : Except Error Bool :=
  match m.boolean? s with
  | some value => .ok value
  | none => .error (.notBoolean s.name)

/-- The boolean symbols with their values, in the order their atoms were made. -/
def booleanEntries (m : Model) : List (String × String) :=
  m.kb.booleans.toList.filterMap fun (s, _) => (m.boolean? s).map fun b => (s.name, toString b)

/-- The integer symbols with their values, in the order they were encoded. -/
def integerEntries (m : Model) : List (String × String) :=
  m.kb.encodings.toList.filterMap fun (e, _) =>
    match e with
    | .symbol s => (m.integer? s).map fun n => (s.name, toString n)
    | _ => none

/-- The value of each name, in the order of the names. Of several symbols of one name a later one
hides an earlier one, and an integer a boolean. -/
def entries (m : Model) : List (String × String) :=
  ((m.booleanEntries ++ m.integerEntries).foldl
    (fun byName (name, value) => byName.insert name value) (∅ : Std.TreeMap String String)).toList

/-- The names with their values, between braces. -/
def text (m : Model) : String :=
  let shown := m.entries.map fun (name, value) => name ++ ": " ++ value
  "\x7b" ++ String.intercalate ", " shown ++ "\x7d"

end Model

end Clausal

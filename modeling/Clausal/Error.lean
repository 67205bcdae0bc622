import Clausal.Binary64.Decimal
import Clausal.Domain

/-!
# Types and errors

The two types of expressions, the kinds of symbols, and everything that can go wrong. An error says
its cause; `message` gives its wording.
-/

namespace Clausal

inductive Ty where
  | boolean
  | integer
  deriving DecidableEq

/-- The kind of a symbol. An integer symbol may be declared with a domain or without. -/
inductive Kind where
  | boolean
  | integer (declared : Option Domain)
  deriving DecidableEq

namespace Kind

def ty : Kind → Ty
  | boolean => .boolean
  | integer _ => .integer

def domain? : Kind → Option Domain
  | boolean => none
  | integer declared => declared

/-- Whether a symbol of a kind can be had again by asking for a kind: for an integer either without
a domain, or with the one it was declared with. -/
def admits : Kind → Kind → Bool
  | boolean, boolean => true
  | integer _, integer none => true
  | integer declared, integer requested => declared == requested
  | _, _ => false

end Kind

inductive Error where
  /-- A name was used again for another kind of symbol. -/
  | kindConflict (name : String)
  /-- An expression had the wrong type for its place. -/
  | typeMismatch (required : Ty)
  /-- An integer symbol has no domain, and there is no default one. -/
  | unboundDomain (name : String)
  /-- The atom limit would be passed. -/
  | atomsExceeded (limit : Nat)
  /-- A domain has more values than allowed. -/
  | domainExceeded (limit : Nat)
  /-- More clauses were kept in saturation than allowed. -/
  | clausesExceeded (limit : Nat)
  /-- The values of a sum do not fit a word. -/
  | rangeExceeded
  | endlessDraw
  /-- A problem line is misplaced or malformed. -/
  | problemLine
  /-- A symbol has no atom in the knowledge base, so no truth value in its models. -/
  | notBoolean (name : String)
  /-- A line could not be read, after a number of lines that could. -/
  | unreadableLine (line : Nat)
  /-- A token on a clause line is no integer. -/
  | malformedLiteral (line : Nat)
  /-- The value of an option is out of its bounds. -/
  | optionOutOfRange (option : String)
  /-- The value of an option is not one of its values. -/
  | optionUnrecognised (option : String)
  /-- A degree of confidence is not in [0, 1]. -/
  | degreeOutOfRange (degree : Binary64)
  | strategyMissing (name : String)
  deriving DecidableEq

namespace Error

/-- Equality of errors: degrees are compared as numbers, so one that is not a number equals none. -/
instance : BEq Error where
  beq
    | degreeOutOfRange x, degreeOutOfRange y => x == y
    | e, f => decide (e = f)

def message : Error → String
  | kindConflict name => "The symbol '" ++ name ++ "' was declared with a different kind"
  | typeMismatch .boolean => "A boolean expression was required"
  | typeMismatch .integer => "An integer expression was required"
  | unboundDomain name => "The integer '" ++ name ++ "' has no domain"
  | atomsExceeded limit => "More than " ++ toString limit ++ " atoms required"
  | domainExceeded limit => "A domain of more than " ++ toString limit ++ " values required"
  | clausesExceeded limit =>
    "More than " ++ toString limit ++ " clauses retained during resolution"
  | rangeExceeded => "Integer values outside the range of i64 required"
  | endlessDraw => "The random source never yields an acceptable value"
  | problemLine => "Malformed problem specification"
  | notBoolean name => name ++ " is not a boolean symbol of the knowledge base"
  | unreadableLine line => "Failed to read line " ++ toString line
  | malformedLiteral line => "Malformed literal on line " ++ toString line
  | optionOutOfRange option => "Value out of range for " ++ option
  | optionUnrecognised option => "Unrecognised value for " ++ option
  | degreeOutOfRange degree => "Fuzzy value " ++ degree.text ++ " is outside [0, 1]"
  | strategyMissing name => "No strategy named '" ++ name ++ "'"

instance : ToString Error := ⟨message⟩

end Error

end Clausal

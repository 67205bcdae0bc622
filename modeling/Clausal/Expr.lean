import Clausal.Symbol

/-!
# Expressions

An expression is built from symbols and integers by negation, addition and comparison. Building
checks nothing; `type` finds the first subexpression that has the wrong type for its place.
-/

namespace Clausal

inductive Comparison where
  | equal
  | notEqual
  | less
  | greater
  | lessOrEqual
  | greaterOrEqual
  deriving DecidableEq

namespace Comparison

def all : List Comparison := [equal, notEqual, less, greater, lessOrEqual, greaterOrEqual]

def holds : Comparison → Int → Int → Bool
  | equal, a, b => a == b
  | notEqual, a, b => a != b
  | less, a, b => a < b
  | greater, a, b => b < a
  | lessOrEqual, a, b => a ≤ b
  | greaterOrEqual, a, b => b ≤ a

def text : Comparison → String
  | equal => "=="
  | notEqual => "!="
  | less => "<"
  | greater => ">"
  | lessOrEqual => "<="
  | greaterOrEqual => ">="

instance : ToString Comparison := ⟨text⟩

end Comparison

/-- An expression, well typed or not. -/
inductive Expr where
  | symbol (s : Symbol)
  | constant (value : Int)
  | not (e : Expr)
  | sum (left right : Expr)
  | compare (op : Comparison) (left right : Expr)
  deriving DecidableEq

namespace Expr

/-- Fails unless a type is the required one. -/
def require (required actual : Ty) : Except Error Unit :=
  if actual = required then .ok () else .error (.typeMismatch required)

/-- The type of an expression, or the first mismatch in it, from left to right and inside out. -/
def type : Expr → Except Error Ty
  | symbol s => .ok s.kind.ty
  | constant _ => .ok .integer
  | not e => do
    require .boolean (← e.type)
    return .boolean
  | sum left right => do
    require .integer (← left.type)
    require .integer (← right.type)
    return .integer
  | compare _ left right => do
    require .integer (← left.type)
    require .integer (← right.type)
    return .boolean

/-- One hash of a tag and two hashes, the order of which matters. -/
def mix (tag left right : UInt64) : UInt64 :=
  let sum := tag + 0x9E3779B97F4A7C15 * left + 0xC2B2AE3D27D4EB4F * right
  sum ^^^ (sum >>> 32)

def code : Expr → UInt64
  | symbol s => mix 1 (hash s) 0
  | constant value => mix 2 (UInt64.ofInt value) 0
  | not e => mix 3 e.code 0
  | sum left right => mix 4 left.code right.code
  | compare _ left right => mix 5 left.code right.code

instance : Hashable Expr := ⟨code⟩

/-- The text of an expression. Only the operand of a negation is bracketed, and not if it is a
symbol or a negation itself. -/
def text : Expr → String
  | symbol s => s.name
  | constant value => toString value
  | not (symbol s) => "~" ++ s.name
  | not (not e) => "~" ++ (not e).text
  | not e => "~(" ++ e.text ++ ")"
  | sum left right => left.text ++ " + " ++ right.text
  | compare op left right => left.text ++ " " ++ op.text ++ " " ++ right.text

instance : ToString Expr := ⟨text⟩

end Expr

end Clausal

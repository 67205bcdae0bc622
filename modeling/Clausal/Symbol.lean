import Clausal.Error

/-!
# Symbols and sessions

A session makes one symbol for each name. Asking again for a name gives the same symbol, or fails if
another kind is asked for. Symbols of different sessions are different, whatever their names.
-/

namespace Clausal

/-- A name within a session, with its kind. The session numbers its symbols in the order made. -/
structure Symbol where
  session : Nat
  id : Nat
  name : String
  kind : Kind
  deriving DecidableEq

namespace Symbol

def isBoolean (s : Symbol) : Bool := s.kind == .boolean

/-- What symbols are compared by: the number of the session, and a word with the symbol's own. -/
def key (s : Symbol) : Nat × UInt32 := (s.session, UInt32.ofNat s.id)

def describe (s : Symbol) : String :=
  match s.kind with
  | .boolean => "Boolean(" ++ s.name ++ ")"
  | .integer (some d) => "Integer(" ++ s.name ++ ", " ++ toString d ++ ")"
  | .integer none => "Integer(" ++ s.name ++ ")"

instance : ToString Symbol := ⟨name⟩

/-- The numbers of a symbol and of its session tell it apart from all others. -/
instance : Hashable Symbol := ⟨fun s => UInt64.ofNat (s.session <<< 32 + s.id)⟩

end Symbol

/-- The symbols made so far, in the order made. The number tells sessions apart. -/
structure Session where
  number : Nat
  symbols : List Symbol

namespace Session

def empty (number : Nat) : Session := ⟨number, []⟩

def get? (s : Session) (name : String) : Option Symbol := s.symbols.find? (·.name == name)

def size (s : Session) : Nat := s.symbols.length

/-- The symbol of a name, made if there is none yet. -/
def intern (s : Session) (name : String) (kind : Kind) : Except Error Symbol × Session :=
  match s.get? name with
  | some symbol =>
    (if symbol.kind.admits kind then .ok symbol else .error (.kindConflict name), s)
  | none =>
    let symbol := ⟨s.number, s.size, name, kind⟩
    (.ok symbol, { s with symbols := s.symbols ++ [symbol] })

def boolean (s : Session) (name : String) : Except Error Symbol × Session := s.intern name .boolean

/-- The integer symbol of a name, with a domain if one is given. -/
def integer (s : Session) (name : String) (declared : Option Domain) :
    Except Error Symbol × Session :=
  s.intern name (.integer declared)

end Session

end Clausal

import Clausal.Clause

/-!
# Valuations

A partial valuation gives some atoms a truth value; a valuation gives one to every atom. A clause
*asserts* its only literal without a value when all its other literals are false, and is *falsified*
when all its literals are false.
-/

namespace Clausal

/-- The value of each atom, by atom, as far as it has one. -/
abbrev PartialValuation := Array (Option Bool)

namespace PartialValuation

/-- The value of an atom. An atom outside the valuation has none. -/
def value? (v : PartialValuation) (a : Atom) : Option Bool := v[a]?.join

/-- The value of a literal: whether its atom has the value of its polarity. -/
def literal? (v : PartialValuation) (l : Literal) : Option Bool :=
  (v.value? l.atom).map (· == l.polarity)

/-- The atoms of the valuation without a value, in increasing order. -/
def unvalued (v : PartialValuation) : List Atom :=
  (List.range v.size).filter fun a => (v.value? a).isNone

end PartialValuation

namespace Clause

/-- The scan behind `asserts?`: `found` is the literal without a value seen so far. -/
def assertsFrom (v : PartialValuation) (found : Option Literal) : Clause → Option Literal
  | [] => found
  | l :: c =>
    match v.literal? l, found with
    | some true, _ => none
    | some false, _ => assertsFrom v found c
    | none, none => assertsFrom v (some l) c
    | none, some _ => none

/-- The literal that a clause asserts: the only one without a value, all others being false. A
literal without a value that is written twice is not the only one. -/
def asserts? (c : Clause) (v : PartialValuation) : Option Literal := assertsFrom v none c

/-- Whether every literal of a clause is false. -/
def falsified (c : Clause) (v : PartialValuation) : Bool :=
  c.all fun l => v.literal? l == some false

end Clause

abbrev Valuation := Array Bool

namespace Valuation

/-- Whether a literal is true. A literal on an atom outside the valuation is not. -/
def holds (v : Valuation) (l : Literal) : Bool := v[l.atom]? == some l.polarity

def satisfies (v : Valuation) (c : Clause) : Bool := c.any v.holds

end Valuation

end Clausal

import Clausal.Clause

/-!
# Pure atoms

An atom is pure in a formula if it occurs with one polarity only. Giving every pure atom its
polarity falsifies no clause, so a formula with a model has one in which all pure atoms have it.
-/

namespace Clausal

/-- A conjunction of clauses. -/
abbrev Formula := Array Clause

namespace Formula

/-- The atoms that occur in a formula with a polarity. -/
def atomsWith (f : Formula) (polarity : Bool) : Std.TreeSet Atom :=
  f.foldl (fun atoms c =>
    c.foldl (fun atoms l => if l.polarity == polarity then atoms.insert l.atom else atoms) atoms) ∅

/-- The atoms that occur in a formula with a polarity and never with the other, in increasing
order. -/
def pureAtoms (f : Formula) (polarity : Bool) : List Atom :=
  let opposed := f.atomsWith !polarity
  (f.atomsWith polarity).toList.filter (!opposed.contains ·)

/-- The literals of the pure atoms with the polarity they occur with: the negative ones first. -/
def pureLiterals (f : Formula) : List Literal :=
  (f.pureAtoms false).map (⟨·, false⟩) ++ (f.pureAtoms true).map (⟨·, true⟩)

end Formula

end Clausal

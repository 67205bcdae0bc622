import Std.Data.TreeSet

/-!
# Atoms and literals

An atom is a natural number, so that atoms index arrays. A literal is an atom with a polarity.
Literals are ordered by atom and then by polarity, the negative literal of an atom first, so the
two literals of an atom are neighbours in this order.
-/

namespace Clausal

abbrev Atom := Nat

/-- The atom that holds in every model of a knowledge base. -/
def Atom.top : Atom := 0

/-- The greatest atom: a signed 32-bit number can name it. -/
def Atom.greatest : Atom := 0x7FFFFFFF

/-- An atom with a polarity: the atom itself (`true`) or its negation (`false`). -/
structure Literal where
  atom : Atom
  polarity : Bool
  deriving DecidableEq, Inhabited

namespace Literal

def positive (a : Atom) : Literal := ⟨a, true⟩

/-- The literal that holds in every model of a knowledge base. -/
def top : Literal := positive Atom.top

/-- The negation of a literal is on the same atom with the other polarity. -/
instance : Neg Literal := ⟨fun l => ⟨l.atom, !l.polarity⟩⟩

@[simp] theorem atom_neg (l : Literal) : (-l).atom = l.atom := rfl

@[simp] theorem polarity_neg (l : Literal) : (-l).polarity = !l.polarity := rfl

@[simp] theorem neg_neg (l : Literal) : - -l = l := by
  cases l; simp [Neg.neg]

theorem neg_ne_self (l : Literal) : -l ≠ l := by
  intro h
  have := congrArg polarity h
  simp at this

/-- Whether two literals are on the same atom with opposite polarity. -/
def complements (l m : Literal) : Bool := l.atom == m.atom && l.polarity != m.polarity

theorem complements_iff {l m : Literal} : l.complements m = true ↔ m = -l := by
  obtain ⟨a, p⟩ := l
  obtain ⟨b, q⟩ := m
  simp only [complements, Bool.and_eq_true, beq_iff_eq, bne_iff_ne, Neg.neg, mk.injEq]
  constructor
  · rintro ⟨rfl, h⟩
    exact ⟨rfl, by cases p <;> cases q <;> simp_all⟩
  · rintro ⟨rfl, rfl⟩
    exact ⟨rfl, by cases p <;> simp⟩

/-- The literal as a number, its sign showing the polarity; both literals of atom 0 give 0. -/
def toInt (l : Literal) : Int := if l.polarity then l.atom else -(l.atom : Int)

/-- The text of a literal is its atom in decimal, after a minus sign if the polarity is false. -/
instance : ToString Literal :=
  ⟨fun l => if l.polarity then toString l.atom else "-" ++ toString l.atom⟩

/-- Literals compare by atom first and by polarity second. -/
instance : Ord Literal := ⟨compareLex (compareOn atom) (compareOn polarity)⟩

instance : Std.TransOrd Literal :=
  inferInstanceAs (Std.TransCmp (compareLex (compareOn atom) (compareOn polarity)))

instance : Std.LawfulEqOrd Literal where
  eq_of_compare {l m} h := by
    obtain ⟨ha, hp⟩ := Ordering.then_eq_eq.mp (show (compareLex _ _ l m) = _ from h)
    obtain ⟨a, p⟩ := l
    obtain ⟨b, q⟩ := m
    have hab : a = b := Std.LawfulEqOrd.eq_of_compare ha
    have hpq : p = q := by
      revert hp; cases p <;> cases q <;> simp [compareOn, compare]
    rw [hab, hpq]

/-- A position for each literal in an array with two entries for each atom. -/
def index (l : Literal) : Nat := 2 * l.atom + l.polarity.toNat

end Literal

end Clausal

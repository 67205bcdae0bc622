import Clausal.Config

/-!
# Fuzzy facts

A fuzzy fact is a name with a degree of confidence, a number in [0, 1]. A fuzzy base has one fact
for each name and combines the degrees of all.
-/

namespace Clausal

/-- A name with a degree in [0, 1]. -/
structure Fact where
  name : String
  degree : Binary64
  inUnit : degree.isProbability = true

namespace Fact

/-- The fact of a name and a degree, unless the degree is not in [0, 1]. -/
def of (name : String) (degree : Binary64) : Except Error Fact :=
  if inUnit : degree.isProbability = true then .ok ⟨name, degree, inUnit⟩
  else .error (.degreeOutOfRange degree)

end Fact

/-- Combines degrees; of none the result is zero. Of two equal degrees, which the two zeros are, the
later one is the minimum. -/
def Aggregation.combine (a : Aggregation) (degrees : List Binary64) : Binary64 :=
  if degrees.isEmpty then .zero
  else
    match a with
    | product => degrees.foldl Binary64.mul Binary64.one
    | minimum => degrees.foldl (fun least d => if d ≤ least then d else least) Binary64.one
    | mean => (degrees.foldl Binary64.add Binary64.negativeZero).divNat degrees.length

/-- Facts, in the order in which their names were first recorded. -/
structure FuzzyBase where
  aggregation : Aggregation
  facts : List Fact

namespace FuzzyBase

def empty (config : Config) : FuzzyBase := ⟨config.fuzzyAggregation, []⟩

/-- Puts a fact in the place of the one of its name, or at the end if there is none. -/
def place (fact : Fact) : List Fact → List Fact
  | [] => [fact]
  | f :: rest => if f.name = fact.name then fact :: rest else f :: place fact rest

def record (b : FuzzyBase) (fact : Fact) : FuzzyBase := { b with facts := place fact b.facts }

def degree? (b : FuzzyBase) (name : String) : Option Binary64 :=
  (b.facts.find? (·.name == name)).map Fact.degree

/-- The degrees of all facts, combined. -/
def degree (b : FuzzyBase) : Binary64 := b.aggregation.combine (b.facts.map Fact.degree)

end FuzzyBase

end Clausal

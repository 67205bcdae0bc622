import Clausal.Error
import Clausal.Platform

/-!
# Configuration

How a knowledge base compiles, decides and combines. Most options have bounds within which `set`
keeps them.
-/

namespace Clausal

/-- The procedures that decide satisfiability. Models are always enumerated by backtracking. -/
inductive Procedure where
  | backtracking
  | resolution
  deriving DecidableEq

namespace Procedure

def rank : Procedure → Nat
  | backtracking => 0
  | resolution => 1

instance : LE Procedure := ⟨fun p q => p.rank ≤ q.rank⟩

instance (p q : Procedure) : Decidable (p ≤ q) := inferInstanceAs (Decidable (p.rank ≤ q.rank))

def text : Procedure → String
  | backtracking => "backtracking"
  | resolution => "resolution"

def ofText? (name : String) : Option Procedure := [backtracking, resolution].find? (·.text == name)

end Procedure

inductive Aggregation where
  | product
  | minimum
  | mean
  deriving DecidableEq

namespace Aggregation

def rank : Aggregation → Nat
  | product => 0
  | minimum => 1
  | mean => 2

instance : LE Aggregation := ⟨fun a b => a.rank ≤ b.rank⟩

instance (a b : Aggregation) : Decidable (a ≤ b) := inferInstanceAs (Decidable (a.rank ≤ b.rank))

def text : Aggregation → String
  | product => "product"
  | minimum => "minimum"
  | mean => "mean"

def ofText? (name : String) : Option Aggregation := [product, minimum, mean].find? (·.text == name)

end Aggregation

structure Config where
  procedure : Procedure := .backtracking
  /-- Whether pure literals are assumed before a search that only decides satisfiability. -/
  pureLiterals : Bool := true
  /-- The probability of deciding an atom true. -/
  polarityChance : Binary64 := .zero
  /-- The probability of deciding on a random atom and not on the least one without a value. -/
  randomDecisionBias : Binary64 := .zero
  seed : UInt64 := 0
  /-- The domain of integer symbols declared without one. -/
  defaultDomain : Option Domain := none
  /-- The most values a domain may have. -/
  domainLimit : Nat := 256
  /-- The most atoms a knowledge base may have. -/
  atomLimit : Nat := 1048576
  /-- The most clauses that saturation may keep. -/
  resolutionLimit : Nat := 100000
  fuzzyAggregation : Aggregation := .product
  /-- What is taken from the build and its libraries. This is no option. -/
  platform : Platform := .standard

namespace Config

structure Setting (α : Type) where
  name : String
  min : α
  max : α
  get : Config → α
  put : α → Config → Config

namespace Setting

/-- Changes an option, unless the value is out of its bounds. -/
def set {α : Type} [LE α] [DecidableLE α] (s : Setting α) (value : α) (c : Config) :
    Except Error Config :=
  if s.min ≤ value ∧ value ≤ s.max then .ok (s.put value c) else .error (.optionOutOfRange s.name)

def procedure : Setting Procedure where
  name := "procedure"
  min := .backtracking
  max := .resolution
  get := Config.procedure
  put v c := { c with procedure := v }

def pureLiterals : Setting Bool where
  name := "pure_literals"
  min := false
  max := true
  get := Config.pureLiterals
  put v c := { c with pureLiterals := v }

def polarityChance : Setting Binary64 where
  name := "polarity_lean"
  min := .zero
  max := .one
  get := Config.polarityChance
  put v c := { c with polarityChance := v }

def randomDecisionBias : Setting Binary64 where
  name := "random_decision_bias"
  min := .zero
  max := .one
  get := Config.randomDecisionBias
  put v c := { c with randomDecisionBias := v }

def domainLimit : Setting Nat where
  name := "domain_limit"
  min := 1
  max := 65536
  get := Config.domainLimit
  put v c := { c with domainLimit := v }

def atomLimit : Setting Nat where
  name := "atom_limit"
  min := 1
  max := Atom.greatest
  get := Config.atomLimit
  put v c := { c with atomLimit := v }

def resolutionLimit : Setting Nat where
  name := "resolution_limit"
  min := 1
  max := Word.greatestCount
  get := Config.resolutionLimit
  put v c := { c with resolutionLimit := v }

def fuzzyAggregation : Setting Aggregation where
  name := "fuzzy_aggregation"
  min := .product
  max := .mean
  get := Config.fuzzyAggregation
  put v c := { c with fuzzyAggregation := v }

end Setting

end Config

end Clausal

import Clausal.KnowledgeBase.Compile
import Clausal.Saturation
import Clausal.Search.Models

/-!
# Queries

Whether a knowledge base has a model, what its models are, and what it entails. No query changes the
knowledge base. An expression is entailed exactly if adding its negation leaves no model.
-/

namespace Clausal

/-- The answer to a query for satisfiability. -/
inductive Report where
  | satisfiable
  | unsatisfiable
  deriving DecidableEq

namespace Report

def text : Report → String
  | satisfiable => "Satisfiable"
  | unsatisfiable => "Unsatisfiable"

end Report

/-- An answer, with what was counted on the way to it. -/
structure Outcome where
  report : Report
  counters : Counters
  deriving DecidableEq

namespace KnowledgeBase

/-- The search through the models of a knowledge base. -/
def search (kb : KnowledgeBase) : Search := Search.start kb.clauses kb.atomCount kb.config

def solveBySearch (kb : KnowledgeBase) : Except Error Outcome :=
  let start := if kb.config.pureLiterals then kb.search.assumePureLiterals else kb.search
  match start.next with
  | (some _, s) => .ok ⟨.satisfiable, s.counters⟩
  | (none, s) =>
    if s.phase = .stalled then .error .endlessDraw else .ok ⟨.unsatisfiable, s.counters⟩

/-- Decides satisfiability by saturation of the set of the clauses. -/
def solveBySaturation (kb : KnowledgeBase) : Except Error Outcome :=
  let limit := kb.config.resolutionLimit
  match saturate (kb.config.platform.arrange kb.clauses.toList) limit with
  | (.saturated, resolvents) => .ok ⟨.satisfiable, { resolvents := resolvents }⟩
  | (.refuted, resolvents) => .ok ⟨.unsatisfiable, { resolvents := resolvents }⟩
  | (.exceeded, _) => .error (.clausesExceeded limit)

/-- Decides satisfiability with the configured procedure. -/
def solve (kb : KnowledgeBase) : Except Error Outcome :=
  match kb.config.procedure with
  | .backtracking => kb.solveBySearch
  | .resolution => kb.solveBySaturation

def satisfiable (kb : KnowledgeBase) : Except Error Bool := do
  return (← kb.solve).report == .satisfiable

/-- Whether an expression holds in every model of a knowledge base. -/
def entails (kb : KnowledgeBase) (e : Expr) : Except Error Bool :=
  match kb.add [.not e] with
  | (.error cause, _) => .error cause
  | (.ok _, trial) => do return !(← trial.satisfiable)

end KnowledgeBase

end Clausal

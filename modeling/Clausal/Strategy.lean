import Clausal.KnowledgeBase.Query

/-!
# Strategies

A strategy is a named set of clauses on cards: facts, such as which cards are held, and rules that
say when playing a card is part of the strategy. A play is forced if the strategy with the negation
of the play has no model.
-/

namespace Clausal

def cardName (index : Nat) : String := "c" ++ toString index

def playName (index : Nat) : String := "pc" ++ toString index

/-- A boolean symbol, by name, or its negation. -/
structure Term where
  positive : Bool
  name : String
  deriving DecidableEq

namespace Term

def held (card : Nat) : Term := ⟨true, cardName card⟩

def notHeld (card : Nat) : Term := ⟨false, cardName card⟩

def played (card : Nat) : Term := ⟨true, playName card⟩

def notPlayed (card : Nat) : Term := ⟨false, playName card⟩

end Term

abbrev Rule := List Term

/-- A named set of clauses. -/
structure Strategy where
  name : String
  facts : List Rule
  rules : List Rule
  deriving DecidableEq

namespace Session

/-- The expressions of some terms, in order. -/
def exprs (s : Session) : Rule → Except Error (List Expr) × Session
  | [] => (.ok [], s)
  | t :: rest =>
    match s.boolean t.name with
    | (.error cause, s) => (.error cause, s)
    | (.ok symbol, s) =>
      let e := if t.positive then .symbol symbol else .not (.symbol symbol)
      match s.exprs rest with
      | (.error cause, s) => (.error cause, s)
      | (.ok es, s) => (.ok (e :: es), s)

end Session

namespace KnowledgeBase

/-- Adds rules in turn, up to the first that fails. The symbols made until then remain in the
session. -/
def addRules (kb : KnowledgeBase) (session : Session) :
    List Rule → Except Error KnowledgeBase × Session
  | [] => (.ok kb, session)
  | rule :: rest =>
    match session.exprs rule with
    | (.error cause, session) => (.error cause, session)
    | (.ok disjuncts, session) =>
      match kb.add disjuncts with
      | (.error cause, _) => (.error cause, session)
      | (.ok _, kb) => kb.addRules session rest

end KnowledgeBase

namespace Strategy

/-- The king and the queen of each suit. -/
def marriages : List (Nat × Nat) := [(2, 3), (7, 8), (12, 13), (17, 18)]

/-- The queen of each suit is played exactly if she and the king are held. -/
def marriage : Strategy where
  name := "marriage"
  facts := marriages.flatMap fun (king, queen) => [[.held king], [.held queen]]
  rules := marriages.flatMap fun (king, queen) =>
    [[.notPlayed queen, .held king], [.notPlayed queen, .held queen],
      [.notHeld king, .notHeld queen, .played queen]]

/-- The jack of each suit. -/
def jacks : List Nat := [4, 9, 14, 19]

/-- The jack of each suit is played exactly if it is held. -/
def trumpExchange : Strategy where
  name := "trumpex"
  facts := jacks.map fun jack => [.held jack]
  rules := jacks.flatMap fun jack =>
    [[.notHeld jack, .played jack], [.notPlayed jack, .held jack]]

end Strategy

/-- Whether a strategy forces a play. -/
inductive Verdict where
  /-- Every model of the strategy has the play. -/
  | forced
  /-- Some model does not. -/
  | notForced
  | unavailable
  deriving DecidableEq

/-- What to do if there is no strategy of a name. -/
inductive Missing where
  | abort
  | fallThrough
  deriving DecidableEq

/-- Strategies by name, and how knowledge bases are made of them. -/
structure Registry where
  config : Config
  strategies : List Strategy

namespace Registry

def empty (config : Config) : Registry := ⟨config, []⟩

/-- Adds a strategy at the end; one of the same name is dropped. -/
def register (r : Registry) (s : Strategy) : Registry :=
  { r with strategies := r.strategies.filter (·.name != s.name) ++ [s] }

def withBuiltins (config : Config) : Registry :=
  ((empty config).register .marriage).register .trumpExchange

def names (r : Registry) : List String := r.strategies.map Strategy.name

def get? (r : Registry) (name : String) : Option Strategy := r.strategies.find? (·.name == name)

/-- A knowledge base with the facts and rules of a strategy, and nothing else. -/
def load (r : Registry) (session : Session) (name : String) :
    Except Error KnowledgeBase × Session :=
  match r.get? name with
  | none => (.error (.strategyMissing name), session)
  | some s => (KnowledgeBase.empty r.config).addRules session (s.facts ++ s.rules)

/-- Whether a strategy forces the play of a card. -/
def isForced (r : Registry) (session : Session) (name : String) (card : Nat) (missing : Missing) :
    Except Error Verdict × Session :=
  match r.load session name with
  | (.error (.strategyMissing absent), session) =>
    match missing with
    | .abort => (.error (.strategyMissing absent), session)
    | .fallThrough => (.ok .unavailable, session)
  | (.error cause, session) => (.error cause, session)
  | (.ok kb, session) =>
    match session.boolean (playName card) with
    | (.error cause, session) => (.error cause, session)
    | (.ok play, session) =>
      let verdict := do
        return if ← kb.entails (.symbol play) then Verdict.forced else .notForced
      (verdict, session)

end Registry

end Clausal

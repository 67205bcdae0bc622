import Clausal.KnowledgeBase.Basic

/-!
# Compilation

A boolean expression becomes a literal, and an integer expression an encoding of which exactly one
indicator is true. New atoms are tied to what they stand for by definitional clauses: an encoding by
`exactlyOne`, a sum also by `sumClauses`, a comparison by `comparisonClauses`. What was compiled
once is not compiled again. All expressions of a clause are checked for type before any is compiled.
-/

namespace Clausal

/-- That exactly one of some literals is true: some is, and of no pair both are. -/
def exactlyOne (literals : List Literal) : List Clause := literals :: pairs literals
where
  /-- For each pair of literals, that one of them is false. -/
  pairs : List Literal → List Clause
    | [] => []
    | l :: rest => rest.map (fun m => [-l, -m]) ++ pairs rest

/-- That the sum of two encoded expressions has the sum of their values: the values of both sides
give that of the sum, and the values of the sum and of the left side give that of the right. -/
def sumClauses (left right sum : Encoding) : List Clause :=
  (left.entries.flatMap fun (a, la) =>
    right.entries.filterMap fun (b, lb) => (sum.indicator? (a + b)).map fun ls => [-la, -lb, ls]) ++
  (sum.entries.flatMap fun (v, ls) =>
    left.entries.map fun (a, la) =>
      match right.indicator? (v - a) with
      | some lb => [-ls, -la, lb]
      | none => [-ls, -la])

/-- That a literal is true exactly if a comparison holds between two encoded expressions. -/
def comparisonClauses (op : Comparison) (left right : Encoding) (result : Literal) : List Clause :=
  left.entries.flatMap fun (a, la) =>
    right.entries.map fun (b, lb) => [-la, -lb, if op.holds a b then result else -result]

/-- A change of a knowledge base that may fail. What was changed before a failure remains. -/
abbrev Build := ExceptT Error (StateM KnowledgeBase)

namespace Build

/-- Makes as many new atoms as given, with their origins, if the limit allows them. -/
def freshAtoms (count : Nat) (origin : Nat → Origin) : Build (List Literal) := do
  let kb ← get
  if count = 0 ∨ kb.atomCount + count ≤ kb.config.atomLimit then
    set { kb with origins := kb.origins ++ (List.range count).map origin }
    return (List.range count).map fun i => .positive (kb.atomCount + i)
  else throw (.atomsExceeded kb.config.atomLimit)

def freshAtom (origin : Origin) : Build Atom := do
  let kb ← get
  if kb.atomCount < kb.config.atomLimit then
    set { kb with origins := kb.origins.push origin }
    return kb.atomCount
  else throw (.atomsExceeded kb.config.atomLimit)

def define (cs : List Clause) : Build Unit := modify (·.storeAll cs)

/-- The atom of a boolean symbol, made if there is none yet. -/
def booleanAtom (s : Symbol) : Build Atom := do
  match (← get).booleans.get? s with
  | some a => return a
  | none =>
    let a ← freshAtom (.boolean s)
    modify fun kb => { kb with booleans := kb.booleans.insert s a }
    return a

def checkDomain (d : Domain) : Build Unit := do
  let limit := (← get).config.domainLimit
  unless d.size ≤ limit do throw (.domainExceeded limit)

/-- The domain of an integer symbol: the declared one, or else the default one. -/
def domainOf (s : Symbol) : Build Domain := do
  match s.kind with
  | .boolean => throw (.typeMismatch .integer)
  | .integer declared =>
    match declared <|> (← get).config.defaultDomain with
    | some d => return d
    | none => throw (.unboundDomain s.name)

/-- An encoding over a domain with new atoms as indicators. -/
def encodeDomain (d : Domain) (origin : Nat → Origin) : Build Encoding := do
  checkDomain d
  let indicators ← freshAtoms d.count origin
  define (exactlyOne indicators)
  return ⟨d, indicators⟩

def encodeSymbol (s : Symbol) : Build Encoding := do
  let d ← domainOf s
  encodeDomain d fun i => .indicator s (d.value i)

/-- A constant has the one value, and the literal that always holds for its indicator. -/
def encodeConstant (value : Int) : Encoding := ⟨.singleton value, [Literal.top]⟩

def encodeSum (left right : Encoding) : Build Encoding := do
  match left.domain.sum? right.domain with
  | none => throw .rangeExceeded
  | some d =>
    let sum ← encodeDomain d fun _ => .auxiliary
    define (sumClauses left right sum)
    return sum

/-- The encoding of an expression: the one in the table, or else one that is made and put there. -/
def cachedEncoding (e : Expr) (make : Build Encoding) : Build Encoding := do
  match (← get).encodings.get? e with
  | some encoding => return encoding
  | none =>
    let encoding ← make
    modify fun kb => { kb with encodings := kb.encodings.insert e encoding }
    return encoding

def encode : Expr → Build Encoding
  | .symbol s => cachedEncoding (.symbol s) (encodeSymbol s)
  | .constant value => cachedEncoding (.constant value) (pure (encodeConstant value))
  | .sum left right =>
    cachedEncoding (.sum left right) do
      let l ← encode left
      let r ← encode right
      encodeSum l r
  | .not _ => throw (.typeMismatch .integer)
  | .compare _ _ _ => throw (.typeMismatch .integer)

/-- The atom of a comparison: the one in the table, or else a new one, defined and put there. -/
def comparisonAtom (op : Comparison) (left right : Expr) : Build Atom := do
  match (← get).comparisons.get? (.compare op left right) with
  | some a => return a
  | none =>
    let l ← encode left
    let r ← encode right
    let a ← freshAtom .auxiliary
    define (comparisonClauses op l r (.positive a))
    modify fun kb => { kb with comparisons := kb.comparisons.insert (.compare op left right) a }
    return a

def literalOf : Expr → Build Literal
  | .symbol s => do
    if s.isBoolean then return .positive (← booleanAtom s)
    else throw (.typeMismatch .boolean)
  | .not e => do return -(← literalOf e)
  | .compare op left right => do return .positive (← comparisonAtom op left right)
  | .constant _ => throw (.typeMismatch .boolean)
  | .sum _ _ => throw (.typeMismatch .boolean)

/-- Fails at the first expression that is not boolean. -/
def checkBoolean : List Expr → Except Error Unit
  | [] => return
  | e :: rest => do
    Expr.require .boolean (← e.type)
    checkBoolean rest

def clauseOf (disjuncts : List Expr) : Build Clause := do
  ExceptT.mk (pure (checkBoolean disjuncts))
  disjuncts.mapM literalOf

end Build

namespace KnowledgeBase

/-- Makes a change, or none if it fails. -/
def attempt {α : Type} (kb : KnowledgeBase) (change : Build α) : Except Error α × KnowledgeBase :=
  match change.run.run kb with
  | (.ok a, changed) => (.ok a, changed)
  | (.error e, changed) => (.error e, changed.rollback kb.extent)

/-- Adds the disjunction of some boolean expressions. Without expressions it never holds. -/
def add (kb : KnowledgeBase) (disjuncts : List Expr) : Except Error Stored × KnowledgeBase :=
  match kb.attempt (Build.clauseOf disjuncts) with
  | (.ok c, changed) =>
    let (stored, changed) := changed.store c
    (.ok stored, changed)
  | (.error e, kb) => (.error e, kb)

/-- Gives a symbol its atoms, without saying anything about it. -/
def declare (kb : KnowledgeBase) (s : Symbol) : Except Error Unit × KnowledgeBase :=
  kb.attempt do
    match s.kind with
    | .boolean => discard (Build.booleanAtom s)
    | .integer _ => discard (Build.encode (.symbol s))

end KnowledgeBase

end Clausal

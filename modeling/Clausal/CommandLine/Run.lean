import Clausal.CommandLine.Arguments
import Clausal.Dimacs.Reader
import Clausal.KnowledgeBase.Query
import Clausal.Text.Quoted

/-!
# Running the command line

The formula of a file is read, and its satisfiability or its models are reported in lines that start
with a letter: `c` for a comment, `v` for a model and `s` for the answer. The exit code is 10 for a
satisfiable formula and 20 for an unsatisfiable one.
-/

namespace Clausal.CommandLine

open Text

/-- What a run prints, and its exit code. -/
structure Result where
  exitCode : Nat
  lines : List String
  deriving DecidableEq

/-- The result of arguments that are not understood: nothing is printed. -/
def Result.usage : Result := ⟨2, []⟩

structure Invocation where
  path : String
  flags : List Flag
  config : Config

namespace Invocation

/-- Why a number is no value of an option. -/
def boundsMessage (s : Config.Setting Binary64) : String :=
  s.name ++ " requires a value between " ++ s.min.text ++ " and " ++ s.max.text

def setGiven (s : Config.Setting Binary64) (value? : Option Binary64) (c : Config) :
    Except String Config :=
  match value? with
  | none => .ok c
  | some value =>
    match s.set value c with
    | .ok c => .ok c
    | .error _ => .error (boundsMessage s)

/-- The configuration of some arguments, or why there is none. -/
def config? (platform : Platform) (a : Arguments) : Except String Config := do
  let defaults : Config := { platform := platform }
  let c := { defaults with
    procedure := a.procedure.getD defaults.procedure
    seed := a.seed.getD defaults.seed }
  let c ← setGiven .polarityChance a.polarityChance c
  let c ← setGiven .randomDecisionBias a.randomDecisionBias c
  return if .noPure ∈ a.flags then { c with pureLiterals := false } else c

/-- The invocation of some arguments, or the result if there is nothing to do. -/
def ofArgs (args : List String) (platform : Platform := .standard) : Except Result Invocation := do
  let some a := Arguments.addAll {} args | throw .usage
  let some path := a.path | throw .usage
  match config? platform a with
  | .error message => throw ⟨1, ["c " ++ message]⟩
  | .ok config => return ⟨path, a.flags, config⟩

/-- The model line: each boolean symbol, with a minus sign if it is false, in the order of the
atoms, and a zero. -/
def modelLine (kb : KnowledgeBase) (v : Valuation) : String :=
  let literals := (v.toList.zip kb.origins.toList).filterMap fun (value, origin) =>
    match origin with
    | .boolean s => some (if value then s.name else "-" ++ s.name)
    | _ => none
  "v " ++ String.intercalate " " (literals ++ ["0"])

/-- The answer, and the exit code that goes with it. -/
def answer : Report → Nat × String
  | .satisfiable => (10, "s SATISFIABLE")
  | .unsatisfiable => (20, "s UNSATISFIABLE")

/-- A result that ends with an answer. -/
def answered (lines : List String) (r : Report) : Result := ⟨(answer r).1, lines ++ [(answer r).2]⟩

/-- A result that ends with a failure to decide. -/
def undecided (lines : List String) (cause : Error) : Result :=
  ⟨2, lines ++ ["c Solve error: " ++ cause.message]⟩

/-- A result that ends where a sum leaves its word. -/
def overflowed (lines : List String) : Result := ⟨101, lines⟩

/-- Shows and counts the models, as far as is asked for. Each is counted before it is shown, so where
the count leaves its word the model there is not shown. Whether there was one is read off the
count. -/
def enumerate (i : Invocation) (kb : KnowledgeBase) : Result :=
  let (models, s) := kb.search.rest
  let modelLines := if .models ∈ i.flags then models.toList.map (modelLine kb) else []
  match i.config.platform.overflow.tally? models.size with
  | none => overflowed (modelLines.take greatestTally)
  | some tally =>
    if s.phase = .stalled then undecided modelLines .endlessDraw
    else
      let countLine := if .count ∈ i.flags then ["c " ++ toString tally ++ " models"] else []
      answered (modelLines ++ countLine) (if tally = 0 then .unsatisfiable else .satisfiable)

def countersLine (c : Counters) : String :=
  "c " ++ toString c.decisions ++ " decisions, " ++ toString c.propagations ++ " propagations, " ++
    toString c.conflicts ++ " conflicts, " ++ toString c.resolvents ++ " resolvents"

/-- Decides satisfiability, and shows a model if one is asked for. -/
def decide (i : Invocation) (kb : KnowledgeBase) : Result :=
  match kb.solve with
  | .error cause => undecided [] cause
  | .ok outcome =>
    let shown :=
      if outcome.report = .satisfiable ∧ .model ∈ i.flags then
        ((kb.search.next).1.map (modelLine kb)).toList
      else []
    answered (countersLine outcome.counters :: shown) outcome.report

def summaryLines (s : Dimacs.Summary) : List String :=
  (match s.problem with
    | some p =>
      ["c Expected " ++ toString p.atoms ++ " atoms and " ++ toString p.clauses ++ " clauses"]
    | none => []) ++
  ["c Read " ++ toString s.clauses ++ " clauses"]

/-- The result of an invocation, given the source of its file if it can be opened. -/
def result (i : Invocation) (source? : Option Source) : Result :=
  let opening := "c Reading DIMACS file from " ++ quote i.path
  match source? with
  | none => ⟨1, [opening, "c Failed to open CNF file"]⟩
  | some source =>
    match (KnowledgeBase.empty i.config).read (.empty 0) source with
    | (.error cause, _) => ⟨1, [opening, "c Parse error: " ++ cause.message]⟩
    | (.ok summary, _, kb) =>
      let rest :=
        if .models ∈ i.flags ∨ .count ∈ i.flags then i.enumerate kb else i.decide kb
      { rest with lines := opening :: summaryLines summary ++ rest.lines }

end Invocation

/-- Runs a command line in an environment that opens files. -/
def run (args : List String) (openFile : String → Option Source)
    (platform : Platform := .standard) : Result :=
  match Invocation.ofArgs args platform with
  | .error result => result
  | .ok i => i.result (openFile i.path)

end Clausal.CommandLine

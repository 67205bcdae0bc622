import Clausal.Binary64.Reading
import Clausal.Config

/-!
# Arguments

The command line names one file. Flags stand alone and options take a value, either after an equals
sign or as the next argument. Each may be given once, anywhere; after a double dash only the file is
left. A next argument that starts with a dash is no value.
-/

namespace Clausal.CommandLine

/-- What is printed of the models. -/
inductive Flag where
  | model
  | models
  | count
  | noPure
  deriving DecidableEq

def Flag.ofName? (name : String) : Option Flag :=
  if name = "model" then some .model
  else if name = "models" then some .models
  else if name = "count" then some .count
  else if name = "no-pure" then some .noPure
  else none

/-- What an option sets. -/
inductive OptionName where
  | procedure
  | seed
  | polarityChance
  | randomDecisionBias
  deriving DecidableEq

def OptionName.ofName? (name : String) : Option OptionName :=
  if name = "procedure" then some .procedure
  else if name = "seed" then some .seed
  else if name = "polarity-lean" then some .polarityChance
  else if name = "random-decision-bias" then some .randomDecisionBias
  else none

structure Arguments where
  path : Option String := none
  flags : List Flag := []
  procedure : Option Procedure := none
  seed : Option UInt64 := none
  polarityChance : Option Binary64 := none
  randomDecisionBias : Option Binary64 := none

namespace Arguments

/-- Adds a flag, unless it was given before. -/
def addFlag (a : Arguments) (flag : Flag) : Option Arguments :=
  if flag ∈ a.flags then none else some { a with flags := flag :: a.flags }

/-- Adds the file, unless one was given before. It has a name. -/
def addPath (a : Arguments) (path : String) : Option Arguments :=
  if a.path.isSome || path.isEmpty then none else some { a with path := some path }

/-- Adds an option, unless it was given before or has a value that cannot be read. -/
def addOption (a : Arguments) (option : OptionName) (value : String) : Option Arguments :=
  match option with
  | .procedure =>
    if a.procedure.isSome then none
    else (Procedure.ofText? value).map fun p => { a with procedure := some p }
  | .seed =>
    if a.seed.isSome then none
    else (Text.count? value.toList).map fun n => { a with seed := some (UInt64.ofNat n) }
  | .polarityChance =>
    if a.polarityChance.isSome then none
    else (Binary64.ofText? value.toList).map fun x => { a with polarityChance := some x }
  | .randomDecisionBias =>
    if a.randomDecisionBias.isSome then none
    else (Binary64.ofText? value.toList).map fun x => { a with randomDecisionBias := some x }

/-- What an argument is by its form. -/
inductive Form where
  | separator
  /-- A name after a double dash, with what stands after the first equals sign if there is one. -/
  | long (name : String) (value : Option String)
  /-- A name after a single dash. -/
  | short
  /-- The name of a file, which a single dash is too. -/
  | path (name : String)

def Form.ofText (arg : String) : Form :=
  match arg.toList with
  | ['-', '-'] => .separator
  | '-' :: '-' :: rest =>
    let name := String.ofList (rest.takeWhile (· != '='))
    match rest.dropWhile (· != '=') with
    | [] => .long name none
    | _ :: value => .long name (some (String.ofList value))
  | '-' :: _ :: _ => .short
  | _ => .path arg

/-- Whether an argument can be the value of the option before it. -/
def isValue (arg : String) : Bool := arg.toList.head? != some '-'

def addPaths (a : Arguments) (args : List String) : Option Arguments := args.foldlM addPath a

def addAll (a : Arguments) : List String → Option Arguments
  | [] => some a
  | arg :: rest =>
    match Form.ofText arg with
    | .separator => a.addPaths rest
    | .short => none
    | .path path => do (← a.addPath path).addAll rest
    | .long name value? =>
      match Flag.ofName? name, OptionName.ofName? name, value? with
      | some flag, _, none => do (← a.addFlag flag).addAll rest
      | none, some option, some value => do (← a.addOption option value).addAll rest
      | none, some option, none =>
        match rest with
        | value :: rest =>
          if isValue value then do (← a.addOption option value).addAll rest else none
        | [] => none
      | _, _, _ => none
  termination_by args => args.length

end Arguments

end Clausal.CommandLine

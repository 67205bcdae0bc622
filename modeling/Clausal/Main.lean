import Clausal.CommandLine.Run

/-!
# The program

Reads the file that the command line names, prints the lines of the run and exits with its code.
-/

open Clausal

/-- The source of an open file. A directory can be opened, but not read. -/
def sourceOf (file : IO.FS.Handle) : IO Text.Source := do
  try
    return .ofBytes (← file.readBinToEnd).toList
  catch _ => return .unreadable

/-- The source of the file of a name, if it can be opened. -/
def openFile (path : String) : IO (Option Text.Source) := do
  try
    return some (← sourceOf (← IO.FS.Handle.mk path .read))
  catch _ => return none

def main (args : List String) : IO UInt32 := do
  let result ←
    match CommandLine.Invocation.ofArgs args with
    | .error result => pure result
    | .ok i => do pure (i.result (← openFile i.path))
  for line in result.lines do
    IO.println line
  return UInt32.ofNat result.exitCode

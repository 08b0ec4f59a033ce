import Wiring.CommandLine

/-!
# The program

Files, standard output and exit code of the command line.
-/

namespace Wiring

/-- The files of the system, with a remark on each action if that is wanted. -/
def systemFiles (verbose : Bool) : FileActions IO where
  read path := do
    if verbose then IO.eprintln ("Reading " ++ path)
    try
      return some (← IO.FS.readFile path)
    catch _ =>
      return none
  write path text := do
    if verbose then IO.eprintln ("Writing " ++ path)
    try
      IO.FS.writeFile path text
      return true
    catch _ =>
      return false

/-- Whether the request is for a run that tells what it does. -/
def Request.isVerbose : Request → Bool
  | .run invocation => invocation.verbose
  | _ => false

end Wiring

open Wiring in
/-- Do what the arguments ask for. -/
def main (arguments : List String) : IO UInt32 := do
  let request := Request.ofArguments arguments
  let outcome ← request.perform (systemFiles request.isVerbose)
  IO.print outcome.output
  if let some message := outcome.error then
    IO.eprintln ("Error: " ++ message)
  return outcome.exitCode

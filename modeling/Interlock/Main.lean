import Interlock.Bench.CommandLine

/-!
Command line: judges the words and prints the steps of the command, or why there are none.
-/

namespace Interlock.Bench.CommandLine

def usage : String := "usage: bench [--quick] [--report-only] [--tracing]"

def Step.describe : Step → String
  | measure quick tracing =>
    let haste := if quick then ", in little time" else ""
    "measure" ++ haste ++ (if tracing then ", with tracing" else "")
  | report => "write the report"

def Refusal.describe : Refusal → String
  | helpWanted => usage
  | commandMissing => "no command"
  | unknownCommand => "unknown command"
  | unknownOption => "unknown option"
  | unexpectedValue => "this option takes no value"
  | repeatedOption => "this option stands twice"

end Interlock.Bench.CommandLine

open Interlock.Bench.CommandLine in
/-- Prints the steps of the command, and fails unless there are some or help was asked for. -/
def main (words : List String) : IO UInt32 := do
  match parse words with
  | .ok options =>
    for step in options.steps do
      IO.println step.describe
    return 0
  | .error .helpWanted =>
    IO.println Refusal.helpWanted.describe
    return 0
  | .error refusal =>
    IO.eprintln refusal.describe
    return 2

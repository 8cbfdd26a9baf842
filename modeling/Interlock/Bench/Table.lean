import Interlock.Bench.Results
import Interlock.Decimal.Fixed

/-!
# The table of a report

The table has a row for each function of each group, with its mean and how much faster it is than
the baseline of its group: the first function whose name has the baseline's mark.
-/

namespace Interlock.Bench

/-- A number with two decimal places. -/
def hundredths (x : Float) : String :=
  Decimal.fixed 2 (Decimal.ofFloat x)

/-- A time in nanoseconds, in the largest unit of which it has at least one. -/
def duration (nanoseconds : Float) : String :=
  if nanoseconds ≥ 1e9 then hundredths (nanoseconds / 1e9) ++ " s"
  else if nanoseconds ≥ 1e6 then hundredths (nanoseconds / 1e6) ++ " ms"
  else if nanoseconds ≥ 1e3 then hundredths (nanoseconds / 1e3) ++ " µs"
  else Decimal.fixed 0 (Decimal.ofFloat nanoseconds) ++ " ns"

/-- How the names of baseline functions begin. -/
def baselineMark : List Char := ['s', 't', 'd', '_']

/-- The mean of the first baseline function of a group. -/
def baseline? (functions : Index Float) : Option Float :=
  (functions.find? fun (name, _) => baselineMark.isPrefixOf name.toList).map (·.2)

/-- How many times a mean goes into the baseline. There is no answer without a baseline or for a
mean that is not positive. -/
def speedup (baseline : Option Float) (mean : Float) : String :=
  match baseline with
  | some base => if mean > 0 then "**" ++ hundredths (base / mean) ++ "x**" else "-"
  | none => "-"

def row (group : String) (baseline : Option Float) (function : String) (mean : Float) : String :=
  "| " ++ group ++ " | " ++ function ++ " | " ++ duration mean ++ " | " ++
    speedup baseline mean ++ " |"

def groupRows (group : String) (functions : Index Float) : List String :=
  functions.map fun (function, mean) => row group (baseline? functions) function mean

def rows (results : Results) : List String :=
  results.flatMap fun (group, functions) => groupRows group functions

def heading : List String :=
  ["# synchro vs std", "", "| Group | Function | Mean | Speedup vs std |", "|---|---|---|---|"]

/-- The report on results. Every line is ended. -/
def table (results : Results) : String :=
  String.join ((heading ++ rows results).map (· ++ "\n"))

end Interlock.Bench

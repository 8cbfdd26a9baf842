import Interlock.Bench.Estimates
import Interlock.Bench.Folder
import Interlock.Bench.Table

/-!
# Reports

A report is made from the estimates of all functions, each in a file of its own two folders below
the folder of measurements. First all estimates are collected, then the report's folder and file are
made, then the table is written. A failure ends the work at once and leaves the tree as it is then.
-/

namespace Interlock.Bench

/-- Why no report was made. -/
inductive Failure where
  | notAFolder
  | unreadableFolder (path : String)
  | unreadableText (path : String)
  /-- An estimates file is not an estimates document. -/
  | unparsable (path : String) (problem : Json.Problem)
  | folderOccupied
  | fileOccupied
  deriving DecidableEq, Repr

/-- What was being done when the failure came. -/
def Failure.context : Failure → Option String
  | unreadableFolder path | unreadableText path => some ("reading " ++ path)
  | unparsable path _ => some ("parsing " ++ path)
  | _ => none

/-- A task that may change a tree and may fail. The changes before a failure stay. -/
abbrev Task (α : Type) := ExceptT Failure (StateM Node) α

/-- The names on a path of plain text. -/
def path (names : List String) : List Name :=
  names.map Text.toBytes

def measuredPath : List Name := path ["target", "criterion"]

def reportFolder : List Name := path ["benchmark_results"]

def reportPath : List Name := path ["benchmark_results", "report.md"]

/-- Where the estimates of a function are, from the function's folder. -/
def estimatesPath : List Name := path ["new", "estimates.json"]

/-- The name of groups and functions that are not considered. -/
def excluded : String := "report"

/-- The path of an estimates file as it is shown. -/
def shownPath (group function : Name) : String :=
  "/".intercalate ((measuredPath ++ [group, function] ++ estimatesPath).map Text.shown)

/-- Read the mean from an estimates file. -/
def readMean (path : String) : Node → Except Failure Float
  | .folder _ => .error (.unreadableFolder path)
  | .file contents =>
    match Text.ofBytes? contents with
    | none => .error (.unreadableText path)
    | some text => (estimates.ofText text).mapError (.unparsable path)

/-- Add the mean of a function, if it is considered and has estimates. -/
def collectFunction (group : Name) (results : Results) (entry : Name × Node) :
    Except Failure Results :=
  let (function, node) := entry
  if Text.shown function = excluded then .ok results
  else match node.at? estimatesPath with
    | none => .ok results
    | some file => do
      let mean ← readMean (shownPath group function) file
      return results.record (Text.shown group) (Text.shown function) mean

/-- Add the means of a group, if it is considered. -/
def collectGroup (results : Results) (entry : Name × Node) : Except Failure Results :=
  let (group, node) := entry
  if Text.shown group = excluded then .ok results
  else match node with
    | .file _ => .ok results
    | .folder functions => functions.foldlM (collectFunction group) results

def collect : Node → Except Failure Results
  | .file _ => .error .notAFolder
  | .folder groups => groups.foldlM collectGroup []

/-- Make the report's folder unless it is there. -/
def makeFolder : Task Unit := do
  let root ← get
  match root.at? reportFolder with
  | some (.folder _) => return ()
  | some (.file _) => throw .folderOccupied
  | none => set ((Node.put (.folder []) reportFolder root).getD root)

/-- Make the report's file, or empty it. -/
def makeFile : Task Unit := do
  let root ← get
  match root.at? reportPath with
  | some (.folder _) => throw .fileOccupied
  | _ => set ((Node.put (.file []) reportPath root).getD root)

/-- Append a line to the report's file. -/
def writeLine (line : String) : Task Unit := do
  let root ← get
  match root.at? reportPath with
  | some (.file contents) =>
    let longer := contents ++ Text.toBytes (line ++ "\n")
    set ((Node.put (.file longer) reportPath root).getD root)
  | _ => return ()

/-- Make the report. Without a folder of measurements there is nothing to report, and the
answer is false. -/
def generate : Task Bool := do
  match (← get).at? measuredPath with
  | none => return false
  | some measured =>
    match collect measured with
    | .error failure => throw failure
    | .ok results =>
      makeFolder
      makeFile
      (heading ++ rows results).forM writeLine
      return true

/-- The contents of the report's file. -/
def writtenReport (root : Node) : Option String :=
  match root.at? reportPath with
  | some (.file contents) => Text.ofBytes? contents
  | _ => none

end Interlock.Bench

import Interlock.Text.Quoted

/-!
# Diagnostic texts

The diagnostic form of a value is a tree of named groups. It has two layouts: `compact` puts
everything on one line, `pretty` gives each item of a group lines of its own, indented by four
spaces and ended by a comma.
-/

namespace Interlock.Text

/-- The diagnostic form of a value. -/
inductive Diagnostic where
  | leaf (text : String)
  | labelled (label : String) (item : Diagnostic)
  /-- Items between two brackets. `inner` separates the brackets from the items on one line, and
  `more` tells that the group has items that are not shown. -/
  | group (opening closing inner : String) (items : List Diagnostic) (more : Bool)
  deriving Repr

namespace Diagnostic

/-- A name with its components in parentheses. -/
def tuple (name : String) (items : List Diagnostic) : Diagnostic :=
  .group (name ++ "(") ")" "" items false

def sequence (items : List Diagnostic) : Diagnostic :=
  .group "[" "]" "" items false

def mapping (entries : List (String × Diagnostic)) : Diagnostic :=
  .group "\x7b" "\x7d" "" (entries.map fun (name, item) => .labelled (quoted name) item) false

/-- A name with its labelled parts in braces. -/
def parts (name : String) (entries : List (String × Diagnostic)) (more : Bool := false) :
    Diagnostic :=
  .group (name ++ " \x7b") "\x7d" " " (entries.map fun (label, item) => .labelled label item) more

def optional : Option Diagnostic → Diagnostic
  | none => .leaf "None"
  | some item => .tuple "Some" [item]

/-- The items of a group that is not shown in full end with two dots. -/
def withDots (more : Bool) (items : List String) : List String :=
  if more then items ++ [".."] else items

mutual

def compact : Diagnostic → String
  | leaf text => text
  | labelled label item => label ++ ": " ++ item.compact
  | group opening closing inner items more =>
    match withDots more (compactAll items) with
    | [] => opening ++ closing
    | shown => opening ++ inner ++ ", ".intercalate shown ++ inner ++ closing

/-- The one-line layouts of a list. -/
def compactAll : List Diagnostic → List String
  | [] => []
  | item :: rest => item.compact :: compactAll rest

end

/-- Put a text before the first line. -/
def beforeFirst (text : String) : List String → List String
  | [] => [text]
  | line :: rest => (text ++ line) :: rest

/-- Put a text after the last line. -/
def afterLast (text : String) : List String → List String
  | [] => []
  | [line] => [line ++ text]
  | line :: rest => line :: afterLast text rest

mutual

/-- The lines of the layout with one item per line. -/
def lines : Diagnostic → List String
  | leaf text => [text]
  | labelled label item => beforeFirst (label ++ ": ") item.lines
  | group opening closing _ items more =>
    match linesAll items ++ (if more then [".."] else []) with
    | [] => [opening ++ closing]
    | inside => opening :: inside.map ("    " ++ ·) ++ [closing]

/-- The lines of a list of items, each ended by a comma. -/
def linesAll : List Diagnostic → List String
  | [] => []
  | item :: rest => afterLast "," item.lines ++ linesAll rest

end

/-- The layout with one item per line. -/
def pretty (d : Diagnostic) : String :=
  "\n".intercalate d.lines

example : (tuple "Cell" [sequence [.leaf "1", .leaf "2"]]).compact = "Cell([1, 2])" := by cbv

example : (tuple "Cell" [.leaf "5"]).pretty = "Cell(\n    5,\n)" := by cbv

end Diagnostic

end Interlock.Text

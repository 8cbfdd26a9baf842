import Interlock.Json.Token
import Interlock.Text.Quoted

/-!
# Records with one field

A record is written as a mapping, in which the field may stand anywhere once and all other names
are passed over, or as a sequence of at most one value. A reader consumes the tokens of one value.
The first problem in reading order is the one that is reported.
-/

namespace Interlock.Json

/-- Reads a value from the front of a list of tokens. -/
abbrev Reader (α : Type) := List Token → Except Problem (α × List Token)

/-! ## Values that do not fit -/

/-- The kind of value that begins with a token, if it is one that can be named. -/
def Token.describe : Token → Except Problem String
  | null => .ok "null"
  | truth value => .ok ("boolean `" ++ toString value ++ "`")
  | number n =>
    match n.quantity with
    | some quantity => .ok quantity.describe
    | none => .error .malformed
  | text (some contents) => .ok ("string " ++ Text.quoted contents)
  | openBracket => .ok "sequence"
  | openBrace => .ok "map"
  | broken read _ | brokenText read _ => .error read
  | _ => .error .malformed

/-- The problem of tokens that do not begin with a value of the expected kind. -/
def mistyped (expected : String) : List Token → Problem
  | [] => .truncated
  | token :: _ =>
    match token.describe with
    | .ok found => .unfit ("invalid type: " ++ found ++ ", expected " ++ expected)
    | .error problem => problem

/-- Reads an integer of 32 bits without sign. -/
def readUInt32 : Reader UInt32 := fun tokens =>
  let tooLarge (quantity : Quantity) : Problem :=
    .unfit ("invalid value: " ++ quantity.describe ++ ", expected u32")
  match tokens with
  | .number n :: rest =>
    match n.quantity with
    | some (.unsigned k) =>
      if k < UInt32.size then .ok (UInt32.ofNat k, rest) else .error (tooLarge (.unsigned k))
    | some (.signed k) => .error (tooLarge (.signed k))
    | _ => .error (mistyped "u32" tokens)
  | _ => .error (mistyped "u32" tokens)

def readFloat : Reader Float := fun tokens =>
  match tokens with
  | .number n :: rest =>
    match n.quantity with
    | some quantity => .ok (quantity.toFloat, rest)
    | none => .error .malformed
  | _ => .error (mistyped "f64" tokens)

/-! ## Passing over -/

/-- What has to come next while a value is passed over. -/
inductive Awaiting where
  | value
  /-- The first value of a sequence, or its end. -/
  | firstValue
  | name
  /-- The first name of a mapping, or its end. -/
  | firstName
  | colon
  | next
  deriving DecidableEq, Repr

/-- What is open around a value. -/
inductive Bracket where
  | sequence
  | mapping
  deriving DecidableEq, Repr

/-- Where passing over a value stands: the open brackets, the innermost first, and what has to come
next. The value is complete once nothing is open and a comma or an end has to come. -/
abbrev Skipping := List Bracket × Awaiting

def beginValue (opened : List Bracket) : Token → Except Problem Skipping
  | .null | .truth _ | .number _ | .text _ => .ok (opened, .next)
  | .openBracket => .ok (.sequence :: opened, .firstValue)
  | .openBrace => .ok (.mapping :: opened, .firstName)
  | .broken _ skipped | .brokenText _ skipped => .error skipped
  | _ => .error .malformed

def beginItem (opened : List Bracket) : Token → Except Problem Skipping
  | .text _ => .ok (opened, .colon)
  | .brokenText _ skipped => .error skipped
  | _ => .error .malformed

def afterValue : List Bracket → Token → Except Problem Skipping
  | .sequence :: opened, .comma => .ok (.sequence :: opened, .value)
  | .mapping :: opened, .comma => .ok (.mapping :: opened, .name)
  | .sequence :: opened, .closeBracket => .ok (opened, .next)
  | .mapping :: opened, .closeBrace => .ok (opened, .next)
  | _, _ => .error .malformed

def Awaiting.advance (opened : List Bracket) (token : Token) : Awaiting → Except Problem Skipping
  | value => beginValue opened token
  | firstValue =>
    if token = .closeBracket then .ok (opened.tail, .next) else beginValue opened token
  | name => beginItem opened token
  | firstName => if token = .closeBrace then .ok (opened.tail, .next) else beginItem opened token
  | colon => if token = .colon then .ok (opened, .value) else .error .malformed
  | next => afterValue opened token

/-- Pass over tokens until the value is complete. -/
def skipFrom (opened : List Bracket) (awaiting : Awaiting) :
    List Token → Except Problem (List Token)
  | [] => .error .truncated
  | token :: rest =>
    match awaiting.advance opened token with
    | .error problem => .error problem
    | .ok ([], .next) => .ok rest
    | .ok (opened, awaiting) => skipFrom opened awaiting rest

def skip (tokens : List Token) : Except Problem (List Token) :=
  skipFrom [] .value tokens

/-! ## Records -/

/-- A record with one field. -/
structure Record (α : Type) where
  name : String
  field : String
  item : Reader α
  /-- The value of a field that is missing, if it may be missing. -/
  absent : Option α

namespace Record

variable {α : Type}

/-- How the record is called in reasons. -/
def title (r : Record α) : String :=
  "struct " ++ r.name

/-- Pass over the colon after a name. -/
def afterColon : List Token → Except Problem (List Token)
  | [] => .error .truncated
  | .colon :: rest => .ok rest
  | _ => .error .malformed

/-- The value of a mapping that has ended. -/
def ofMapping (r : Record α) (found : Option α) : Except Problem α :=
  match found.or r.absent with
  | some a => .ok a
  | none => .error (.unfit ("missing field `" ++ r.field ++ "`"))

/-- The item of a mapping after its name: the field's value if it is that of the field. -/
def readItem (r : Record α) (found : Option α) (name : String) (tokens : List Token) :
    Except Problem (Option α × List Token) :=
  if name = r.field then
    if found.isSome then .error (.unfit ("duplicate field `" ++ r.field ++ "`"))
    else do
      let (a, rest) ← r.item (← afterColon tokens)
      return (some a, rest)
  else do return (found, ← skip (← afterColon tokens))

/-- The rest of a mapping, of at most `fuel` items. `found` is the field's value if it has been
read, and `first` tells that no item has. -/
def readItems (r : Record α) (found : Option α) (first : Bool) : Nat → Reader α
  | 0, _ => .error .truncated
  | fuel + 1, tokens =>
    let named : List Token → Except Problem (α × List Token)
      | [] => .error .truncated
      | .text (some name) :: rest => do
        let (found, rest) ← r.readItem found name rest
        r.readItems found false fuel rest
      | .brokenText read _ :: _ => .error read
      | _ => .error .malformed
    match tokens with
    | [] => .error .truncated
    | .closeBrace :: rest => do return (← r.ofMapping found, rest)
    | .comma :: rest => if first then .error .malformed else named rest
    | tokens => if first then named tokens else .error .malformed

def readSequence (r : Record α) : Reader α := fun tokens =>
  match tokens with
  | [] => .error .truncated
  | .closeBracket :: rest =>
    match r.absent with
    | some a => .ok (a, rest)
    | none => .error (.unfit ("invalid length 0, expected " ++ r.title ++ " with 1 element"))
  | tokens => do
    let (a, rest) ← r.item tokens
    match rest with
    | [] => .error .truncated
    | .closeBracket :: rest => return (a, rest)
    | _ => .error .malformed

def read (r : Record α) : Reader α := fun tokens =>
  match tokens with
  | .openBracket :: rest => r.readSequence rest
  | .openBrace :: rest => r.readItems none true (rest.length + 1) rest
  | tokens => .error (mistyped r.title tokens)

/-- Reads a text that holds the record and nothing else. -/
def ofText (r : Record α) (text : String) : Except Problem α := do
  let (a, rest) ← r.read (tokens text)
  if rest.isEmpty then return a else throw .malformed

end Record

end Interlock.Json

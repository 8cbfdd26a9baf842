import Interlock.Json.Number

/-!
# Tokens of JSON

A text is cut into tokens from the left. Where it breaks a rule of a token the list ends with a
broken token, which tells what is wrong; whoever reads the tokens meets it only if everything
before it was in order.

A value that is read and one that is passed over are held to different rules: the surrogates of a
text have to be paired only if it is read, and a number that ends too early is a matter of the
end of the text only if it is read. So a text token has its contents only if they are sound, and a
broken token has two problems.
-/

namespace Interlock.Json

/-- Why a text was refused. -/
inductive Problem where
  | truncated
  /-- The text breaks the grammar, or a number is out of range. -/
  | malformed
  /-- The text is well formed up to a value that does not fit. -/
  | unfit (reason : String)
  deriving DecidableEq, Repr

/-- A token. -/
inductive Token where
  | openBracket
  | closeBracket
  | openBrace
  | closeBrace
  | comma
  | colon
  | null
  | truth (value : Bool)
  | number (number : Number)
  /-- A text; its contents, if all surrogates are paired. -/
  | text (contents : Option String)
  | brokenText (read skipped : Problem)
  | broken (read skipped : Problem)
  deriving DecidableEq, Repr

/-- Whether the character may stand between tokens. -/
def isBlank (c : Char) : Bool :=
  c = ' ' || c = '\n' || c = '\t' || c = '\r'

/-! ## Texts -/

/-- What the escapes of a text have come to. -/
inductive Surrogates where
  | paired
  /-- The last escape was the first half of a pair. -/
  | half (unit : Nat)
  | lone
  deriving DecidableEq, Repr

namespace Surrogates

/-- A character that is no escaped unit comes next. -/
def interrupted : Surrogates → Surrogates
  | paired => paired
  | _ => lone

/-- An escaped unit comes next: the state after it, and the character that is now complete. -/
def extended : Surrogates → Nat → Surrogates × List Char
  | paired, unit =>
    if 0xd800 ≤ unit ∧ unit < 0xdc00 then (half unit, [])
    else if 0xdc00 ≤ unit ∧ unit < 0xe000 then (lone, [])
    else (paired, [Char.ofNat unit])
  | half first, unit =>
    if 0xdc00 ≤ unit ∧ unit < 0xe000 then
      (paired, [Char.ofNat (0x10000 + (first - 0xd800) * 0x400 + (unit - 0xdc00))])
    else (lone, [])
  | lone, _ => (lone, [])

end Surrogates

/-- The character that a letter after a backslash stands for. -/
def unescaped : Char → Option Char
  | '"' => some '"'
  | '\\' => some '\\'
  | '/' => some '/'
  | 'b' => some '\x08'
  | 'f' => some '\x0c'
  | 'n' => some '\n'
  | 'r' => some '\r'
  | 't' => some '\t'
  | _ => none

/-- The value of a hexadecimal digit of either case. -/
def hexValue (c : Char) : Option Nat :=
  if '0' ≤ c ∧ c ≤ '9' then some (c.toNat - '0'.toNat)
  else if 'a' ≤ c ∧ c ≤ 'f' then some (c.toNat - 'a'.toNat + 10)
  else if 'A' ≤ c ∧ c ≤ 'F' then some (c.toNat - 'A'.toNat + 10)
  else none

/-- The number of four hexadecimal digits. -/
def hexUnit (a b c d : Char) : Option Nat := do
  return (((← hexValue a) * 16 + (← hexValue b)) * 16 + (← hexValue c)) * 16 + (← hexValue d)

/-- The number of bytes that a list of characters takes. -/
def byteLength (cs : List Char) : Nat :=
  cs.foldl (fun bytes c => bytes + c.utf8Size) 0

/-- The problem of a text, given the state of its surrogates: reading stops at the first problem. -/
def brokenAt (surrogates : Surrogates) (problem : Problem) : Token :=
  .brokenText (if surrogates = .lone then .malformed else problem) problem

/-- The text after its opening quote, and what follows its closing quote. `done` holds the
characters so far in reverse. -/
def scanText (surrogates : Surrogates) (done : List Char) : List Char → Token × List Char
  | [] => (brokenAt surrogates .truncated, [])
  | '"' :: rest =>
    if surrogates = .paired then (.text (some (String.ofList done.reverse)), rest)
    else (.text none, rest)
  | '\\' :: 'u' :: a :: b :: c :: d :: rest =>
    match hexUnit a b c d with
    | some unit =>
      let (surrogates, complete) := surrogates.extended unit
      scanText surrogates (complete ++ done) rest
    | none => (brokenAt surrogates .malformed, [])
  | '\\' :: 'u' :: rest =>
    (brokenAt surrogates (if byteLength rest < 4 then .truncated else .malformed), [])
  | '\\' :: c :: rest =>
    match unescaped c with
    | some c => scanText surrogates.interrupted (c :: done) rest
    | none => (brokenAt surrogates .malformed, [])
  | ['\\'] => (brokenAt surrogates .truncated, [])
  | c :: rest =>
    if c < ' ' then (brokenAt surrogates .malformed, [])
    else scanText surrogates.interrupted (c :: done) rest

/-! ## Numbers -/

/-- The digits at the front, and what follows them. -/
def scanDigits (cs : List Char) : List Nat × List Char :=
  ((cs.takeWhile Char.isDigit).map fun c => c.toNat - '0'.toNat, cs.dropWhile Char.isDigit)

/-- The problem of a number that misses a digit before the given characters. -/
def missingDigit (rest : List Char) : Token × List Char :=
  (.broken (if rest.isEmpty then .truncated else .malformed) .malformed, [])

/-- Go on after the digits at the front, of which there has to be one. -/
def afterDigits (next : List Nat → List Char → Token × List Char) (cs : List Char) :
    Token × List Char :=
  match scanDigits cs with
  | ([], rest) => missingDigit rest
  | (digits, rest) => next digits rest

/-- The exponent of a number, if there is one, and what follows the number. -/
def scanExponent (negative : Bool) (whole fraction : List Nat) (cs : List Char) :
    Token × List Char :=
  let signed (below : Bool) : List Char → Token × List Char :=
    afterDigits fun digits rest =>
      (.number ⟨negative, whole, fraction, some (below, digits)⟩, rest)
  match cs with
  | 'e' :: '-' :: rest | 'E' :: '-' :: rest => signed true rest
  | 'e' :: '+' :: rest | 'E' :: '+' :: rest => signed false rest
  | 'e' :: rest | 'E' :: rest => signed false rest
  | rest => (.number ⟨negative, whole, fraction, none⟩, rest)

/-- The number after its sign and the digits before the point, and what follows it. -/
def scanFraction (negative : Bool) (whole : List Nat) (cs : List Char) : Token × List Char :=
  match cs with
  | '.' :: rest => afterDigits (scanExponent negative whole) rest
  | rest => scanExponent negative whole [] rest

/-- The number after its sign, and what follows it. No digit may follow a leading zero. -/
def scanNumber (negative : Bool) : List Char → Token × List Char :=
  afterDigits fun
    | 0 :: _ :: _, _ => (.broken .malformed .malformed, [])
    | whole, rest => scanFraction negative whole rest

/-! ## Words -/

/-- The rest of a word, and what follows it. -/
def scanWord (token : Token) : List Char → List Char → Token × List Char
  | [], rest => (token, rest)
  | _ :: _, [] => (.broken .truncated .truncated, [])
  | expected :: word, c :: rest =>
    if c = expected then scanWord token word rest else (.broken .malformed .malformed, [])

/-- The token that begins with the character `c`, and what follows it. -/
def scanToken (c : Char) (rest : List Char) : Token × List Char :=
  match c with
  | '[' => (.openBracket, rest)
  | ']' => (.closeBracket, rest)
  | '{' => (.openBrace, rest)
  | '}' => (.closeBrace, rest)
  | ',' => (.comma, rest)
  | ':' => (.colon, rest)
  | '"' => scanText .paired [] rest
  | '-' => scanNumber true rest
  | 'n' => scanWord .null ['u', 'l', 'l'] rest
  | 't' => scanWord (.truth true) ['r', 'u', 'e'] rest
  | 'f' => scanWord (.truth false) ['a', 'l', 's', 'e'] rest
  | c => if c.isDigit then scanNumber false (c :: rest) else (.broken .malformed .malformed, [])

/-- The tokens of a text, in at most `fuel` steps. -/
def tokensWithin : Nat → List Char → List Token
  | 0, _ => []
  | _, [] => []
  | fuel + 1, c :: rest =>
    if isBlank c then tokensWithin fuel rest
    else
      let (token, rest) := scanToken c rest
      token :: tokensWithin fuel rest

/-- The tokens of a text. Each takes at least one character. -/
def tokens (text : String) : List Token :=
  tokensWithin text.toList.length text.toList

end Interlock.Json

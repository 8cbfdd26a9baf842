/-!
# Bytes as text

A list of bytes is cut into characters by the UTF-8 rules. What fits no rule is an invalid part:
the longest start of a character that is not continued, or a byte that starts none. Strict reading
refuses a list with an invalid part, and showing puts a replacement character for each.

The cut is made byte by byte: a character in progress is the value of its bits so far and the
ranges in which its further bytes have to lie.
-/

namespace Interlock.Text

/-- A character in progress: the value of its bits so far, the range of its next byte, and the
ranges of the bytes after that. -/
structure Partial where
  bits : Nat
  next : Nat × Nat
  /-- The least and the greatest of each byte after the next. -/
  later : List (Nat × Nat)
  deriving Repr, DecidableEq

/-- The range of most bytes after the first. -/
def follower : Nat × Nat := (0x80, 0xbf)

/-- The character that begins with a byte, and whether it is complete: the first part is what the
byte adds to the text, an invalid part being `none`. -/
def beginCharacter (byte : Nat) : List (Option Char) × Option Partial :=
  if byte < 0x80 then ([some (Char.ofNat byte)], none)
  else if byte < 0xc2 then ([none], none)
  else if byte < 0xe0 then ([], some ⟨byte % 0x20, follower, []⟩)
  else if byte = 0xe0 then ([], some ⟨0, (0xa0, 0xbf), [follower]⟩)
  else if byte = 0xed then ([], some ⟨0x0d, (0x80, 0x9f), [follower]⟩)
  else if byte < 0xf0 then ([], some ⟨byte % 0x10, follower, [follower]⟩)
  else if byte = 0xf0 then ([], some ⟨0, (0x90, 0xbf), [follower, follower]⟩)
  else if byte < 0xf4 then ([], some ⟨byte % 0x08, follower, [follower, follower]⟩)
  else if byte = 0xf4 then ([], some ⟨4, (0x80, 0x8f), [follower, follower]⟩)
  else ([none], none)

/-- What a byte adds to the text, and the character in progress after it. -/
def readByte (current : Option Partial) (byte : Nat) : List (Option Char) × Option Partial :=
  match current with
  | none => beginCharacter byte
  | some c =>
    if c.next.1 ≤ byte ∧ byte ≤ c.next.2 then
      let bits := c.bits * 0x40 + byte % 0x40
      match c.later with
      | [] => ([some (Char.ofNat bits)], none)
      | next :: later => ([], some ⟨bits, next, later⟩)
    else
      let (parts, started) := beginCharacter byte
      (none :: parts, started)

/-- The characters and invalid parts of a list of bytes, after a character in progress. -/
def partsFrom (current : Option Partial) : List UInt8 → List (Option Char)
  | [] => if current.isSome then [none] else []
  | byte :: rest =>
    let (parts, current) := readByte current byte.toNat
    parts ++ partsFrom current rest

/-- The text of a list of bytes, if it has no invalid part. -/
def ofBytes? (bytes : List UInt8) : Option String :=
  ((partsFrom none bytes).mapM id).map String.ofList

/-- The text of a list of bytes, with a replacement character for each invalid part. -/
def shown (bytes : List UInt8) : String :=
  String.ofList ((partsFrom none bytes).map (·.getD '\ufffd'))

def toBytes (text : String) : List UInt8 :=
  text.toUTF8.data.toList

example : partsFrom none [0xf0, 0x9f, 0x41] = [none, some 'A'] := by decide

example : partsFrom none [0xc3, 0xa9, 0xed, 0xa0] = [some 'é', none, none] := by decide

end Interlock.Text

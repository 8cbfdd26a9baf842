import Interlock.Text.Unprintable

/-!
# Quoted text

A text or a character inside a diagnostic is quoted: a backslash stands before the quote in use and
before a backslash, the common controls have a letter, and every other unprintable character is
written by its number in braces.
-/

namespace Interlock.Text

/-- A number in lower-case hexadecimal without leading zeros. -/
def hexadecimal (n : Nat) : List Char :=
  Nat.toDigits 16 n

/-- The character as it stands between quotes of the given kind. -/
def escaped (quote : Char) (c : Char) : List Char :=
  if c = quote ∨ c = '\\' then ['\\', c]
  else if c = '\n' then ['\\', 'n']
  else if c = '\r' then ['\\', 'r']
  else if c = '\t' then ['\\', 't']
  else if c = '\x00' then ['\\', '0']
  else if isUnprintable c then ['\\', 'u', '\x7b'] ++ hexadecimal c.toNat ++ ['\x7d']
  else [c]

def quoted (text : String) : String :=
  String.ofList ('"' :: text.toList.flatMap (escaped '"') ++ ['"'])

/-- A character between single quotes. -/
def quotedChar (c : Char) : String :=
  String.ofList ('\'' :: escaped '\'' c ++ ['\''])

end Interlock.Text

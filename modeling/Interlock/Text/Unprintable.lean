/-!
# Characters that are shown by number

A diagnostic text shows most characters as they are. The exceptions are characters with no visible
form of their own (controls, formats, separators other than the space, private and unassigned
code points) and the marks that attach to the character before them.
-/

namespace Interlock.Text

/-- Controls, formats, separators other than the space, and private or unassigned blocks. -/
def invisibleRanges : List (Nat × Nat) :=
  [(0x00, 0x1f), (0x7f, 0xa0), (0xad, 0xad), (0x600, 0x605), (0x61c, 0x61c), (0x6dd, 0x6dd),
   (0x70f, 0x70f), (0x890, 0x891), (0x8e2, 0x8e2), (0x1680, 0x1680), (0x180e, 0x180e),
   (0x2000, 0x200f), (0x2028, 0x202f), (0x205f, 0x206f), (0x3000, 0x3000), (0xd800, 0xf8ff),
   (0xfdd0, 0xfdef), (0xfeff, 0xfeff), (0xfff0, 0xfffb), (0xfffe, 0xffff), (0x110bd, 0x110bd),
   (0x110cd, 0x110cd), (0x13430, 0x1343f), (0x1bca0, 0x1bca3), (0x1d173, 0x1d17a),
   (0x1fffe, 0x1ffff), (0x2fffe, 0x2ffff), (0x3fffe, 0x10ffff)]

/-- The blocks of marks that attach to the character before them. -/
def attachingRanges : List (Nat × Nat) :=
  [(0x300, 0x36f), (0x483, 0x489), (0x591, 0x5bd), (0x610, 0x61a), (0x64b, 0x65f),
   (0x1ab0, 0x1ace), (0x1dc0, 0x1dff), (0x20d0, 0x20f0), (0x302a, 0x302f), (0x3099, 0x309a),
   (0xfe00, 0xfe0f), (0xfe20, 0xfe2f)]

/-- Whether a code point lies in one of the ranges. -/
def inRanges (ranges : List (Nat × Nat)) (code : Nat) : Bool :=
  ranges.any fun (first, last) => first ≤ code && code ≤ last

/-- Whether a character is shown by its number. -/
def isUnprintable (c : Char) : Bool :=
  inRanges invisibleRanges c.toNat || inRanges attachingRanges c.toNat

example : isUnprintable '\x1b' ∧ isUnprintable '\u0301' ∧ isUnprintable '\ufeff' := by decide

example : ¬ isUnprintable ' ' ∧ ¬ isUnprintable 'é' ∧ ¬ isUnprintable '日' := by decide

end Interlock.Text

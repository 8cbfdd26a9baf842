import Interlock.Decimal.Shortest

/-!
# Numbers in JSON

A number is kept as it is written: a sign and the digits before the point, after it and in the
exponent. Its quantity is an integer of 64 bits if the number is written as one and fits, and a
64-bit float otherwise.

The float is not always the nearest one. The digits are gathered into a whole number as long as it
has 64 bits; digits beyond that count as zeros before the point and are dropped after it. The whole
number is rounded to a float and multiplied or divided by a rounded power of ten.
-/

namespace Interlock.Json

/-- A number as it is written. There is no point if there are no digits after it. -/
structure Number where
  negative : Bool
  whole : List Nat
  fraction : List Nat
  /-- Whether the exponent is negative, and its digits. -/
  exponent : Option (Bool × List Nat)
  deriving Repr, DecidableEq

/-- What a number stands for. -/
inductive Quantity where
  | unsigned (n : Nat)
  | signed (n : Int)
  | real (x : Float)

/-- The greatest whole number that digits are gathered into. -/
def Number.limit : Nat := UInt64.size - 1

/-- The greatest exponent that is told apart from all greater ones. -/
def Number.exponentLimit : Nat := 0x7fffffff

/-- Append digits to a whole number as long as it stays within a limit, and return the digits that
were not appended. -/
def absorb (limit : Nat) : Nat → List Nat → Nat × List Nat
  | n, [] => (n, [])
  | n, d :: rest => if limit < n * 10 + d then (n, d :: rest) else absorb limit (n * 10 + d) rest

/-- The power of ten with the given exponent, rounded. -/
def powerOfTen (exponent : Nat) : Float :=
  Float.ofScientific 1 false exponent

/-- Divide by the largest power of ten a number of times, then by `10 ^ places`. Nothing is left to
divide once the quotient is zero. -/
def divided (f : Float) (places : Nat) : Nat → Float
  | 0 => f / powerOfTen places
  | times + 1 => if f == 0 then f else divided (f / powerOfTen 308) places times

/-- The float of `significand * 10 ^ exponent`; `none` if it is not finite. -/
def scaled (significand : Nat) (exponent : Int) : Option Float :=
  let f := (UInt64.ofNat significand).toFloat
  if exponent < 0 then
    let places := (-exponent).toNat
    let times := (places - 1) / 308
    some (divided f (places - 308 * times) times)
  else if exponent ≤ 308 then
    let product := f * powerOfTen exponent.toNat
    if product.isInf then none else some product
  else if f == 0 then some f
  else none

namespace Number

/-- The float of a significand and a power of ten times the written exponent, without the sign. -/
def magnitude (n : Number) (significand : Nat) (shift : Int) : Option Float :=
  match n.exponent with
  | none => scaled significand shift
  | some (negative, digits) =>
    let (exponent, beyond) := absorb exponentLimit 0 digits
    if beyond.isEmpty then
      scaled significand (if negative then shift - exponent else shift + exponent)
    else if significand = 0 ∨ negative then some 0
    else none

/-- A number that is written without point and exponent. -/
def integer (n : Number) (significand : Nat) : Quantity :=
  if !n.negative then .unsigned significand
  else if significand = 0 ∨ UInt64.size / 2 < significand then .real (-(UInt64.ofNat significand).toFloat)
  else .signed (-significand)

/-- What the number stands for; `none` if it is out of range. -/
def quantity (n : Number) : Option Quantity :=
  let (significand, dropped) := absorb limit 0 n.whole
  if dropped.isEmpty ∧ n.fraction.isEmpty ∧ n.exponent.isNone then some (n.integer significand)
  else
    let (significand, unread) := absorb limit significand n.fraction
    let shift : Int := dropped.length - (n.fraction.length - unread.length)
    (n.magnitude significand shift).map fun f => .real (if n.negative then -f else f)

end Number

/-- The quantity as the reasons for refusing it show it. -/
def Quantity.describe : Quantity → String
  | unsigned n => "integer `" ++ toString n ++ "`"
  | signed n => "integer `" ++ toString n ++ "`"
  | real x =>
    let text := Decimal.shortestText Decimal.binary64 Decimal.readerStyle (Decimal.ofFloat x)
    "floating point `" ++ text ++ "`"

/-- The nearest float, for integers of 64 bits. -/
def Quantity.toFloat : Quantity → Float
  | unsigned n => (UInt64.ofNat n).toFloat
  | signed n =>
    let f := (UInt64.ofNat n.natAbs).toFloat
    if n < 0 then -f else f
  | real x => x

end Interlock.Json

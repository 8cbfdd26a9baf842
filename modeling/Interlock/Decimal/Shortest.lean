import Interlock.Decimal.Binary

/-!
# Shortest decimals

The shortest decimal of a binary number is the one with the fewest digits among those that read
back as the same number, and the nearest of these; a tie is settled by rule. A decimal reads back
if it lies in the interval of numbers that round to the given one; the ends of the interval belong
to it if the significand is even.

Between two neighbouring decimals with `n` digits lies every number of that size, so a decimal
with `n` digits reads back only if one of the number's two neighbours does. `shortest` tries
these two for `n = 1, 2, …`.
-/

namespace Interlock.Decimal

/-- The decimal `value * 10 ^ exponent`. -/
structure Digits where
  value : Nat
  exponent : Int
  deriving Repr, DecidableEq

/-- Which of two decimals that are equally near is the shortest one. -/
inductive Tie where
  | even
  | away
  deriving Repr, DecidableEq

/-- The exponent of the largest power of ten that is at most `num / den`. -/
def decimalExponent (num den : Nat) : Int :=
  if den ≤ num then
    (Nat.toDigits 10 (num / den)).length - 1
  else
    let places := (Nat.toDigits 10 (den / num)).length
    if num * Nat.pow 10 (places - 1) = den then -(places - 1 : Nat) else -places

/-- The numbers that round to a binary number: all quantities are multiples of a common unit. -/
structure Interval where
  low : Nat
  value : Nat
  high : Nat
  unit : Nat
  /-- Whether the ends belong to the interval. -/
  closed : Bool
  deriving Repr

namespace Interval

/-- The numbers that round to `significand * 2 ^ exponent`. Below a power of two the neighbours
are half as far apart. -/
def around (f : Format) (significand : Nat) (exponent : Int) : Interval :=
  let narrow := significand = 1 <<< f.fractionBits ∧ f.leastExponent < exponent
  let scale := 1 <<< exponent.toNat
  { low := (4 * significand - if narrow then 1 else 2) * scale
    value := 4 * significand * scale
    high := (4 * significand + 2) * scale
    unit := 4 * denominator exponent
    closed := significand % 2 = 0 }

/-- Whether the decimal `digits * 10 ^ exponent` lies in the interval. -/
def holds (i : Interval) (digits : Nat) (exponent : Int) : Bool :=
  let candidate := digits * Nat.pow 10 exponent.toNat * i.unit
  let scale := Nat.pow 10 (-exponent).toNat
  if i.closed then i.low * scale ≤ candidate && candidate ≤ i.high * scale
  else i.low * scale < candidate && candidate < i.high * scale

/-- The decimal on the grid `10 ^ exponent` that lies in the interval, the nearer one if both
neighbours of the value do. Of two that are equally near it is the greater one or the even one. -/
def onGrid? (i : Interval) (tie : Tie) (exponent : Int) : Option Nat :=
  let num := i.value * Nat.pow 10 (-exponent).toNat
  let den := i.unit * Nat.pow 10 exponent.toNat
  let below := num / den
  let rest := num % den
  match i.holds below exponent, i.holds (below + 1) exponent with
  | false, false => none
  | true, false => some below
  | false, true => some (below + 1)
  | true, true =>
    if 2 * rest < den then some below
    else if den < 2 * rest then some (below + 1)
    else if tie = .even ∧ below % 2 = 0 then some below
    else some (below + 1)

/-- The first grid with a hit, from the exponent `top` downwards. -/
def search (i : Interval) (tie : Tie) (top : Int) : Nat → Digits
  | 0 => ⟨i.value * Nat.pow 10 (-top).toNat / (i.unit * Nat.pow 10 top.toNat), top⟩
  | fuel + 1 =>
    match i.onGrid? tie top with
    | some digits => ⟨digits, top⟩
    | none => i.search tie (top - 1) fuel

end Interval

/-- The decimal without its trailing zeros. -/
def Digits.trimmed (d : Digits) : Nat → Digits
  | 0 => d
  | fuel + 1 =>
    if d.value % 10 = 0 ∧ d.value ≠ 0 then
      trimmed ⟨d.value / 10, d.exponent + 1⟩ fuel
    else d

/-- The number of digits with which every number of a format reads back. -/
def Format.enoughDigits (f : Format) : Nat :=
  (f.fractionBits + 1) * 30103 / 100000 + 2

/-- The shortest decimal of `significand * 2 ^ exponent`, nearest first. -/
def shortest (f : Format) (tie : Tie) (significand : Nat) (exponent : Int) : Digits :=
  if significand = 0 then ⟨0, 0⟩
  else
    let i := Interval.around f significand exponent
    let top := decimalExponent i.value i.unit
    (i.search tie top f.enoughDigits).trimmed (f.enoughDigits + 1)

/-- How a shortest decimal is written. -/
structure Style where
  /-- The least exponent of the first digit that is written with a point only. -/
  least : Int
  /-- The greatest exponent of the first digit that is written with a point only. -/
  greatest : Int
  /-- Whether a positive exponent has a sign. -/
  signedExponent : Bool
  /-- Which of two decimals that are equally near is written. -/
  tie : Tie
  deriving Repr

/-- Diagnostic texts write `0.0001` to `1e15` with a point, and no sign before an exponent. Ties go
away from zero. -/
def diagnosticStyle : Style := ⟨-4, 15, false, .away⟩

/-- The reasons of a data reader write `0.00001` to `1e15` with a point, and always a sign before
an exponent. Ties go to the even digit. -/
def readerStyle : Style := ⟨-5, 15, true, .even⟩

/-- The digits of a positional number, with at least one digit on either side of the point. -/
def positional (digits : List Char) (exponent : Int) : List Char :=
  if 0 ≤ exponent then digits ++ List.replicate exponent.toNat '0' ++ ['.', '0']
  else
    let places := (-exponent).toNat
    let filled := List.replicate (places + 1 - digits.length) '0' ++ digits
    filled.take (filled.length - places) ++ '.' :: filled.drop (filled.length - places)

/-- The digits of a number with one digit before the point and an exponent. -/
def scientific (signed : Bool) (digits : List Char) (exponent : Int) : List Char :=
  let mantissa := match digits with
    | first :: second :: rest => first :: '.' :: second :: rest
    | few => few
  let sign := if exponent < 0 then ['-'] else if signed then ['+'] else []
  mantissa ++ 'e' :: sign ++ Nat.toDigits 10 exponent.natAbs

/-- The text of a number with the fewest digits that read back. -/
def shortestText (f : Format) (style : Style) : Number → String
  | .nan => "NaN"
  | .infinite negative => if negative then "-inf" else "inf"
  | .finite negative significand exponent =>
    let d := shortest f style.tie significand exponent
    let digits := Nat.toDigits 10 d.value
    let leading := d.exponent + (digits.length - 1 : Nat)
    let unsigned :=
      if significand = 0 ∨ style.least ≤ leading ∧ leading ≤ style.greatest then
        positional digits d.exponent
      else scientific style.signedExponent digits leading
    String.ofList ((if negative then ['-'] else []) ++ unsigned)

end Interlock.Decimal

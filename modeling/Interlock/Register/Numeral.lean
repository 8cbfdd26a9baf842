import Interlock.Decimal.Fixed
import Interlock.Fault

/-!
# Numerals as counter arguments

A counter takes any numeral that denotes a 64-bit integer. A numeral is asked for two views: the
integer it truncates to, if that fits in 64 bits, and its nearest 64-bit float. It is accepted if
there is an integer view and the float view, where there is one, equals the integer rounded to a
float.
-/

namespace Interlock

open Decimal

/-- A number in one of the types that a counter's arguments may have. -/
inductive Numeral where
  | whole (value : Int)
  | double (bits : UInt64)
  | single (bits : UInt32)
  /-- A type that chooses its two views itself. -/
  | views (integer : Option Int) (double : Option UInt64)
  deriving Repr

/-- The whole number of `bits` significant bits nearest to `n`, the one with the even significand
of two that are equally near. -/
def roundToBits (bits n : Nat) : Nat :=
  let spare := n.log2 + 1 - bits
  roundHalfEven n (1 <<< spare) <<< spare

/-- The 64-bit float nearest to a whole number, as a whole number. -/
def nearestDouble (n : Int) : Int :=
  n.sign * roundToBits 53 n.natAbs

/-- Whether a number equals a whole number; a number that is no number equals none. -/
def Decimal.Number.equalsWhole : Number → Int → Bool
  | .finite negative significand exponent, n =>
    numerator significand exponent = n.natAbs * denominator exponent &&
      (n = 0 || negative = decide (n < 0))
  | _, _ => false

/-- The number without its fraction, if it is finite. -/
def Decimal.Number.truncated : Number → Option Int
  | .finite negative significand exponent =>
    let size : Int := (numerator significand exponent / denominator exponent : Nat)
    some (if negative then -size else size)
  | _ => none

namespace Numeral

def least : Int := Int64.minValue.toInt

def greatest : Int := Int64.maxValue.toInt

/-- An integer that fits in 64 bits. -/
def fitting (n : Int) : Option Int :=
  if least ≤ n ∧ n ≤ greatest then some n else none

def integerView : Numeral → Option Int
  | whole value => fitting value
  | double bits => (binary64.read bits.toNat).truncated.bind fitting
  | single bits => (binary32.read bits.toNat).truncated.bind fitting
  | views integer _ => integer

/-- Whether the float view allows the integer `n`: it is absent, or the float nearest to `n`. -/
def floatViewAllows (n : Int) : Numeral → Bool
  | whole value => nearestDouble value = nearestDouble n
  | double bits => (binary64.read bits.toNat).equalsWhole (nearestDouble n)
  | single bits => (binary32.read bits.toNat).equalsWhole (nearestDouble n)
  | views _ none => true
  | views _ (some bits) => (binary64.read bits.toNat).equalsWhole (nearestDouble n)

/-- The fault of a numeral that is no 64-bit integer. -/
def notAnInteger : Fault :=
  .invalidArgument "value must be an integer in the 64-bit signed range"

/-- The 64-bit integer that a numeral denotes. -/
def toInt64 (numeral : Numeral) : Except Fault Int64 :=
  match numeral.integerView with
  | none => .error notAnInteger
  | some n => if numeral.floatViewAllows n then .ok (Int64.ofInt n) else .error notAnInteger

end Numeral

end Interlock

import Interlock.Decimal.Fixed
import Interlock.Fault

/-!
# Timeouts

A timeout is a whole number of nanoseconds, or `none` if there is no limit. Durations have a
64-bit number of seconds; a time in seconds beyond that is no limit at all. A time in seconds is
rounded to the nearest nanosecond, the even one of two that are equally near.
-/

namespace Interlock.Timeout

open Decimal

/-- The number of nanoseconds in a second. -/
def second : Nat := 1_000_000_000

/-- The number of nanoseconds in a number of milliseconds. -/
def ofMilliseconds (milliseconds : Nat) : Nat :=
  milliseconds * 1_000_000

/-- The first number of nanoseconds that no duration has. -/
def limit : Nat := UInt64.size * second

def longest : Nat := limit - 1

/-- A timeout of at most a second runs out while one looks on. A timeout of nothing runs out
before the wait has begun. -/
def isBrief (timeout : Option Nat) : Bool :=
  timeout.any fun nanoseconds => 0 < nanoseconds ∧ nanoseconds ≤ second

/-- The fault of a negative time, or of one that is no number. -/
def negative : Fault :=
  .invalidArgument "time interval must be non-negative"

/-- The timeout of a time in seconds. -/
def ofSeconds : Number → Except Fault (Option Nat)
  | .nan | .infinite true => .error negative
  | .infinite false => .ok none
  | .finite sign significand exponent =>
    if sign ∧ significand ≠ 0 then .error negative
    else
      let nanoseconds :=
        roundHalfEven (numerator significand exponent * second) (denominator exponent)
      .ok (if nanoseconds < limit then some nanoseconds else none)

example : ofSeconds (.finite true 0 (-3)) = .ok (some 0) := rfl

example : ofSeconds (.finite false 1 (-2)) = .ok (some 250000000) := rfl

example : ofSeconds (.finite false 1 64) = .ok none := rfl

end Interlock.Timeout

import Interlock.Register.Basic
import Interlock.Register.Numeral

/-!
# Counters

A counter is a register of 64-bit integers. Plain arithmetic stops at the bounds, checked
arithmetic refuses a result outside of them and leaves the value alone; nothing wraps.
-/

namespace Interlock.Counter

open Register

/-- A program of operations on a counter. -/
abbrev Action (β : Type) := Register.Action Int64 β

/-- The 64-bit integer nearest to an integer. -/
def saturated (n : Int) : Int64 :=
  if n < Numeral.least then Int64.minValue
  else if Numeral.greatest < n then Int64.maxValue
  else Int64.ofInt n

/-- The 64-bit integer equal to an integer, if there is one. -/
def ofInt? (n : Int) : Option Int64 :=
  (Numeral.fitting n).map Int64.ofInt

/-- Replace the value by `f` of it, starting again after interference, and return the new value. -/
def update (f : Int64 → Int64) : Action Int64 :=
  .call (.modify fun v => some (f v)) fun t => .done t.left

/-- Add an integer to the value, which stops at the bounds. -/
def shift (change : Int) : Action Int64 :=
  update fun v => saturated (v.toInt + change)

/-- Add an integer to the value unless the sum has no 64 bits. -/
def shiftChecked (change : Int) : Action (Except Fault Int64) :=
  .call (.modify fun v => ofInt? (v.toInt + change)) fun t =>
    .done (if t.accepted then .ok t.left else .error .overflow)

def value : Action Int64 :=
  .call (.once .load) fun t => .done t.seen

def set (new : Int64) : Action Unit :=
  .call (.once (.store new)) fun _ => .done ()

/-- Replace the value and return the previous one. -/
def replace (new : Int64) : Action Int64 :=
  .call (.once (.swap new)) fun t => .done t.seen

/-- Replace the value if it is the expected one. -/
def compareAndSet (expected new : Int64) : Action Bool :=
  .call (.once (.exchange expected new)) fun t => .done t.accepted

def increment : Action Int64 := shift 1

def decrement : Action Int64 := shift (-1)

def incrementBy (delta : Int64) : Action Int64 := shift delta.toInt

def decrementBy (delta : Int64) : Action Int64 := shift (-delta.toInt)

def checkedIncrementBy (delta : Int64) : Action (Except Fault Int64) := shiftChecked delta.toInt

def checkedDecrementBy (delta : Int64) : Action (Except Fault Int64) := shiftChecked (-delta.toInt)

/-- Replace the value by a numeral, which is judged before anything is written. -/
def trySet (new : Numeral) : Action (Except Fault Unit) :=
  match new.toInt64 with
  | .error fault => .done (.error fault)
  | .ok new => Except.ok <$> set new

/-- Replace the value if it is the expected one. Both numerals are judged, the expected one first,
before anything is read. -/
def tryCompareAndSet (expected new : Numeral) : Action (Except Fault Bool) :=
  match expected.toInt64, new.toInt64 with
  | .error fault, _ => .done (.error fault)
  | _, .error fault => .done (.error fault)
  | .ok expected, .ok new => Except.ok <$> compareAndSet expected new

def diagnostic (held : Int64) : Text.Diagnostic :=
  .tuple "AtomicCounter" [.leaf (toString held.toInt)]

end Interlock.Counter

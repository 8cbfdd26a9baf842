import Interlock.Register.Basic
import Interlock.Text.Diagnostic

/-!
# Flags

A flag is a register of one bit. Raising and lowering report whether the call made the change.
-/

namespace Interlock.Flag

open Register

/-- A program of operations on a flag. -/
abbrev Action (β : Type) := Register.Action Bool β

def value : Action Bool :=
  .call (.once .load) fun t => .done t.seen

def isLowered : Action Bool := do
  return !(← value)

def set (bit : Bool) : Action Unit :=
  .call (.once (.store bit)) fun _ => .done ()

/-- Replace the bit and return the previous one. -/
def replace (bit : Bool) : Action Bool :=
  .call (.once (.swap bit)) fun t => .done t.seen

/-- Raise the flag; true if it was down. -/
def raise : Action Bool :=
  .call (.once (.exchange false true)) fun t => .done t.accepted

/-- Lower the flag; true if it was up. -/
def lower : Action Bool :=
  .call (.once (.exchange true false)) fun t => .done t.accepted

def diagnostic (held : Bool) : Text.Diagnostic :=
  .tuple "AtomicFlag" [.leaf (if held then "true" else "false")]

end Interlock.Flag

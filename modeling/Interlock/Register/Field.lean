import Interlock.Register.Basic
import Interlock.Text.Diagnostic

/-!
# Fields

A field is a register of a value type that is copied as a whole. Its exchange compares with the
type's own equality, so a write that is equal to the value read does not disturb an update.
-/

namespace Interlock.Field

open Register

variable {α : Type}

/-- A program of operations on a field. -/
abbrev Action (α β : Type) := Register.Action α β

def read : Action α α :=
  .call (.once .load) fun t => .done t.seen

def write (new : α) : Action α Unit :=
  .call (.once (.store new)) fun _ => .done ()

/-- Replace the value and return the previous one. -/
def swap (new : α) : Action α α :=
  .call (.once (.swap new)) fun t => .done t.seen

/-- Replace the value if it equals `expected`. -/
def compareAndSet (expected new : α) : Action α Bool :=
  .call (.once (.exchange expected new)) fun t => .done t.accepted

/-- Replace the value by `f` of it, starting again after interference, and return the new value. -/
def update (f : α → α) : Action α α :=
  .call (.modify fun v => some (f v)) fun t => .done t.left

/-- Whether values of a size and alignment in bytes are accessed without a lock: they fill a
machine word of that alignment, or take no memory at all. -/
def isLockFree (size alignment : Nat) : Bool :=
  size = 0 || [1, 2, 4, 8].contains size && alignment ≤ size

def diagnostic (item : Text.Diagnostic) : Text.Diagnostic :=
  .tuple "Volatile" [item]

end Interlock.Field

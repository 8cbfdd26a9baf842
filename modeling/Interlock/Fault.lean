import Interlock.Text.Diagnostic

/-!
# Faults

Every operation that can be refused says why with a `Fault`. Two faults are equal exactly when
they have the same cause and the same reason.
-/

namespace Interlock

/-- Why an operation was refused. -/
inductive Fault where
  /-- An argument lies outside the operation's domain. -/
  | invalidArgument (reason : String)
  | cancelled (reason : String)
  /-- Another writer came between the read and the write. -/
  | concurrentUpdate
  /-- The exact result does not fit in 64 bits. -/
  | overflow
  deriving DecidableEq, Repr

namespace Fault

def message : Fault → String
  | invalidArgument reason => "invalid argument: " ++ reason
  | cancelled reason => "cancelled: " ++ reason
  | concurrentUpdate => "concurrent update failed"
  | overflow => "counter arithmetic overflowed the 64-bit range"

/-- Whether an argument was refused. -/
def isInvalidArgument : Fault → Bool
  | invalidArgument _ => true
  | _ => false

/-- Whether an interrupt ended the operation. -/
def isCancelled : Fault → Bool
  | cancelled _ => true
  | _ => false

def cause : Fault → String
  | invalidArgument _ => "InvalidArgument"
  | cancelled _ => "Cancelled"
  | concurrentUpdate => "ConcurrentUpdate"
  | overflow => "Overflow"

/-- The diagnostic form: the cause, and the reason where there is one. -/
def diagnostic (f : Fault) : Text.Diagnostic :=
  match f with
  | invalidArgument reason | cancelled reason => .tuple f.cause [.leaf (Text.quoted reason)]
  | concurrentUpdate | overflow => .leaf f.cause

end Fault

end Interlock

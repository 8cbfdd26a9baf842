import Interlock.System

/-!
# Interrupts

Every thread has a mailbox for interrupts: a flag that tells that one is pending, and the latest
message. An interrupt writes the message, then the flag. The thread takes the flag, then the
message; an interrupt without a message stands for the default one.

Between the two writes and between the two reads another thread may act, so both are stages.
-/

namespace Interlock

/-- The interrupt state of one thread. -/
structure Mailbox where
  message : Option String := none
  pending : Bool := false
  deriving Repr, DecidableEq, Inhabited

namespace Mailbox

/-- The message of an interrupt that has none. -/
def defaultMessage : String := "thread interrupted"

/-- Where a thread is in raising an interrupt. -/
inductive Raising where
  | writing (message : Option String)
  | flagging
  deriving DecidableEq, Repr

/-- The next access of an interrupt. -/
def Raising.advance (m : Mailbox) : Raising → Mailbox × Progress Raising Unit
  | writing message => ({ m with message }, .ongoing flagging)
  | flagging => ({ m with pending := true }, .finished ())

/-- Where a thread is in taking its own interrupt. -/
inductive Taking where
  | clearing
  /-- Has cleared the flag of a pending interrupt; about to take the message. -/
  | fetching
  deriving DecidableEq, Repr

/-- The next access of taking an interrupt. The answer is its message, if one was pending. -/
def Taking.advance (m : Mailbox) : Taking → Mailbox × Progress Taking (Option String)
  | clearing =>
    if m.pending then ({ m with pending := false }, .ongoing fetching)
    else (m, .finished none)
  | fetching =>
    ({ m with message := none }, .finished (some (m.message.getD defaultMessage)))

def raise (m : Mailbox) (message : Option String) : Mailbox :=
  (Raising.flagging.advance ((Raising.writing message).advance m).1).1

/-- Taking an interrupt in one piece. -/
def take (m : Mailbox) : Mailbox × Option String :=
  match Taking.clearing.advance m with
  | (m, .finished answer) => (m, answer)
  | (m, .ongoing stage) =>
    match stage.advance m with
    | (m, .finished answer) => (m, answer)
    | (m, .ongoing _) => (m, none)

end Mailbox

end Interlock

import Interlock.Fault
import Interlock.Monitor.Lock
import Interlock.Monitor.Mailbox
import Interlock.Monitor.WaitSet

/-!
# Monitors

A monitor guards a value with one reentrant lock and one wait set. Beside these its state holds
what belongs to the threads around it: their identities, their interrupt mailboxes, their wake-up
permits and the time.

A permit is a token of a thread: waking the thread sets it, parking uses it up or blocks until
it is set. An identity is given to a thread when it first needs one; identities count up from
one.
-/

namespace Interlock

/-- A monitor around a value, and the threads' own state. -/
structure Monitor (V : Type) where
  value : V
  lock : Lock := {}
  waiters : WaitSet := {}
  /-- The identity of each thread, `0` if it has none yet. -/
  identities : Table UInt64 := {}
  /-- The identity that the next thread gets. -/
  nextIdentity : UInt64 := 1
  mailboxes : Table Mailbox := {}
  permits : Table Bool := {}
  clock : Nat := 0

namespace Monitor

variable {V : Type}

/-- The longest time that a clock can show. -/
def clockLimit : Nat := UInt64.size / 2 * 1_000_000_000

/-- The moment `timeout` nanoseconds after `now`, if a clock can show it. -/
def deadline? (now timeout : Nat) : Option Nat :=
  if now + timeout < clockLimit then some (now + timeout) else none

/-- Give a thread an identity if it has none. -/
def identify (m : Monitor V) (t : Nat) : Monitor V :=
  if m.identities.get t = 0 then
    { m with
      identities := m.identities.set t m.nextIdentity
      nextIdentity := m.nextIdentity + 1 }
  else m

def unpark (m : Monitor V) (t : Nat) : Monitor V :=
  { m with permits := m.permits.set t true }

/-- Use up the permit of a thread that parks. A thread without a permit goes on only for no reason
or because a given moment has come. -/
def park (m : Monitor V) (t : Nat) (chance : Chance) (latest : Option Nat) : Option (Monitor V) :=
  if m.permits.get t then some { m with permits := m.permits.set t false }
  else if chance.spurious then some m
  else match latest with
    | none => none
    | some moment => if moment ≤ m.clock then some m else none

end Monitor

end Interlock

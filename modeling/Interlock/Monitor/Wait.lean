import Interlock.Monitor.Basic

/-!
# Waiting

A thread that holds the lock waits: it puts a node into the wait set, leaves all levels of the
lock, and parks until its node is notified, an interrupt is pending or the deadline has passed.
Then it takes its node out of the wait set, returns to its levels, and only then decides how the
wait ended.

An interrupt that is pending on entry ends the wait before anything is given up. A wait that ends
without having been notified, after it has joined the wait set, notifies the longest waiting
thread, so that no notification is lost when it meets a timeout or an interrupt.
-/

namespace Interlock

/-- How a wait ended that was not cancelled. -/
inductive Ending where
  | notified
  | expired
  deriving DecidableEq, Repr

namespace Ending

def name : Ending → String
  | notified => "Notified"
  | expired => "TimedOut"

def isExpired : Ending → Bool
  | notified => false
  | expired => true

end Ending

namespace Monitor

variable {V : Type}

/-- What a parked thread looks at when it is awake. -/
inductive Glance where
  /-- About to read whether its node is notified. -/
  | node
  /-- About to read whether an interrupt is pending. -/
  | interrupt
  | clock
  /-- About to park, until the deadline if there is one. -/
  | park
  deriving DecidableEq, Repr

/-- Where a thread is in a wait. `node` is the wait's entry in the wait set, `levels` the levels it
has left, `queued` tells whether it took its node out of the wait set itself. -/
inductive Waiting where
  /-- Looking for an interrupt that is already pending. -/
  | entering (timeout : Option Nat) (taking : Mailbox.Taking)
  /-- About to read the clock for the deadline. -/
  | dating (timeout : Nat)
  | joining (deadline : Option Nat)
  | releasing (node : Nat) (deadline : Option Nat) (lock : Lock.Stage)
  | watching (node : Nat) (deadline : Option Nat) (levels : Nat) (glance : Glance)
  /-- About to take its node out of the wait set. -/
  | withdrawing (node levels : Nat) (interrupted : Bool)
  | returning (node : Nat) (interrupted queued : Bool) (lock : Lock.Stage)
  /-- Taking the interrupt that ended the wait. -/
  | consuming (node : Nat) (queued : Bool) (taking : Mailbox.Taking)
  /-- About to notify the longest waiting thread instead. -/
  | passing (node : Nat) (result : Except Fault Ending)
  /-- About to wake the thread that was notified instead. -/
  | handing (node thread : Nat) (result : Except Fault Ending)
  deriving Repr

namespace Waiting

/-- What follows once the thread is back on the lock and no interrupt ends the wait. -/
def conclude (node : Nat) (queued : Bool) : Progress Waiting (Except Fault Ending) :=
  if queued then .ongoing (passing node (.ok .expired)) else .finished (.ok .notified)

/-- The next access of thread `t` in a wait. -/
def advance (t : Nat) (chance : Chance) (m : Monitor V) :
    Waiting → Option (Monitor V × Progress Waiting (Except Fault Ending))
  | entering timeout taking =>
    let (mailbox, progress) := taking.advance (m.mailboxes.get t)
    let m := { m with mailboxes := m.mailboxes.set t mailbox }
    match progress with
    | .ongoing taking => some (m, .ongoing (entering timeout taking))
    | .finished (some message) => some (m, .finished (.error (.cancelled message)))
    | .finished none =>
      match timeout with
      | some timeout => some (m, .ongoing (dating timeout))
      | none => some (m, .ongoing (joining none))
  | dating timeout => some (m, .ongoing (joining (deadline? m.clock timeout)))
  | joining deadline =>
    let (node, waiters) := m.waiters.make t
    some ({ m with waiters := waiters.push node }, .ongoing (releasing node deadline .surrender))
  | releasing node deadline lock =>
    match lock.advance t (m.identities.get t) chance m.lock with
    | none => none
    | some (lock, .ongoing stage) =>
      some ({ m with lock }, .ongoing (releasing node deadline stage))
    | some (lock, .finished (.departed levels)) =>
      some ({ m with lock }, .ongoing (watching node deadline levels .node))
    | some (lock, .finished _) =>
      some ({ m with lock }, .ongoing (watching node deadline 0 .node))
  | watching node deadline levels glance =>
    match glance with
    | .node =>
      if m.waiters.isNotified node then some (m, .ongoing (withdrawing node levels false))
      else some (m, .ongoing (watching node deadline levels .interrupt))
    | .interrupt =>
      if (m.mailboxes.get t).pending then some (m, .ongoing (withdrawing node levels true))
      else if deadline.isSome then some (m, .ongoing (watching node deadline levels .clock))
      else some (m, .ongoing (watching node deadline levels .park))
    | .clock =>
      if deadline.any (· ≤ m.clock) then some (m, .ongoing (withdrawing node levels false))
      else some (m, .ongoing (watching node deadline levels .park))
    | .park =>
      (m.park t chance deadline).map fun m => (m, .ongoing (watching node deadline levels .node))
  | withdrawing node levels interrupted =>
    let (waiters, queued) := m.waiters.remove node
    some ({ m with waiters },
      .ongoing (returning node interrupted queued (.acquire .attempt levels)))
  | returning node interrupted queued lock =>
    match lock.advance t (m.identities.get t) chance m.lock with
    | none => none
    | some (lock, .ongoing stage) =>
      some ({ m with lock }, .ongoing (returning node interrupted queued stage))
    | some (lock, .finished _) =>
      if interrupted then some ({ m with lock }, .ongoing (consuming node queued .clearing))
      else some ({ m with lock }, conclude node queued)
  | consuming node queued taking =>
    let (mailbox, progress) := taking.advance (m.mailboxes.get t)
    let m := { m with mailboxes := m.mailboxes.set t mailbox }
    match progress with
    | .ongoing taking => some (m, .ongoing (consuming node queued taking))
    | .finished (some message) =>
      some (m, .ongoing (passing node (.error (.cancelled message))))
    | .finished none => some (m, conclude node queued)
  | passing node result =>
    match m.waiters.pop with
    | none => some (m, .finished result)
    | some (waiters, thread) =>
      some ({ m with waiters }, .ongoing (handing node thread result))
  | handing _ thread result => some (m.unpark thread, .finished result)

/-- The moment until which a thread is parked. -/
def parkedUntil : Waiting → Option Nat
  | watching _ deadline _ .park => deadline
  | _ => none

end Waiting

end Monitor

end Interlock

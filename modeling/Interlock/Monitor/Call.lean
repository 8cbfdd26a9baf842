import Interlock.Monitor.Wait

/-!
# Calls on a monitor

The calls that threads make on a monitor and on each other's mailboxes, as stages of single
accesses. Waiting for a condition is a loop around waiting: it tests the condition, looks at the
clock if there is a deadline, waits, and tests again.
-/

namespace Interlock.Monitor

/-- What a thread can ask for. Timeouts are in nanoseconds. -/
inductive Call (V : Type) where
  | lock
  /-- Enter a level of the lock unless another thread holds it. -/
  | tryLock
  | unlock
  /-- Does the calling thread hold the lock? -/
  | holds
  | wait (timeout : Option Nat)
  /-- Wait until a condition holds. Testing it may change the value. -/
  | waitUntil (timeout : Option Nat) (condition : V → Bool × V)
  | signal
  | broadcast
  | hasWaiters
  | waiterCount
  /-- Replace the guarded value `v` by `f v`. -/
  | access (f : V → V)
  | interrupt (target : Nat) (message : Option String)
  | isInterrupted (target : Nat)
  | takeInterrupt

/-- What a thread is told. -/
inductive Reply (V : Type) where
  | done
  | truth (answer : Bool)
  | count (threads : Nat)
  /-- The guarded value before and after an access. -/
  | values (before after : V)
  | ended (result : Except Fault Ending)
  /-- Whether a condition was met, and how often it was tested. -/
  | met (result : Except Fault Bool) (tests : Nat)
  | message (text : Option String)

/-- A call in progress. -/
inductive Stage (V : Type) where
  /-- About to make sure that the thread has an identity. -/
  | identifying (next : Stage V)
  | locking (lock : Lock.Stage)
  /-- About to compare the owner with the thread. -/
  | comparing
  | waiting (wait : Waiting)
  /-- About to read the clock for the deadline of a condition. -/
  | limiting (timeout : Nat) (condition : V → Bool × V)
  | testing (deadline : Option Nat) (condition : V → Bool × V) (tests : Nat)
  /-- Has tested a condition; about to compare the clock with the deadline. -/
  | timing (deadline : Nat) (condition : V → Bool × V) (tests : Nat) (met : Bool)
  | pausing (deadline : Option Nat) (condition : V → Bool × V) (tests : Nat) (wait : Waiting)
  /-- About to take one node, or all, out of the wait set. -/
  | notifying (all : Bool)
  /-- About to wake threads one after the other. -/
  | waking (threads : List Nat) (reply : Reply V)
  /-- About to ask the wait set whether it is empty. -/
  | probing
  | counting
  | accessing (f : V → V)
  | raising (target : Nat) (raising : Mailbox.Raising)
  /-- About to read whether an interrupt is pending. -/
  | peeking (target : Nat)
  | taking (taking : Mailbox.Taking)

namespace Stage

variable {V : Type}

/-- The stage of a call before its first access. -/
def ofCall : Call V → Stage V
  | .lock => identifying (locking (.ask true))
  | .tryLock => identifying (locking (.ask false))
  | .unlock => locking .leave
  | .holds => identifying comparing
  | .wait timeout => waiting (.entering timeout .clearing)
  | .waitUntil none condition => testing none condition 0
  | .waitUntil (some timeout) condition => limiting timeout condition
  | .signal => notifying false
  | .broadcast => notifying true
  | .hasWaiters => probing
  | .waiterCount => counting
  | .access f => accessing f
  | .interrupt target message => raising target (.writing message)
  | .isInterrupted target => peeking target
  | .takeInterrupt => taking .clearing

/-- What a thread is told when one of the lock's procedures ends. -/
def ofLock : Lock.Reply → Reply V
  | .entered => .truth true
  | .refused => .truth false
  | .departed _ => .done

/-- The next access of a call by thread `t`. -/
def advance (t : Nat) (chance : Chance) (m : Monitor V) :
    Stage V → Option (Monitor V × Progress (Stage V) (Reply V))
  | identifying next => some (m.identify t, .ongoing next)
  | locking stage =>
    match stage.advance t (m.identities.get t) chance m.lock with
    | none => none
    | some (lock, .ongoing stage) => some ({ m with lock }, .ongoing (locking stage))
    | some (lock, .finished reply) => some ({ m with lock }, .finished (ofLock reply))
  | comparing => some (m, .finished (.truth (m.lock.owner = m.identities.get t)))
  | waiting wait =>
    match wait.advance t chance m with
    | none => none
    | some (m, .ongoing wait) => some (m, .ongoing (waiting wait))
    | some (m, .finished result) => some (m, .finished (.ended result))
  | limiting timeout condition =>
    some (m, .ongoing (testing (deadline? m.clock timeout) condition 0))
  | testing deadline condition tests =>
    let (met, value) := condition m.value
    let m := { m with value }
    match deadline with
    | some deadline => some (m, .ongoing (timing deadline condition (tests + 1) met))
    | none =>
      if met then some (m, .finished (.met (.ok true) (tests + 1)))
      else some (m, .ongoing (pausing none condition (tests + 1) (.entering none .clearing)))
  | timing deadline condition tests met =>
    if met ∨ deadline ≤ m.clock then some (m, .finished (.met (.ok met) tests))
    else
      let timeout := deadline - m.clock
      some (m, .ongoing (pausing (some deadline) condition tests
        (.entering (some timeout) .clearing)))
  | pausing deadline condition tests wait =>
    match wait.advance t chance m with
    | none => none
    | some (m, .ongoing wait) => some (m, .ongoing (pausing deadline condition tests wait))
    | some (m, .finished (.ok _)) => some (m, .ongoing (testing deadline condition tests))
    | some (m, .finished (.error fault)) => some (m, .finished (.met (.error fault) tests))
  | notifying false =>
    match m.waiters.pop with
    | none => some (m, .finished (.truth false))
    | some (waiters, thread) =>
      some ({ m with waiters }, .ongoing (waking [thread] (.truth true)))
  | notifying true =>
    match m.waiters.popAll with
    | (waiters, []) => some ({ m with waiters }, .finished (.count 0))
    | (waiters, threads) =>
      some ({ m with waiters }, .ongoing (waking threads (.count threads.length)))
  | waking [] reply => some (m, .finished reply)
  | waking [thread] reply => some (m.unpark thread, .finished reply)
  | waking (thread :: rest) reply => some (m.unpark thread, .ongoing (waking rest reply))
  | probing => some (m, .finished (.truth !m.waiters.isEmpty))
  | counting => some (m, .finished (.count m.waiters.count))
  | accessing f =>
    let value := f m.value
    some ({ m with value }, .finished (.values m.value value))
  | raising target stage =>
    let (mailbox, progress) := stage.advance (m.mailboxes.get target)
    let m := { m with mailboxes := m.mailboxes.set target mailbox }
    match progress with
    | .ongoing stage => some (m, .ongoing (raising target stage))
    | .finished () => some (m, .ongoing (waking [target] .done))
  | peeking target => some (m, .finished (.truth (m.mailboxes.get target).pending))
  | taking stage =>
    let (mailbox, progress) := stage.advance (m.mailboxes.get t)
    let m := { m with mailboxes := m.mailboxes.set t mailbox }
    match progress with
    | .ongoing stage => some (m, .ongoing (taking stage))
    | .finished text => some (m, .finished (.message text))

/-- The moment until which a thread is parked. -/
def parkedUntil : Stage V → Option Nat
  | waiting wait | pausing _ _ _ wait => wait.parkedUntil
  | _ => none

end Stage

abbrev shared (V : Type) : Shared where
  State := Monitor V
  Call := Call V
  Reply := Reply V
  Stage := Stage V
  enter := Stage.ofCall
  advance := Stage.advance
  elapse := fun time m => { m with clock := m.clock + time }

end Interlock.Monitor

import Interlock.Monitor.Call
import Interlock.Monitor.Timeout

/-!
# Programs on a monitor

The calls of a monitor as programs with answers of their own types, and the programs built from
them: a body that runs on a level of the lock, and a look at the value that does not wait.
-/

namespace Interlock.Monitor

variable {V β : Type}

/-- A program of calls on a monitor. -/
abbrev Action (V β : Type) := Program (Call V) (Reply V) β

namespace Reply

def isYes : Reply V → Bool
  | truth answer => answer
  | _ => false

/-- The number of threads in the answer. -/
def threads : Reply V → Nat
  | count threads => threads
  | _ => 0

def ending : Reply V → Except Fault Ending
  | ended result => result
  | _ => .ok .notified

/-- Whether the condition was met, and how often it was tested. -/
def testing : Reply V → Except Fault Bool × Nat
  | met result tests => (result, tests)
  | _ => (.ok false, 0)

def text? : Reply V → Option String
  | message text => text
  | _ => none

/-- The value before and after an access. -/
def values? : Reply V → Option (V × V)
  | values before after => some (before, after)
  | _ => none

end Reply

namespace Action

def lock : Action V Unit :=
  .call .lock fun _ => .done ()

/-- Enter a level of the lock unless another thread holds it, and tell whether that was done. -/
def tryLock : Action V Bool :=
  .call .tryLock fun reply => .done reply.isYes

def unlock : Action V Unit :=
  .call .unlock fun _ => .done ()

/-- Whether the calling thread holds the lock. -/
def holds : Action V Bool :=
  .call .holds fun reply => .done reply.isYes

def wait (timeout : Option Nat) : Action V (Except Fault Ending) :=
  .call (.wait timeout) fun reply => .done reply.ending

/-- Wait with the timeout in seconds, which is judged before anything is done. -/
def waitSeconds (seconds : Option Decimal.Number) : Action V (Except Fault Ending) :=
  match seconds.elim (.ok none) Timeout.ofSeconds with
  | .error fault => .done (.error fault)
  | .ok timeout => wait timeout

/-- Wait until a condition holds, and count the tests. -/
def waitUntil (timeout : Option Nat) (condition : V → Bool × V) :
    Action V (Except Fault Bool × Nat) :=
  .call (.waitUntil timeout condition) fun reply => .done reply.testing

/-- Notify the longest waiting thread, and tell whether there was one. -/
def signal : Action V Bool :=
  .call .signal fun reply => .done reply.isYes

/-- Notify every waiting thread, and count them. -/
def broadcast : Action V Nat :=
  .call .broadcast fun reply => .done reply.threads

def hasWaiters : Action V Bool :=
  .call .hasWaiters fun reply => .done reply.isYes

def waiterCount : Action V Nat :=
  .call .waiterCount fun reply => .done reply.threads

/-- Replace the value `v` by `f v`, and pass on the values before and after. -/
def access (f : V → V) : Action V (Option (V × V)) :=
  .call (.access f) fun reply => .done reply.values?

def interrupt (target : Nat) (message : Option String) : Action V Unit :=
  .call (.interrupt target message) fun _ => .done ()

/-- Whether an interrupt of a thread is pending. -/
def isInterrupted (target : Nat) : Action V Bool :=
  .call (.isInterrupted target) fun reply => .done reply.isYes

/-- Take the calling thread's interrupt. -/
def takeInterrupt : Action V (Option String) :=
  .call .takeInterrupt fun reply => .done reply.text?

/-- Run a body on a level of the lock. -/
def synchronized (body : Action V β) : Action V β := do
  lock
  let result ← body
  unlock
  return result

/-- The value, unless another thread holds the lock. -/
def inspect : Action V (Option V) := do
  if ← tryLock then
    let values ← access id
    unlock
    return values.map (·.2)
  else return none

end Action

/-- The diagnostic form, with the value unless another thread holds the lock. -/
def diagnostic (item : V → Text.Diagnostic) (inspected : Option V) : Text.Diagnostic :=
  .parts "MonitorObject" [("value", (inspected.map item).getD (.leaf "<locked>"))] true

end Interlock.Monitor

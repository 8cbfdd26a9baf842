import Interlock.Monitor.Action
import Interlock.Monitor.Timeout

/-!
# Commands of a session

A session gives commands to threads that share a monitor around an integer. A thread keeps the
levels of the lock that it has entered by command as a stack of guards. Some requests need a
guard: inside a synchronized command that command's own, otherwise one of the stack. The others
lock the monitor for themselves or do not need the lock.

A panic leaves all synchronized commands around it, with their levels, and no guard of the stack.
-/

namespace Interlock.Session

open Monitor

/-- A condition on the value to wait for. -/
inductive Condition where
  | atLeast (bound : Int64)
  | equals (value : Int64)
  | always
  | never
  /-- The value is positive; it is then decreased by one. -/
  | take
  deriving Repr, DecidableEq

/-- Test the condition on a value, and return the value that the test leaves. -/
def Condition.test : Condition → Int64 → Bool × Int64
  | atLeast bound, v => (bound ≤ v, v)
  | equals value, v => (v = value, v)
  | always, v => (true, v)
  | never, v => (false, v)
  | take, v => if 0 < v then (true, v - 1) else (false, v)

/-- A request that needs a guard. -/
inductive Guarded where
  | wait (timeout : Option Nat)
  /-- Wait for a notification, with the timeout in seconds. -/
  | waitSeconds (seconds : Option Float)
  | waitUntil (timeout : Option Nat) (condition : Condition)
  | signal
  | broadcast
  | hasWaiters
  | waiterCount
  | get
  /-- Replace the value; the answer is the old one. -/
  | set (value : Int64)
  /-- Add to the value, which wraps; the answer is the new one. -/
  | add (change : Int64)
  | describe
  /-- Does the guard belong to the session's monitor? -/
  | sameMonitor

/-- What a thread is told to do. -/
inductive Command where
  | lock
  /-- Push a guard unless another thread holds the lock. -/
  | tryLock
  /-- Drop a guard, the newest or the oldest. Guards differ in their order only, which nothing
  depends on. -/
  | unlock
  /-- Forget the newest guard without leaving its level. -/
  | forget
  | holds
  | synchronized (body : List Command)
  | panic (message : String)
  | guarded (request : Guarded)
  /-- A request on a level of the lock for itself. -/
  | alone (request : Guarded)
  | describe (pretty : Bool)
  /-- A memory fence, of which nothing can be seen. -/
  | fence
  | interrupt (target : Nat) (message : Option String)
  /-- Is an interrupt of the thread pending? -/
  | isInterrupted
  | takeInterrupt
  | handle (target : Nat)

/-- What a thread answers. -/
inductive Answer where
  | done
  | truth (answer : Bool)
  | count (threads : Nat)
  | value (value : Int64)
  | text (text : String)
  | ended (result : Except Fault Ending)
  /-- Whether a condition was met, and how often it was tested if that does not depend on the
  clock. -/
  | met (result : Except Fault Bool) (tests : Option Nat)
  /-- Whether an interrupt is pending, asked by the thread itself and through its handle. -/
  | pending (own handle : Bool)
  /-- The message of an interrupt that was taken. -/
  | message (text : Option String)
  /-- An interrupt handle as a text, its flag, and whether it is the thread's own. -/
  | handle (text : String) (pending own : Bool)
  /-- The answers to the commands inside a synchronized one. -/
  | all (answers : List Answer)
  /-- The request needs a guard, and there is none. -/
  | noGuard
  | panicked (message : String)

/-- The answer with a value of an access. -/
def Answer.ofValue (value? : Option Int64) : Answer :=
  (value?.map value).getD done

def Guarded.program : Guarded → Action Int64 Answer
  | wait timeout => Answer.ended <$> Action.wait timeout
  | waitSeconds seconds => Answer.ended <$> Action.waitSeconds (seconds.map Decimal.ofFloat)
  | waitUntil timeout condition => do
    let (result, tests) ← Action.waitUntil timeout condition.test
    return .met result (if Timeout.isBrief timeout then none else some tests)
  | signal => Answer.truth <$> Action.signal
  | broadcast => Answer.count <$> Action.broadcast
  | hasWaiters => Answer.truth <$> Action.hasWaiters
  | waiterCount => Answer.count <$> Action.waiterCount
  | get => do return .ofValue ((← Action.access id).map (·.2))
  | set value => do return .ofValue ((← Action.access fun _ => value).map (·.1))
  | add change => do return .ofValue ((← Action.access (· + change)).map (·.2))
  | describe => do
    let values ← Action.access id
    return .text ((values.map fun (_, v) => toString v.toInt).getD "")
  | sameMonitor => return .truth true

/-- The diagnostic form of an interrupt handle. Which thread it belongs to is not shown. -/
def handleDiagnostic (pending : Bool) : Text.Diagnostic :=
  .parts "InterruptHandle"
    [("thread", .tuple "ThreadId" [.leaf "#"]), ("pending", .leaf (toString pending))]

/-- How a command ends: with the guards left on the stack, and an answer or the message of a
panic. -/
abbrev Outcome (α : Type) := Nat × Except String α

mutual

/-- Perform a command as thread `self` with a number of guards on its stack. `inside` tells that a
synchronized command is around it. -/
def Command.program (self guards : Nat) (inside : Bool) : Command → Action Int64 (Outcome Answer)
  | .lock => do
    Action.lock
    return (guards + 1, .ok .done)
  | .tryLock => do
    let entered ← Action.tryLock
    return (if entered then guards + 1 else guards, .ok (.truth entered))
  | .unlock =>
    match guards with
    | 0 => return (0, .ok (.truth false))
    | rest + 1 => do
      Action.unlock
      return (rest, .ok (.truth true))
  | .forget => return (guards - 1, .ok (.truth (0 < guards)))
  | .holds => do return (guards, .ok (.truth (← Action.holds)))
  | .synchronized body => do
    let (guards, answers) ← Action.synchronized (runAll self guards body)
    return (guards, answers.map .all)
  | .panic message => return (guards, .error message)
  | .guarded request =>
    if inside ∨ 0 < guards then do return (guards, .ok (← request.program))
    else return (guards, .ok .noGuard)
  | .alone request => do return (guards, .ok (← Action.synchronized request.program))
  | .describe pretty => do
    let shown := Monitor.diagnostic (fun v => .leaf (toString v.toInt)) (← Action.inspect)
    return (guards, .ok (.text (if pretty then shown.pretty else shown.compact)))
  | .fence => return (guards, .ok .done)
  | .interrupt target message => do
    Action.interrupt target message
    return (guards, .ok .done)
  | .isInterrupted => do
    let own ← Action.isInterrupted self
    return (guards, .ok (.pending own (← Action.isInterrupted self)))
  | .takeInterrupt => do return (guards, .ok (.message (← Action.takeInterrupt)))
  | .handle target => do
    let pending ← Action.isInterrupted target
    return (guards, .ok (.handle (handleDiagnostic pending).compact pending (target = self)))

/-- Perform the commands inside a synchronized one, up to a panic. -/
def runAll (self guards : Nat) : List Command → Action Int64 (Outcome (List Answer))
  | [] => return (guards, .ok [])
  | command :: rest => do
    let (guards, answer) ← command.program self guards true
    match answer with
    | .error message => return (guards, .error message)
    | .ok answer =>
      let (guards, answers) ← runAll self guards rest
      return (guards, answers.map (answer :: ·))

end

mutual

/-- The number of commands in a command. -/
def Command.size : Command → Nat
  | .synchronized body => sizes body + 1
  | _ => 1

/-- The number of commands in a list. -/
def sizes : List Command → Nat
  | [] => 0
  | command :: rest => command.size + sizes rest

end

end Interlock.Session

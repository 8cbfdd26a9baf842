import Interlock.Monitor.Settings
import Interlock.Session.Command

/-!
# Sessions

A session is a monitor with a fixed number of threads and runs in steps. A step gives one command
to one idle thread and lets the threads move in turn until none can. If a thread is then parked
with a deadline at most a second away, the clock is set to the earliest such deadline and the
threads move on; so brief timeouts run out within the step, and the clock stands still otherwise.

Threads that compete for the lock win it in the order of the round. The wait set is first in,
first out whatever that order is.
-/

namespace Interlock

open Session in
/-- A monitor and the threads that take commands. -/
structure Session where
  workers : Nat
  /-- The monitor and what each thread is doing. -/
  system : System (Monitor.shared Int64) (Outcome Answer)
  /-- The number of guards on each thread's stack. -/
  guards : Table Nat := {}
  /-- The number of commands given so far, those inside others included. -/
  given : Nat := 0

namespace Session

/-- What a step shows: the answers of the commands that ended, and the blocked threads, both in
the order of the threads. -/
structure Report where
  /-- Threads whose command ended, with its answer. -/
  finished : List (Nat × Answer)
  blocked : List Nat

def start (workers : Nat) (value : Int64) (settings : Monitor.Settings := {}) : Session :=
  { workers, system := { state := Monitor.new value settings } }

/-- The earliest deadline at most a second away of a parked thread. -/
def briefDeadline? (s : Session) : Option Nat :=
  let now := s.system.state.clock
  let deadlines := (List.range s.workers).filterMap fun t =>
    match s.system.threads.get t with
    | .busy stage _ => stage.parkedUntil
    | .idle => none
  (deadlines.filter (· ≤ now + Timeout.second)).min?

/-- A number of rounds after which the threads have come to rest, for any commands. -/
def rounds (s : Session) : Nat :=
  let meetings := (s.workers + 1) * (s.given + 1)
  (s.system.state.lock.spinLimit + 100) * meetings * meetings

/-- Let the threads move until none can, and then again after each brief deadline, `fuel` of them
at most. -/
def settle (s : Session) (results : Array (Nat × Outcome Answer)) :
    Nat → Session × Array (Nat × Outcome Answer)
  | 0 => (s, results)
  | fuel + 1 =>
    let (system, results) := s.system.settle s.rounds (List.range s.workers) results
    let s := { s with system }
    match s.briefDeadline? with
    | none => (s, results)
    | some moment =>
      let system := s.system.elapse (moment - s.system.state.clock)
      { s with system }.settle results fuel

/-- The answer of a command that has ended. -/
def Answer.ofOutcome : Except String Answer → Answer
  | .ok answer => answer
  | .error reason => .panicked reason

/-- Keep the guards that the ended commands have left. -/
def collect (s : Session) (results : List (Nat × Outcome Answer)) : Session :=
  { s with guards := results.foldl (fun guards (t, left, _) => guards.set t left) s.guards }

/-- The threads in the middle of a command. -/
def blocked (s : Session) : List Nat :=
  (List.range s.workers).filter fun t => !(s.system.threads.get t).isIdle

/-- Give a command to a thread and let the threads come to rest. `none` if the thread is not
idle. -/
def command (s : Session) (t : Nat) (c : Command) : Option (Session × Report) :=
  if (s.system.threads.get t).isIdle then
    let (system, result) := s.system.assign t (c.program t (s.guards.get t) false)
    let s := { s with system, given := s.given + c.size }
    let first := (result.map fun r => (t, r)).toArray
    let (s, results) := s.settle first (s.given + 1)
    let finished := results.toList.mergeSort fun a b => a.1 ≤ b.1
    let s := s.collect finished
    some (s, ⟨finished.map fun (t, _, answer) => (t, .ofOutcome answer), s.blocked⟩)
  else none

/-- The value at the end, unless a thread is blocked. -/
def final (s : Session) : Option Int64 :=
  if s.blocked.isEmpty then some s.system.state.value else none

end Session

end Interlock

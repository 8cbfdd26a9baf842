import Interlock.Program
import Interlock.Table

/-!
# Threads around a shared object

A shared object answers calls, but not in one go: a call in progress is a *stage*, and `advance`
performs one indivisible access for it. A system is the object together with any number of threads,
each idle or in the middle of a program. One step of a system is one access by one thread, so the
reachable states are those of every interleaving of accesses.

The system itself is deterministic once the schedule is known: which thread moves, and what the
environment chose for it (`Chance`), are arguments. `settle` is one such schedule, round robin.
-/

namespace Interlock

/-- What the environment decides about one access. -/
structure Chance where
  /-- An access that may fail or return for no reason does so. -/
  spurious : Bool := false
  /-- Which of several candidates a wake-up reaches. -/
  pick : Nat := 0
  deriving Repr, DecidableEq

/-- A call after one of its accesses. -/
inductive Progress (τ ρ : Type) where
  | ongoing (stage : τ)
  | finished (reply : ρ)
  deriving Repr

/-- An object that threads share. `advance` is one indivisible access of a call; it is `none`
while the calling thread is blocked. -/
structure Shared where
  State : Type
  Call : Type
  /-- What a thread is told when its call returns. -/
  Reply : Type
  Stage : Type
  /-- The stage of a call before its first access. -/
  enter : Call → Stage
  /-- The next access of a call by the given thread. -/
  advance : Nat → Chance → State → Stage → Option (State × Progress Stage Reply)
  /-- What an amount of time does to the state while no thread acts. -/
  elapse : Nat → State → State := fun _ state => state

namespace Shared

/-- A program of calls on an object. -/
abbrev Action (O : Shared) (β : Type) := Program O.Call O.Reply β

end Shared

/-- What a thread is doing. -/
inductive Activity (O : Shared) (β : Type) where
  | idle
  | busy (stage : O.Stage) (next : O.Reply → O.Action β)

namespace Activity

variable {O : Shared} {β : Type}

instance : Inhabited (Activity O β) := ⟨idle⟩

/-- Whether the thread has nothing left to do. -/
def isIdle : Activity O β → Bool
  | idle => true
  | busy .. => false

/-- The activity that runs a program, and its result if it makes no call at all. -/
def ofProgram : O.Action β → Activity O β × Option β
  | .done result => (idle, some result)
  | .call request next => (busy (O.enter request) next, none)

end Activity

/-- An object and the threads that use it. -/
structure System (O : Shared) (β : Type) where
  state : O.State
  threads : Table (Activity O β) := {}

namespace System

variable {O : Shared} {β : Type}

/-- Let thread `t` begin a program. -/
def assign (s : System O β) (t : Nat) (program : O.Action β) : System O β × Option β :=
  let (activity, result) := Activity.ofProgram program
  ({ s with threads := s.threads.set t activity }, result)

/-- One access by thread `t`, with the result of its program if that ends here. `none` if the
thread is idle or blocked. -/
def step (s : System O β) (t : Nat) (chance : Chance) : Option (System O β × Option β) :=
  match s.threads.get t with
  | .idle => none
  | .busy stage next =>
    match O.advance t chance s.state stage with
    | none => none
    | some (state, .ongoing stage) =>
      some ({ state, threads := s.threads.set t (.busy stage next) }, none)
    | some (state, .finished reply) =>
      let (activity, result) := Activity.ofProgram (next reply)
      some ({ state, threads := s.threads.set t activity }, result)

def elapse (s : System O β) (time : Nat) : System O β :=
  { s with state := O.elapse time s.state }

/-- A round: every thread of the list moves once if it can. The flag tells whether one did. -/
def round (s : System O β) (results : Array (Nat × β)) (moved : Bool) :
    List Nat → System O β × Array (Nat × β) × Bool
  | [] => (s, results, moved)
  | t :: rest =>
    match s.step t {} with
    | none => s.round results moved rest
    | some (s, none) => s.round results true rest
    | some (s, some result) => s.round (results.push (t, result)) true rest

/-- Rounds until nobody can move, `fuel` of them at most, and the results in the order in which
the programs ended. -/
def settle (fuel : Nat) (ts : List Nat) (s : System O β) (results : Array (Nat × β) := #[]) :
    System O β × Array (Nat × β) :=
  match fuel with
  | 0 => (s, results)
  | fuel + 1 =>
    match s.round results false ts with
    | (s, results, true) => s.settle fuel ts results
    | (s, results, false) => (s, results)

/-- A result with the thread that it comes from, if there is one. -/
def tagged (t : Nat) (result : Option β) : List (Nat × β) :=
  (result.map fun b => (t, b)).toList

/-- What some schedule reaches: idle threads begin programs that they are allowed to, threads take
accesses, and time passes. The list holds the results of the programs that have ended, in order. -/
inductive Reaches (allowed : Nat → O.Action β → Prop) (s : System O β) :
    System O β → List (Nat × β) → Prop where
  | start : Reaches allowed s s []
  | assign {u : System O β} {results : List (Nat × β)} (t : Nat) (program : O.Action β)
      (before : Reaches allowed s u results) (free : (u.threads.get t).isIdle)
      (may : allowed t program) :
      Reaches allowed s (u.assign t program).1 (results ++ tagged t (u.assign t program).2)
  | step {u v : System O β} {results : List (Nat × β)} {result : Option β} (t : Nat)
      (chance : Chance) (before : Reaches allowed s u results)
      (moves : u.step t chance = some (v, result)) :
      Reaches allowed s v (results ++ tagged t result)
  | elapse {u : System O β} {results : List (Nat × β)} (time : Nat)
      (before : Reaches allowed s u results) : Reaches allowed s (u.elapse time) results

end System

end Interlock

import Interlock.System

/-!
# Races

In a race every thread has one program, all begin at once, and the threads move in turn until
none can.
-/

namespace Interlock.System

variable {O : Shared} {β : Type}

/-- Let thread `t` and the following ones begin the programs of a list. -/
def assignAll (s : System O β) (results : Array (Nat × β)) (t : Nat) :
    List (O.Action β) → System O β × Array (Nat × β)
  | [] => (s, results)
  | program :: rest =>
    let (s, result) := s.assign t program
    s.assignAll (results ++ tagged t result) (t + 1) rest

/-- The state after a race of at most `rounds` rounds, and the results in the order of the
threads. -/
def race (rounds : Nat) (state : O.State) (programs : List (O.Action β)) : O.State × List β :=
  let start : System O β := { state }
  let (s, results) := start.assignAll #[] 0 programs
  let (s, results) := s.settle rounds (List.range programs.length) results
  (s.state, (results.toList.mergeSort fun a b => a.1 ≤ b.1).map (·.2))

end Interlock.System

import Interlock.Monitor.Action

/-!
# Bounded queues

A bounded queue is a monitor around a list. Putting waits until there is room, taking waits until
there is an item, and both notify every waiting thread after the change.
-/

namespace Interlock.BoundedQueue

open Monitor

variable {α : Type}

abbrev Action (α β : Type) := Monitor.Action (List α) β

/-- Append an item once fewer than `capacity` are queued. A cancelled wait appends nothing. -/
def put (capacity : Nat) (item : α) : Action α (Except Fault Unit) :=
  Action.synchronized do
    let (room, _) ← Action.waitUntil none fun queue => (queue.length < capacity, queue)
    match room with
    | .error fault => return .error fault
    | .ok _ =>
      let _ ← Action.access (· ++ [item])
      let _ ← Action.broadcast
      return .ok ()

/-- Take out the first item once there is one. A cancelled wait takes nothing. -/
def take : Action α (Except Fault (Option α)) :=
  Action.synchronized do
    let (filled, _) ← Action.waitUntil none fun queue => (!queue.isEmpty, queue)
    match filled with
    | .error fault => return .error fault
    | .ok _ =>
      let values ← Action.access List.tail
      let _ ← Action.broadcast
      return .ok (values.bind fun (queue, _) => queue.head?)

end Interlock.BoundedQueue

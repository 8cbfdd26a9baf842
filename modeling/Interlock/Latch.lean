import Interlock.Monitor.Action

/-!
# Countdown latches

A latch is a monitor beside a count. Counting down changes the count in one access, without the
lock, and stops at zero; a thread that finds or makes it zero notifies every waiting thread.
Waiting ends once the count is zero.
-/

namespace Interlock.Latch

open Monitor

abbrev Action (β : Type) := Monitor.Action Int64 β

def decreased (count : Int64) : Int64 :=
  if 0 < count then count - 1 else 0

/-- Count down, and open the latch at zero. -/
def countDown : Action Unit := do
  let values ← Action.access decreased
  if values.any fun (_, after) => after = 0 then
    let _ ← Action.synchronized Action.broadcast
    return ()

/-- Wait until the count is zero; false if the time ran out first. -/
def wait (timeout : Option Nat) : Action (Except Fault Bool) := do
  let (result, _) ← Action.synchronized (Action.waitUntil timeout fun count => (count = 0, count))
  return result

def count : Action Int64 := do
  let values ← Action.access id
  return (values.map (·.2)).getD 0

end Interlock.Latch

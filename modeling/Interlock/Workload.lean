import Interlock.BoundedQueue
import Interlock.FieldSet
import Interlock.Latch
import Interlock.Monitor.Settings
import Interlock.Register.Counter
import Interlock.Register.Field
import Interlock.Register.Flag
import Interlock.Slot.Basic
import Interlock.System.Race

/-!
# Workloads

A workload is a number of threads that all do the same to one object, so that the outcome does not
depend on how their accesses interleave. Each one is run as a race and answers with what all
interleavings agree on.
-/

namespace Interlock

/-- The size of a workload. -/
structure Workload where
  threads : Nat := 1
  /-- How often each thread repeats its operation. -/
  per : Nat := 1
  start : Int64 := 0
  step : Int64 := 1
  deriving Repr

namespace Workload

/-- A number of rounds after which `operations` accesses with retries have ended. -/
def rounds (operations : Nat) : Nat :=
  (operations + 10) * (operations + 10)

/-- The number of operations of all threads. -/
def total (w : Workload) : Nat :=
  w.threads * w.per

/-- Race the same program, with the thread's number, on an object. -/
def race {O : Shared} {β : Type} (w : Workload) (effort : Nat) (state : O.State)
    (program : Nat → O.Action β) : O.State × List β :=
  System.race (effort * rounds w.total) state ((List.range w.threads).map program)

def repeated {κ ρ : Type} (w : Workload) (operation : Nat → Program κ ρ Unit) :
    Program κ ρ Unit :=
  Program.fold (fun _ i => operation i) () (List.range w.per)

/-- Repeat an operation and count how often it reports success. -/
def wins {κ ρ : Type} (w : Workload) (operation : Nat → Program κ ρ Bool) : Program κ ρ Nat :=
  Program.fold (fun won i => do return if ← operation i then won + 1 else won) 0 (List.range w.per)

/-- The successes of all threads together. -/
def tally (won : List Nat) : Nat :=
  won.foldl (· + ·) 0

/-- Drop the answer of an operation. -/
def quietly {κ ρ β : Type} (operation : Program κ ρ β) : Program κ ρ Unit := do
  let _ ← operation
  return ()

/-! ## Counters -/

/-- The final value of a counter on which all threads repeat an operation. -/
def counter (w : Workload) (operation : Counter.Action Unit) : Int64 :=
  (race (O := Register.shared Int64) w 8 w.start fun _ => w.repeated fun _ => operation).1

def additions (w : Workload) : Int64 :=
  w.counter (quietly (Counter.incrementBy w.step))

def subtractions (w : Workload) : Int64 :=
  w.counter (quietly (Counter.decrementBy w.step))

/-- All threads add, and take back all but one. -/
def mixed (w : Workload) : Int64 :=
  w.counter do
    quietly (Counter.incrementBy w.step)
    quietly Counter.decrement
    quietly Counter.increment
    quietly (Counter.decrementBy (w.step - 1))

def updates (w : Workload) : Int64 :=
  w.counter (quietly (Counter.update (· + w.step)))

/-- The final value, and the successes, where an operation can refuse. -/
def checked (w : Workload) (operation : Counter.Action (Except Fault Int64)) : Int64 × Nat :=
  let (value, won) := race (O := Register.shared Int64) w 8 w.start fun _ =>
    w.wins fun _ => do return (← operation).isOk
  (value, tally won)

/-- All threads add unless the sum is out of range. -/
def checkedAdditions (w : Workload) : Int64 × Nat :=
  w.checked (Counter.checkedIncrementBy w.step)

/-- All threads subtract unless the difference is out of range. -/
def checkedSubtractions (w : Workload) : Int64 × Nat :=
  w.checked (Counter.checkedDecrementBy w.step)

/-- The `i`-th value from the start. -/
def rung (w : Workload) (i : Nat) : Int64 :=
  w.start + Int64.ofNat i

/-- All threads climb from each value to the next: whether no rung was won twice, and the value
tells how many were won. -/
def ladder (w : Workload) : Bool :=
  let (value, won) := race (O := Register.shared Int64) w 8 w.start fun _ =>
    w.wins fun i => Counter.compareAndSet (w.rung i) (w.rung (i + 1))
  tally won ≤ w.per && value == w.rung (tally won)

/-! ## Slots -/

/-- Each thread tries once to replace the start value by one of its own: how many did, and whether
the value has changed. -/
def election (w : Workload) : Nat × Bool :=
  let (slot, won) := race (O := Slot.shared Int64) w 8 (Slot.new w.start) fun t =>
    Slot.compareAndSet w.start (w.rung (t + 1))
  (won.countP id, slot.held.value != w.start)

/-- All threads update the contents. -/
def slotUpdates (w : Workload) : Int64 :=
  (race (O := Slot.shared Int64) w 8 (Slot.new w.start) fun _ =>
    w.repeated fun _ => quietly (Slot.update (· + w.step))).1.held.value

/-- All threads try to add one: whether the contents tell how often that was done. -/
def slotAttempts (w : Workload) : Bool :=
  let (slot, won) := race (O := Slot.shared Int64) w 8 (Slot.new w.start) fun _ =>
    w.wins fun _ => do return (← Slot.tryUpdate (· + 1)).isOk
  slot.held.value == w.rung (tally won)

def letter (t : Nat) : Char :=
  Char.ofNat ('a'.toNat + t)

/-- All threads append their letters: how many of each there are, and of all. -/
def letters (w : Workload) : List Nat × Nat :=
  let slot := (race (O := Slot.shared String) w 8 (Slot.new "") fun t =>
    w.repeated fun _ => quietly (Slot.update (·.push (letter t)))).1
  let text := slot.held.value.toList
  ((List.range w.threads).map fun t => text.count (letter t), text.length)

/-- All threads swap in numbers of their own: the sum of all that came out and of the last. -/
def swaps (w : Workload) : Int64 :=
  let (slot, sums) := race (O := Slot.shared Int64) w 8 (Slot.new w.start) fun t =>
    Program.fold (fun sum i => do return sum + (← Slot.getAndSet (Int64.ofNat (t * w.per + i))))
      (0 : Int64) (List.range w.per)
  sums.foldl (· + ·) slot.held.value

/-! ## Flags and fields -/

/-- All threads raise a flag, and when all are done all lower it: its final state, and how many
raised and how many lowered it. -/
def transitions (w : Workload) : Bool × Nat × Nat :=
  let (raised, up) := race (O := Register.shared Bool) w 8 false fun _ => w.wins fun _ => Flag.raise
  let (lowered, down) := race (O := Register.shared Bool) w 8 raised fun _ =>
    w.wins fun _ => Flag.lower
  (lowered, tally up, tally down)

def fieldUpdates (w : Workload) : Int64 :=
  (race (O := Register.shared Int64) w 8 w.start fun _ =>
    w.repeated fun _ => quietly (Field.update (· + w.step))).1

/-- All threads update a field of four numbers. -/
def wideUpdates (w : Workload) : List Int64 :=
  (race (O := Register.shared (List Int64)) w 8 (List.replicate 4 w.start) fun _ =>
    w.repeated fun _ => quietly (Field.update (·.map (· + w.step)))).1

/-- Values published one by one through a declared field and taken out of it. -/
def published (w : Workload) : Except Fault (List Int64) := do
  let empty : FieldSet Int64 ← FieldSet.declare ["value"]
  let (_, taken) ← (List.range w.per).foldlM (fun (fields, taken) i => do
    let fields ← FieldSet.set fields "value" (w.rung i)
    let (content, fields) ← FieldSet.take fields "value"
    return (fields, taken ++ content.toList)) (empty, [])
  return taken

/-! ## Monitors -/

/-- How many rounds an operation on a monitor may take. -/
def effort (settings : Monitor.Settings) : Nat :=
  settings.spinLimit.toNat + 100

/-- All threads add on a level of the lock, and again on a level inside it. -/
def nestedAdditions (w : Workload) (settings : Monitor.Settings := {}) : Int64 :=
  let add : Monitor.Action Int64 Unit := quietly (Monitor.Action.access (· + w.step))
  let start := Monitor.new w.start settings
  (race (O := Monitor.shared Int64) w (effort settings) start fun _ =>
    w.repeated fun _ => Monitor.Action.synchronized do
      add
      Monitor.Action.synchronized add).1.value

/-- All threads put numbers of their own into a queue and one more thread takes all out: the
numbers as they were taken, in ascending order if they came from several threads. -/
def queued (w : Workload) (capacity : Nat) (settings : Monitor.Settings := {}) : List Int64 :=
  let producer (t : Nat) : BoundedQueue.Action Int64 (List Int64) := do
    w.repeated fun i => quietly (BoundedQueue.put capacity (w.rung (t * w.per + i)))
    return []
  let consumer : BoundedQueue.Action Int64 (List Int64) := do
    let taken ← Program.fold (fun (taken : Array Int64) _ => do
      match ← BoundedQueue.take with
      | .ok (some item) => return taken.push item
      | _ => return taken) #[] (List.range w.total)
    return taken.toList
  let start : Monitor (List Int64) := Monitor.new [] settings
  let (_, taken) := System.race (O := Monitor.shared (List Int64))
    (effort settings * (w.threads + 1) * rounds w.total) start
    ((List.range w.threads).map producer ++ [consumer])
  let items := taken.flatten
  if 1 < w.threads then items.mergeSort (· ≤ ·) else items

/-- Threads count a latch down and one more thread waits for it: whether it was released, and the
count at the end. -/
def released (w : Workload) (settings : Monitor.Settings := {}) : Bool × Int64 :=
  let counting : Latch.Action Bool := do
    Latch.countDown
    return true
  let waiting : Latch.Action Bool := do return (← Latch.wait none).toOption.getD false
  let start := Monitor.new (Int64.ofNat w.threads) settings
  let (monitor, results) := System.race (O := Monitor.shared Int64)
    (effort settings * rounds w.threads) start
    (waiting :: List.replicate w.threads counting)
  (results.length == w.threads + 1 && results.all id, monitor.value)

end Workload

end Interlock

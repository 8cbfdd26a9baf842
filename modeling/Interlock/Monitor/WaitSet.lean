import Interlock.Table

/-!
# Wait sets

A wait set is a first-in first-out queue of nodes, one for each wait in progress. It is linked: the
set knows its first and last node and each node knows the next one. A node that has left the queue
keeps its old link, which nobody follows any more.

`toList` follows the links. `push`, `remove`, `pop`, `popAll`, `count` and `isEmpty` are each one
indivisible operation; walks are bounded by the number of nodes ever made.
-/

namespace Interlock

/-- The entry of one wait. -/
structure WaitNode where
  thread : Nat := 0
  next : Option Nat := none
  /-- Whether a notification has taken the node out of the queue. -/
  notified : Bool := false
  deriving Repr, DecidableEq, Inhabited

/-- A queue of nodes. -/
structure WaitSet where
  head : Option Nat := none
  tail : Option Nat := none
  nodes : Table WaitNode := {}
  /-- How many nodes have been made; the next one gets this number. -/
  made : Nat := 0
  deriving Repr, Inhabited

namespace WaitSet

/-- Make a node for a thread, outside the queue. -/
def make (s : WaitSet) (thread : Nat) : Nat × WaitSet :=
  (s.made, { s with nodes := s.nodes.set s.made { thread }, made := s.made + 1 })

/-- Let node `n` be followed by `next`. -/
def link (s : WaitSet) (n : Nat) (next : Option Nat) : WaitSet :=
  { s with nodes := s.nodes.modify n fun node => { node with next } }

/-- Whether node `n` has been notified. -/
def isNotified (s : WaitSet) (n : Nat) : Bool :=
  (s.nodes.get n).notified

/-- The nodes from `cursor` on, `fuel` of them at most. -/
def walk (s : WaitSet) : Nat → Option Nat → List Nat
  | 0, _ => []
  | _, none => []
  | fuel + 1, some n => n :: s.walk fuel (s.nodes.get n).next

/-- The queued nodes, the longest waiting first. -/
def toList (s : WaitSet) : List Nat :=
  s.walk s.made s.head

def push (s : WaitSet) (n : Nat) : WaitSet :=
  let s := s.link n none
  match s.tail with
  | some last => { s.link last (some n) with tail := some n }
  | none => { s with head := some n, tail := some n }

/-- The node before `n` when walking from `cursor`, which `before` precedes: `some none` if `n` is
the first node, `none` if the walk does not meet `n`. -/
def predecessor? (s : WaitSet) (n : Nat) : Nat → Option Nat → Option Nat → Option (Option Nat)
  | 0, _, _ => none
  | _, _, none => none
  | fuel + 1, before, some cursor =>
    if cursor = n then some before
    else s.predecessor? n fuel (some cursor) (s.nodes.get cursor).next

/-- Take node `n` out of the queue, and tell whether it was there. -/
def remove (s : WaitSet) (n : Nat) : WaitSet × Bool :=
  match s.predecessor? n s.made none s.head with
  | none => (s, false)
  | some before =>
    let next := (s.nodes.get n).next
    let unlinked := match before with
      | some p => s.link p next
      | none => { s with head := next }
    ({ unlinked with tail := if s.tail = some n then before else s.tail }, true)

/-- Take out the first node, mark it as notified, and return it with its thread. -/
def pop (s : WaitSet) : Option (WaitSet × Nat) :=
  match s.head with
  | none => none
  | some first =>
    let node := s.nodes.get first
    some ({ s with
      head := node.next
      tail := if node.next.isNone then none else s.tail
      nodes := s.nodes.set first { node with notified := true } }, node.thread)

/-- Take out nodes until none is left, `fuel` of them at most, and return their threads. -/
def popMany (s : WaitSet) : Nat → WaitSet × List Nat
  | 0 => (s, [])
  | fuel + 1 =>
    match s.pop with
    | none => (s, [])
    | some (s, thread) =>
      let (s, threads) := s.popMany fuel
      (s, thread :: threads)

/-- Take out all nodes, and return their threads. -/
def popAll (s : WaitSet) : WaitSet × List Nat :=
  s.popMany s.made

def count (s : WaitSet) : Nat :=
  s.toList.length

def isEmpty (s : WaitSet) : Bool :=
  s.head.isNone

end WaitSet

end Interlock

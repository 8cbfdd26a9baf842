import Interlock.Fault
import Interlock.Register.Basic

/-!
# Slots

A slot shares one immutable allocation. Threads read the allocation and exchange it by identity:
two allocations with equal contents are different. What looks like an exchange by value is a read,
a comparison and an exchange by identity, which starts again if the allocation was replaced in
between.

An allocation is a `Handle`: its number, which is never given out twice, and its contents. The
accesses of a slot are those of a register of handles.
-/

namespace Interlock

/-- A reference to an allocation. -/
structure Handle (α : Type) where
  id : Nat
  value : α
  deriving Repr

/-- Handles are equal if they refer to the same allocation. -/
instance {α : Type} : BEq (Handle α) := ⟨fun a b => a.id == b.id⟩

/-- A slot: the allocation it holds, and the number of allocations made so far. -/
structure Slot (α : Type) where
  held : Handle α
  /-- How many allocations have been made; the next one gets this number. -/
  made : Nat
  deriving Repr

namespace Slot

open Register

variable {α : Type}

/-- A slot around a first allocation. -/
def new (value : α) : Slot α :=
  { held := ⟨0, value⟩, made := 1 }

/-- Allocate a value without storing it. -/
def allocate (s : Slot α) (value : α) : Handle α × Slot α :=
  (⟨s.made, value⟩, { s with made := s.made + 1 })

/-- One access to the slot's handle. -/
def access (s : Slot α) (a : Access (Handle α)) : Slot α × Transition (Handle α) :=
  let transition := a.apply s.held
  ({ s with held := transition.left }, transition)

/-- What a thread can ask of a slot. -/
inductive Operation (α : Type) where
  | once (access : Access (Handle α))
  | put (value : α)
  /-- Store a value in a new allocation and return the previous one. -/
  | replace (value : α)
  /-- Store a value in a new allocation if the contents pass a test, starting again if another
  writer comes in between. -/
  | putIf (test : α → Bool) (value : α)
  /-- Replace the contents `v` by `f v` in a new allocation, starting again if another writer
  comes in between. -/
  | update (f : α → α)
  | tryUpdate (f : α → α)

/-- The operation in one piece, on a slot that nobody else touches. -/
def Operation.apply (s : Slot α) : Operation α → Slot α × Transition (Handle α)
  | once a => s.access a
  | put value | replace value =>
    let (handle, s) := s.allocate value
    s.access (.swap handle)
  | putIf test value =>
    if test s.held.value then
      let (handle, s) := s.allocate value
      s.access (.swap handle)
    else (s, ⟨s.held, s.held, false⟩)
  | update f | tryUpdate f =>
    let (handle, s) := s.allocate (f s.held.value)
    s.access (.swap handle)

/-- An operation in progress. -/
inductive Stage (α : Type) where
  | single (access : Access (Handle α))
  | putting (value : α)
  | replacing (value : α)
  /-- About to read the contents for a conditional operation. -/
  | reading (plan : Operation α)
  /-- About to exchange the allocation that was read for a new one with the given contents. -/
  | installing (plan : Operation α) (seen : Handle α) (value : α)

namespace Stage

/-- The stage before the first access. -/
def ofOperation : Operation α → Stage α
  | .once a => single a
  | .put value => putting value
  | .replace value => replacing value
  | plan => reading plan

/-- What follows the read of an allocation. -/
def decide (plan : Operation α) (seen : Handle α) : Progress (Stage α) (Transition (Handle α)) :=
  match plan with
  | .putIf test value =>
    if test seen.value then .ongoing (installing plan seen value)
    else .finished ⟨seen, seen, false⟩
  | .update f | .tryUpdate f => .ongoing (installing plan seen (f seen.value))
  | _ => .finished ⟨seen, seen, false⟩

/-- What follows an exchange that found another allocation. -/
def afterLoss (plan : Operation α) (seen : Handle α) :
    Progress (Stage α) (Transition (Handle α)) :=
  match plan with
  | .tryUpdate _ => .finished ⟨seen, seen, false⟩
  | _ => .ongoing (reading plan)

def advance (s : Slot α) :
    Stage α → Slot α × Progress (Stage α) (Transition (Handle α))
  | single a =>
    let (s, transition) := s.access a
    (s, .finished transition)
  | putting value =>
    let (handle, s) := s.allocate value
    let (s, transition) := s.access (.store handle)
    (s, .finished transition)
  | replacing value =>
    let (handle, s) := s.allocate value
    let (s, transition) := s.access (.swap handle)
    (s, .finished transition)
  | reading plan => (s, decide plan s.held)
  | installing plan seen value =>
    let (handle, s) := s.allocate value
    let (s, transition) := s.access (.exchange seen handle)
    (s, if transition.accepted then .finished transition else afterLoss plan seen)

end Stage

abbrev shared (α : Type) : Shared where
  State := Slot α
  Call := Operation α
  Reply := Transition (Handle α)
  Stage := Stage α
  enter := Stage.ofOperation
  advance := fun _ _ s stage => some (stage.advance s)

/-- A program of operations on a slot. -/
abbrev Action (α β : Type) := Program (Operation α) (Transition (Handle α)) β

def get : Action α α :=
  .call (.once .load) fun t => .done t.seen.value

def load : Action α (Handle α) :=
  .call (.once .load) fun t => .done t.seen

def set (value : α) : Action α Unit :=
  .call (.put value) fun _ => .done ()

def storeHandle (handle : Handle α) : Action α Unit :=
  .call (.once (.store handle)) fun _ => .done ()

/-- Store an allocation and return the previous one. -/
def swapHandle (handle : Handle α) : Action α (Handle α) :=
  .call (.once (.swap handle)) fun t => .done t.seen

/-- Store `new` if the slot holds the very allocation `expected`. -/
def compareAndSetHandle (expected new : Handle α) : Action α Bool :=
  .call (.once (.exchange expected new)) fun t => .done t.accepted

/-- Store a value and return the previous one. -/
def getAndSet (value : α) : Action α α :=
  .call (.replace value) fun t => .done t.seen.value

/-- Store a value if the contents equal `expected`. -/
def compareAndSet [BEq α] (expected value : α) : Action α Bool :=
  .call (.putIf (· == expected) value) fun t => .done t.accepted

/-- Replace the contents by `f` of them and return the new contents. -/
def update (f : α → α) : Action α α :=
  .call (.update f) fun t => .done t.left.value

/-- Replace the contents by `f` of them unless another writer comes in between. -/
def tryUpdate (f : α → α) : Action α (Except Fault α) :=
  .call (.tryUpdate f) fun t =>
    .done (if t.accepted then .ok t.left.value else .error .concurrentUpdate)

def diagnostic (item : Text.Diagnostic) : Text.Diagnostic :=
  .tuple "AtomicCell" [item]

end Slot

end Interlock

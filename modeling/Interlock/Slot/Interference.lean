import Interlock.Slot.Basic

/-!
# A slot under interference

One thread performs an operation while another writes. The schedule is data: each time the
operation has read the allocation, at most one foreign write follows before its next access or
its answer.
-/

namespace Interlock.Slot

variable {α : Type}

/-- What another writer does. -/
inductive Write (α : Type) where
  | value (value : α)
  | handle (handle : Handle α)

/-- The effect of a foreign write. -/
def Write.apply (s : Slot α) : Write α → Slot α
  | value v => (Operation.apply s (.put v)).1
  | handle h => { s with held := h }

/-- The effect of a foreign write that may be absent. -/
def interfere (s : Slot α) (write : Option (Write α)) : Slot α :=
  match write with
  | none => s
  | some write => write.apply s

/-- The end of an operation under a schedule of foreign writes. -/
structure Settled (α : Type) where
  slot : Slot α
  transition : Transition (Handle α)
  /-- The contents that were read, in order. -/
  seen : List α

/-- Rounds of a conditional operation: read, foreign write, exchange, and again after a loss.
`none` if the operation still goes on when the schedule is used up. -/
def Operation.rounds (plan : Operation α) (s : Slot α) :
    List (Option (Write α)) → Option (Settled α)
  | [] => none
  | write :: writes =>
    let seen := s.held.value
    match (Stage.reading plan).advance s with
    | (s, .finished transition) => some ⟨interfere s write, transition, [seen]⟩
    | (s, .ongoing stage) =>
      match stage.advance (interfere s write) with
      | (s, .finished transition) => some ⟨s, transition, [seen]⟩
      | (s, .ongoing _) =>
        (plan.rounds s writes).map fun settled => { settled with seen := seen :: settled.seen }

/-- An operation under a schedule of foreign writes, after which it is left alone. -/
def Operation.settle (operation : Operation α) (s : Slot α) (writes : List (Option (Write α))) :
    Option (Settled α) :=
  match Stage.ofOperation operation with
  | .reading plan => plan.rounds s (writes ++ [none])
  | stage =>
    match stage.advance s with
    | (s, .finished transition) => some ⟨s, transition, []⟩
    | (_, .ongoing _) => none

/-- A program on a slot that nobody else touches. -/
def perform {β : Type} (s : Slot α) (program : Action α β) : Slot α × β :=
  program.run (fun s operation => operation.apply s) s

/-- A program whose operations all run under the same schedule of foreign writes, with the contents
that they read. -/
def performAmid {β : Type} (writes : List (Option (Write α))) (s : Slot α) :
    Action α β → Option (Slot α × β × List α)
  | .done result => some (s, result, [])
  | .call operation next => do
    let settled ← operation.settle s writes
    let (s, result, seen) ← performAmid writes settled.slot (next settled.transition)
    return (s, result, settled.seen ++ seen)

end Interlock.Slot

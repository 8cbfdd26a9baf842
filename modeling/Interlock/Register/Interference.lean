import Interlock.Register.Basic

/-!
# A register under interference

One thread performs an operation while another writes. The schedule is data: each time the
operation has read a value, at most one foreign write follows before its next access. `settle` runs
the stages of the operation under such a schedule and records the values that were read.
-/

namespace Interlock.Register

variable {α : Type} [BEq α]

/-- The end of an operation under a schedule of foreign writes. -/
structure Settled (α : Type) where
  held : α
  transition : Transition α
  /-- The values that the operation computed a successor for, in order. -/
  seen : List α

/-- The value computed on by an operation that is about to exchange. -/
def Stage.pending : Stage α → List α
  | trying _ seen _ => [seen]
  | _ => []

/-- Perform an access, then the next foreign write of the schedule if the operation goes on, and so
forth. `none` if the operation still goes on when the schedule is used up. -/
def Stage.settle (held : α) (stage : Stage α) : List (Option α) → Option (Settled α)
  | [] =>
    match stage.advance false held with
    | (held, .finished transition) => some ⟨held, transition, []⟩
    | (_, .ongoing _) => none
  | write :: writes =>
    match stage.advance false held with
    | (held, .finished transition) => some ⟨held, transition, []⟩
    | (held, .ongoing stage) =>
      (stage.settle (write.getD held) writes).map fun s =>
        { s with seen := stage.pending ++ s.seen }

/-- An operation under a schedule of foreign writes, after which it is left alone. -/
def Operation.settle (held : α) (operation : Operation α) (writes : List (Option α)) :
    Option (Settled α) :=
  (Stage.ofOperation operation).settle held (writes ++ [none])

/-- A program on a register that nobody else touches. -/
def perform {β : Type} (held : α) (program : Action α β) : α × β :=
  program.run (fun held operation =>
    let transition := operation.apply held
    (transition.left, transition)) held

/-- A program whose operations all run under the same schedule of foreign writes, with the values
that they computed on. -/
def performAmid {β : Type} (writes : List (Option α)) (held : α) :
    Action α β → Option (α × β × List α)
  | .done result => some (held, result, [])
  | .call operation next => do
    let s ← operation.settle held writes
    let (held, result, seen) ← performAmid writes s.held (next s.transition)
    return (held, result, s.seen ++ seen)

end Interlock.Register

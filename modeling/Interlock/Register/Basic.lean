import Interlock.System

/-!
# Registers

A register holds one value and allows four indivisible accesses: load, store, swap, and an exchange
that takes place only if the held value equals an expected one. Equality is that of the value type,
which may be coarser than identity.

An operation is one access, or a loop that reads a value, computes its successor and exchanges the
two, starting again from the value that a refused exchange found. Every operation answers with a
`Transition`: the value it took effect on and the value it left. A sequential register is the same
thing with every operation in one piece (`Operation.apply`).
-/

namespace Interlock

/-- What an operation did: the value that was held and the value it left. -/
structure Transition (α : Type) where
  /-- The value held when the operation took effect. -/
  seen : α
  left : α
  /-- Whether the operation did what it was asked to do. -/
  accepted : Bool
  deriving Repr

namespace Register

/-- One indivisible access. -/
inductive Access (α : Type) where
  | load
  | store (value : α)
  /-- Replace the value and read the previous one. -/
  | swap (value : α)
  /-- Replace the value if it equals `expected`. -/
  | exchange (expected new : α)
  deriving Repr

/-- The effect of one access on the held value. -/
def Access.apply {α : Type} [BEq α] (held : α) : Access α → Transition α
  | load => ⟨held, held, true⟩
  | store value | swap value => ⟨held, value, true⟩
  | exchange expected new =>
    if held == expected then ⟨held, new, true⟩ else ⟨held, held, false⟩

/-- What a thread can ask of a register. -/
inductive Operation (α : Type) where
  | once (access : Access α)
  /-- Replace the value `v` by `f v`, or leave it if `f` declines. -/
  | modify (f : α → Option α)

/-- The operation in one piece, on a value that nobody else touches. -/
def Operation.apply {α : Type} [BEq α] (held : α) : Operation α → Transition α
  | once access => access.apply held
  | modify f =>
    match f held with
    | some next => ⟨held, next, true⟩
    | none => ⟨held, held, false⟩

/-- An operation in progress. -/
inductive Stage (α : Type) where
  | single (access : Access α)
  | reading (f : α → Option α)
  /-- About to exchange the value that was read for its successor. -/
  | trying (f : α → Option α) (seen next : α)

namespace Stage

variable {α : Type}

/-- The stage before the first access. -/
def ofOperation : Operation α → Stage α
  | .once access => single access
  | .modify f => reading f

/-- The value was read: compute its successor, or answer that there is none. -/
def attempt (f : α → Option α) (seen : α) : Progress (Stage α) (Transition α) :=
  match f seen with
  | some next => .ongoing (trying f seen next)
  | none => .finished ⟨seen, seen, false⟩

/-- The next access. A loop's exchange may fail for no reason; it then starts again from the
value it found. -/
def advance [BEq α] (spurious : Bool) (held : α) : Stage α → α × Progress (Stage α) (Transition α)
  | single access =>
    let transition := access.apply held
    (transition.left, .finished transition)
  | reading f => (held, attempt f held)
  | trying f seen next =>
    let transition := (Access.exchange seen next).apply held
    if transition.accepted && !spurious then (transition.left, .finished transition)
    else (held, attempt f held)

end Stage

/-- The register as a shared object. -/
abbrev shared (α : Type) [BEq α] : Shared where
  State := α
  Call := Operation α
  Reply := Transition α
  Stage := Stage α
  enter := Stage.ofOperation
  advance := fun _ chance held stage => some (stage.advance chance.spurious held)

/-- A program of operations on a register. -/
abbrev Action (α β : Type) := Program (Operation α) (Transition α) β

end Register

end Interlock

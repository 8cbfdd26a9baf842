import Interlock.Register.Counter
import Interlock.Register.Field
import Interlock.Register.Interference
import Mathlib.Data.List.Chain

/-!
# Updates under a schedule of writes

An update goes through rounds: it is given a value, another writer may write, and it exchanges the
value for its successor. A round is lost if and only if the write differs from the value given, by
the equality that the register compares with; what was written is then the value of the next round.
So the writes alone decide how many rounds there are and what is given in each (`Course`), and the
successors that are computed in lost rounds leave no trace.

The equality need not be identity. The exchange of the last round may then replace a value that was
never given to the update and is only equal to the one that was.
-/

namespace Interlock.Register

variable {α : Type}

/-- The course of an update under a schedule of writes, one or none in each round. `same` tells
whether a write leaves the update undisturbed. -/
structure Course (same : α → α → Prop) (initial : α) (schedule : List (Option α))
    (moves : List α) (given : α) (last : Option α) : Prop where
  /-- The schedule begins with the writes that cost a round each and the one of the last round. -/
  scheduled : ∃ unused, schedule = moves.map some ++ last :: unused
  /-- In each lost round, a value has been written that differs from the one given. -/
  overtakes : (initial :: moves).IsChain fun seen written => ¬ same written seen
  /-- The last round is given what was written in the one before. -/
  latest : (initial :: moves).getLast? = some given
  /-- In the last round, nothing has been written that differs. -/
  keeps : ∀ written, last = some written → same written given

namespace Course

variable {same : α → α → Prop} {seen written given : α} {last : Option α} {moves : List α}
  {schedule : List (Option α)}

/-- A first round that is not lost is the only one. -/
theorem stays (keeps : ∀ written, last = some written → same written seen)
    (unused : List (Option α)) : Course same seen (last :: unused) [] seen last :=
  ⟨⟨unused, rfl⟩, .singleton seen, rfl, keeps⟩

/-- A first round that is lost comes before the rounds that begin with the value written in it. -/
theorem moves_on (differs : ¬ same written seen)
    (rest : Course same written schedule moves given last) :
    Course same seen (some written :: schedule) (written :: moves) given last := by
  obtain ⟨unused, scheduled⟩ := rest.scheduled
  refine ⟨⟨unused, congrArg (some written :: ·) scheduled⟩, ?_, ?_, rest.keeps⟩
  · exact List.isChain_cons_cons.mpr ⟨differs, rest.overtakes⟩
  · rw [List.getLast?_cons_cons]
    exact rest.latest

end Course

variable [BEq α]

/-- The stage of an update that has been given a value. -/
def updatingFrom (f : α → α) (given : α) : Stage α :=
  .trying (fun v => some (f v)) given (f given)

/-- The exchange of the last round, which replaces the value it finds. -/
theorem advance_of_same {held given : α} (same : held == given) (f : α → α) :
    (updatingFrom f given).advance false held =
      (f given, .finished ⟨held, f given, true⟩) := by
  simp [updatingFrom, Stage.advance, Access.apply, same]

/-- The exchange of a lost round, which gives the value it finds to the update. -/
theorem advance_of_differs {held given : α} (differs : ¬ (held == given)) (f : α → α) :
    (updatingFrom f given).advance false held = (held, .ongoing (updatingFrom f held)) := by
  simp [updatingFrom, Stage.advance, Access.apply, differs, Stage.attempt]

/-- The rounds of an update that has been given a first value. A schedule whose last round brings
no write is long enough. -/
theorem settle_updatingFrom [ReflBEq α] (given : α) (write : Option α) (later : List (Option α))
    (rests : (write :: later).getLast? = some none) :
    ∃ moves latest last,
      Course (fun a b => a == b) given (write :: later) moves latest last ∧
      ∀ f : α → α, (updatingFrom f given).settle (write.getD given) later =
        some ⟨f latest, ⟨last.getD latest, f latest, true⟩, moves⟩ := by
  -- each round takes one write of the schedule and goes on from the value that it has found
  induction later generalizing given write with
  | nil =>
    obtain rfl : write = none := Option.some.inj rests
    refine ⟨[], given, none, Course.stays nofun [], fun f => ?_⟩
    simp only [Stage.settle, Option.getD_none, advance_of_same BEq.rfl]
  | cons next later ih =>
    by_cases same : write.getD given == given
    · have keeps : ∀ written, write = some written → (written == given) = true := by
        rintro written rfl
        exact same
      refine ⟨[], given, write, Course.stays keeps _, fun f => ?_⟩
      simp only [Stage.settle, advance_of_same same]
    · cases write with
      | none => exact absurd BEq.rfl same
      | some written =>
        replace same : ¬ (written == given) := same
        rw [List.getLast?_cons_cons] at rests
        obtain ⟨moves, latest, last, course, settles⟩ := ih written next rests
        refine ⟨written :: moves, latest, last, course.moves_on same, fun f => ?_⟩
        simp only [Stage.settle, Option.getD_some, advance_of_differs same, settles, Option.map_some]
        rfl

/-- An update under a schedule of writes ends. The writes alone decide about its rounds. -/
theorem settle_update [ReflBEq α] (initial : α) (writes : List (Option α)) :
    ∃ moves given last,
      Course (fun a b => a == b) initial (writes ++ [none]) moves given last ∧
      ∀ f : α → α, (Operation.modify fun v => some (f v)).settle initial writes =
        some ⟨f given, ⟨last.getD given, f given, true⟩, initial :: moves⟩ := by
  obtain ⟨write, later, schedule⟩ : ∃ write later, writes ++ [none] = write :: later :=
    List.exists_cons_of_ne_nil (by simp)
  have rests : (write :: later).getLast? = some none := by
    rw [← schedule, List.getLast?_concat]
  obtain ⟨moves, given, last, course, settles⟩ := settle_updatingFrom initial write later rests
  refine ⟨moves, given, last, schedule ▸ course, fun f => ?_⟩
  have reads : (Stage.reading fun v => some (f v)).advance false initial =
      (initial, .ongoing (updatingFrom f initial)) := rfl
  rw [Operation.settle, schedule]
  simp only [Stage.ofOperation, Stage.settle, reads, settles, Option.map_some]
  rfl

/-- A program of one update under a schedule. -/
theorem performAmid_of_settles {β : Type} {operation : Operation α} {held : α}
    {writes : List (Option α)} {settled : Settled α}
    (settles : operation.settle held writes = some settled) (result : Transition α → β) :
    performAmid writes held (.call operation fun did => .done (result did)) =
      some (settled.held, result settled.transition, settled.seen) := by
  simp [performAmid, settles]

end Register

namespace Field

open Register

variable {α : Type} [BEq α]

/-- An update of a field under a schedule of writes. It is given the first value, and again what
was written, after exactly those writes that are not equal to the value given before, by the
equality of the type; it ends with the first round that brings no write or an equal one. What it
answers and leaves is `f` of the last value given. The value that this replaces is equal to the one
given, and identical if equality is identity. -/
theorem update_follows_schedule [EquivBEq α] (initial : α) (writes : List (Option α)) :
    ∃ moves given last,
      Course (fun a b => a == b) initial (writes ++ [none]) moves given last ∧
      (∀ f : α → α,
        performAmid writes initial (update f) = some (f given, f given, initial :: moves)) ∧
      ∃ replaced, (replaced == given) = true ∧ (LawfulBEq α → replaced = given) ∧
        ∀ f : α → α, (Operation.modify fun v => some (f v)).settle initial writes =
          some ⟨f given, ⟨replaced, f given, true⟩, initial :: moves⟩ := by
  obtain ⟨moves, given, last, course, settles⟩ := settle_update initial writes
  have equal : (last.getD given == given) = true := by
    cases last with
    | none => exact BEq.rfl
    | some written => exact course.keeps written rfl
  refine ⟨moves, given, last, course, fun f => performAmid_of_settles (settles f) _,
    last.getD given, equal, fun _ => eq_of_beq equal, settles⟩

/-- Letters that are equal if they differ in case only. -/
structure Letter where
  char : Char
  deriving DecidableEq

instance : BEq Letter := ⟨fun a b => a.char.toLower == b.char.toLower⟩

instance : EquivBEq Letter where
  rfl := BEq.rfl (α := Char)
  symm same := BEq.symm (α := Char) same
  trans first second := BEq.trans (α := Char) first second

/-- An update that goes on to the next letter. In the first round another letter is written, so a
second round follows; in this one the same letter is written in upper case, which is replaced
although it was never given. -/
theorem update_follows_schedule_upper :
    ∃ given last,
      Course (fun a b : Letter => a == b) ⟨'a'⟩ [some ⟨'p'⟩, some ⟨'P'⟩, some ⟨'z'⟩, none]
        [⟨'p'⟩] given last ∧
      performAmid [some ⟨'p'⟩, some ⟨'P'⟩, some ⟨'z'⟩] (⟨'a'⟩ : Letter)
        (update fun letter => ⟨Char.ofNat (letter.char.toNat + 1)⟩) =
          some (⟨'q'⟩, ⟨'q'⟩, [⟨'a'⟩, ⟨'p'⟩]) ∧
      ∃ replaced : Letter, replaced == given ∧ replaced = ⟨'P'⟩ ∧ given = ⟨'p'⟩ := by
  let writes : List (Option Letter) := [some ⟨'p'⟩, some ⟨'P'⟩, some ⟨'z'⟩]
  let next : Letter → Letter := fun letter => ⟨Char.ofNat (letter.char.toNat + 1)⟩
  obtain ⟨moves, given, last, course, performs, replaced, equal, -, settles⟩ :=
    update_follows_schedule (⟨'a'⟩ : Letter) writes
  have performed : performAmid writes ⟨'a'⟩ (update next) =
      some (⟨'q'⟩, ⟨'q'⟩, [⟨'a'⟩, ⟨'p'⟩]) := by decide
  have settled : (Operation.modify fun v => some (next v)).settle ⟨'a'⟩ writes =
      some ⟨⟨'q'⟩, ⟨⟨'P'⟩, ⟨'q'⟩, true⟩, [⟨'a'⟩, ⟨'p'⟩]⟩ := rfl
  have same := (settles next).symm.trans settled
  simp only [Option.some.injEq, Settled.mk.injEq, Transition.mk.injEq, List.cons.injEq] at same
  obtain ⟨-, ⟨rfl, -⟩, -, rfl⟩ := same
  have latest : given = ⟨'p'⟩ := (Option.some.inj course.latest).symm
  exact ⟨given, last, course, performed, _, equal, rfl, latest⟩

end Field

namespace Counter

open Register

/-- An update of a counter under a schedule of writes. It calls `f` with the first value, and once
more after exactly those calls during which a different value was written, each time with this
value; a write of the same value goes unnoticed. What it answers and leaves is `f` of the last
argument. -/
theorem update_follows_sets (initial : Int64) (writes : List (Option Int64)) :
    ∃ moves given last,
      Course (fun a b => a = b) initial (writes ++ [none]) moves given last ∧
      ∀ f : Int64 → Int64,
        performAmid writes initial (update f) = some (f given, f given, initial :: moves) := by
  obtain ⟨moves, given, last, course, settles⟩ := settle_update initial writes
  simp only [beq_iff_eq] at course
  exact ⟨moves, given, last, course, fun f => performAmid_of_settles (settles f) _⟩

example : performAmid [some 5, some 5, some 9] (0 : Int64) (update (· * 2)) =
    some (10, 10, [0, 5]) := by decide

end Counter

end Interlock

import Interlock.Proofs.Slot
import Interlock.Slot.Interference

/-!
# Conditional operations under a schedule of writes

An operation that looks before it writes goes through rounds: it reads the slot, another writer may
write, and it exchanges the allocation that it has read. A round is lost if and only if the write
puts a different allocation there (`Keeps` says that it does not), whatever the contents are. So
the rounds follow the schedule: `Overtakes` are the writes that cost a round each, and the first
write that does not is the last one (`Course`).

A write of a value makes an allocation. That it is a different one needs that the numbers of all
allocations around have been given out before (`Given`).
-/

namespace Interlock.Slot

open Register

variable {α : Type}

/-- The contents that a write leaves. -/
def Write.content : Write α → α
  | .value v => v
  | .handle h => h.value

/-- A write, if there is one, leaves the very allocation in place that is held. -/
def Keeps (held : Handle α) : Option (Write α) → Prop
  | none => True
  | some (.value _) => False
  | some (.handle h) => h.id = held.id

instance (held : Handle α) (write : Option (Write α)) : Decidable (Keeps held write) :=
  match write with
  | none => .isTrue trivial
  | some (.value _) => .isFalse not_false
  | some (.handle h) => inferInstanceAs (Decidable (h.id = held.id))

/-- The slot after a round in which a write has come in between. The allocation that was to be
installed is thrown away if it was in vain. -/
def afterRound (s : Slot α) (write : Option (Write α)) : Slot α :=
  { interfere s write with made := (interfere s write).made + 1 }

/-- The slot with a new allocation installed. -/
def renew (s : Slot α) (value : α) : Slot α :=
  { held := ⟨s.made, value⟩, made := s.made + 1 }

/-- Writers store allocations that exist. -/
def Given (s : Slot α) : List (Option (Write α)) → Prop
  | [] => True
  | write :: later =>
    (∀ h, write = some (.handle h) → h.id < s.made) ∧ (s.afterRound write).Given later

/-- Each of the writes comes after contents have been read that pass a test, and puts a different
allocation there. `t` is the slot after all of them. -/
def Overtakes (test : α → Prop) (s : Slot α) : List (Write α) → Slot α → Prop
  | [], t => t = s
  | write :: later, t =>
    test s.held.value ∧ ¬ Keeps s.held (some write) ∧
      (s.afterRound (some write)).Overtakes test later t

/-- The course of an operation under a schedule of writes: those that overtake it, and the one of
its last round, in which it has read `t`. -/
structure Course (test : α → Prop) (s : Slot α) (schedule : List (Option (Write α)))
    (moves : List (Write α)) (last : Option (Write α)) (t : Slot α) : Prop where
  scheduled : ∃ unused, schedule = moves.map some ++ last :: unused
  overtakes : s.Overtakes test moves t

/-- The contents that an operation reads which is overtaken by some writes. -/
def readings (s : Slot α) (moves : List (Write α)) : List α :=
  s.held.value :: moves.map Write.content

variable {s t : Slot α} {test : α → Prop} {moves : List (Write α)} {last write : Option (Write α)}
  {writes : List (Option (Write α))}

theorem content_of_write (s : Slot α) (write : Write α) :
    (interfere s (some write)).held.value = write.content := by
  cases write <;> rfl

theorem readings_afterRound (s : Slot α) (write : Write α) (later : List (Write α)) :
    (s.afterRound (some write)).readings later = write.content :: later.map Write.content := by
  rw [readings, ← content_of_write s write]
  rfl

/-- The allocation that is held after a write exists. -/
theorem held_lt_interfere (exists_held : s.held.id < s.made)
    (exists_given : ∀ h, write = some (.handle h) → h.id < s.made) :
    (interfere s write).held.id < (interfere s write).made := by
  cases write with
  | none => exact exists_held
  | some write =>
    cases write with
    | value v => exact Nat.lt_succ_self _
    | handle h => exact exists_given h rfl

/-- The slot holds the same allocation after a write as before if and only if the write leaves it
in place. A value is put into an allocation with a number of its own. -/
theorem interfere_id_iff (exists_held : s.held.id < s.made) :
    (interfere s write).held.id = s.held.id ↔ Keeps s.held write := by
  cases write with
  | none => exact Iff.of_eq (eq_self _)
  | some write =>
    cases write with
    | value v =>
      refine ⟨fun same => ?_, False.elim⟩
      have reused : s.made = s.held.id := same
      omega
    | handle h => exact Iff.rfl

theorem exists_held_afterRound (exists_held : s.held.id < s.made)
    (exists_given : ∀ h, write = some (.handle h) → h.id < s.made) :
    (s.afterRound write).held.id < (s.afterRound write).made :=
  Nat.lt_succ_of_lt (held_lt_interfere exists_held exists_given)

namespace Overtakes

theorem imp {test' : α → Prop} (weaker : ∀ v, test v → test' v)
    (overtakes : s.Overtakes test moves t) : s.Overtakes test' moves t := by
  induction moves generalizing s with
  | nil => exact overtakes
  | cons write later ih =>
    obtain ⟨passed, moved, rest⟩ := overtakes
    exact ⟨weaker _ passed, moved, ih rest⟩

/-- The last contents read are those of the slot in the last round. -/
theorem getLast? (overtakes : s.Overtakes test moves t) :
    (s.readings moves).getLast? = some t.held.value := by
  induction moves generalizing s with
  | nil =>
    cases overtakes
    rfl
  | cons write later ih =>
    have seen := ih overtakes.2.2
    rw [readings_afterRound] at seen
    rw [readings, List.map_cons, List.getLast?_cons_cons]
    exact seen

end Overtakes

/-! ## Rounds -/

/-- The test of a conditional operation, with the contents to be installed. -/
def Operation.choice? : Operation α → α → Option α
  | .putIf test value, seen => if test seen then some value else none
  | .update f, seen | .tryUpdate f, seen => some (f seen)
  | _, _ => none

theorem Stage.decide_eq (plan : Operation α) (seen : Handle α) :
    decide plan seen = match plan.choice? seen.value with
      | some value => .ongoing (installing plan seen value)
      | none => .finished ⟨seen, seen, false⟩ := by
  cases plan with
  | putIf test value => by_cases passed : test seen.value <;> simp [decide, Operation.choice?, passed]
  | _ => rfl

theorem Stage.advance_reading (s : Slot α) (plan : Operation α) :
    (reading plan).advance s = (s, decide plan s.held) := rfl

/-- The operation starts again when it has lost an exchange. -/
def Operation.Repeats (plan : Operation α) : Prop :=
  ∀ seen, Stage.afterLoss plan seen = .ongoing (.reading plan)

/-- The exchange of a round. -/
theorem Stage.advance_installing (exists_held : s.held.id < s.made) (plan : Operation α)
    (value : α) :
    (installing plan s.held value).advance (interfere s write) =
      if Keeps s.held write then
        ((interfere s write).renew value,
          .finished ⟨(interfere s write).held, ⟨(interfere s write).made, value⟩, true⟩)
      else (s.afterRound write, afterLoss plan s.held) := by
  by_cases keeps : Keeps s.held write
  · have same := (interfere_id_iff exists_held).mpr keeps
    simp [advance, allocate, access, Access.apply, beq_handle, same, keeps, renew]
  · have other := mt (interfere_id_iff exists_held).mp keeps
    simp [advance, allocate, access, Access.apply, beq_handle, other, keeps, afterRound]

/-- How an operation ends if its last round has read `s`: it declines the contents, or the slot has
kept its allocation and gets a new one. -/
inductive Operation.Ends (plan : Operation α) (s : Slot α) (write : Option (Write α)) :
    Slot α → Transition (Handle α) → Prop where
  | declines (declined : plan.choice? s.held.value = none) :
      plan.Ends s write (interfere s write) ⟨s.held, s.held, false⟩
  | wins {value : α} (chosen : plan.choice? s.held.value = some value)
      (keeps : Keeps s.held write) :
      plan.Ends s write ((interfere s write).renew value)
        ⟨(interfere s write).held, ⟨(interfere s write).made, value⟩, true⟩

variable {plan : Operation α} {s' : Slot α} {did : Transition (Handle α)}

/-- A round is the last one, or a different allocation comes in between. -/
theorem ends_or_moved (plan : Operation α) (s : Slot α) (write : Option (Write α)) :
    (∃ s' did, plan.Ends s write s' did) ∨
      ∃ value, plan.choice? s.held.value = some value ∧ ¬ Keeps s.held write := by
  cases chosen : plan.choice? s.held.value with
  | none => exact .inl ⟨_, _, .declines chosen⟩
  | some value =>
    by_cases keeps : Keeps s.held write
    · exact .inl ⟨_, _, .wins chosen keeps⟩
    · exact .inr ⟨value, rfl, keeps⟩

theorem rounds_of_ends (exists_held : s.held.id < s.made) (ends : plan.Ends s write s' did)
    (writes : List (Option (Write α))) :
    plan.rounds s (write :: writes) = some ⟨s', did, [s.held.value]⟩ := by
  unfold Operation.rounds
  cases ends with
  | declines declined => simp only [Stage.advance_reading, Stage.decide_eq, declined]
  | wins chosen keeps =>
    simp only [Stage.advance_reading, Stage.decide_eq, chosen,
      Stage.advance_installing exists_held, if_pos keeps]

/-- An exchange that is lost. -/
theorem rounds_of_moved {value : α} (exists_held : s.held.id < s.made)
    (chosen : plan.choice? s.held.value = some value) (moved : ¬ Keeps s.held write)
    (writes : List (Option (Write α))) :
    plan.rounds s (write :: writes) = match Stage.afterLoss plan s.held with
      | .finished did => some ⟨s.afterRound write, did, [s.held.value]⟩
      | .ongoing _ => (plan.rounds (s.afterRound write) writes).map fun settled =>
        { settled with seen := s.held.value :: settled.seen } := by
  conv => lhs; unfold Operation.rounds
  simp only [Stage.advance_reading, Stage.decide_eq, chosen,
    Stage.advance_installing exists_held, if_neg moved]
  cases Stage.afterLoss plan s.held <;> rfl

/-- The rounds of an operation that starts again after a loss. -/
theorem rounds_of_repeats (plan : Operation α) (repeats : plan.Repeats)
    (exists_held : s.held.id < s.made) (given : s.Given writes) :
    ∃ moves last t s' did,
      s.Course (fun v => (plan.choice? v).isSome) (writes ++ [none]) moves last t ∧
        plan.Ends t last s' did ∧
        plan.rounds s (writes ++ [none]) = some ⟨s', did, s.readings moves⟩ := by
  -- each write takes one round; the slot is generalized because a lost round leaves another one
  induction writes generalizing s with
  | nil =>
    rcases ends_or_moved plan s none with ⟨s', did, ends⟩ | ⟨-, -, moved⟩
    · exact ⟨[], none, s, s', did, ⟨⟨[], rfl⟩, rfl⟩, ends, rounds_of_ends exists_held ends []⟩
    · exact absurd trivial moved
  | cons write later ih =>
    obtain ⟨exists_given, given_later⟩ := given
    rcases ends_or_moved plan s write with ⟨s', did, ends⟩ | ⟨value, chosen, moved⟩
    · exact ⟨[], write, s, s', did, ⟨⟨later ++ [none], rfl⟩, rfl⟩, ends,
        rounds_of_ends exists_held ends _⟩
    · obtain ⟨moves, last, t, s', did, ⟨⟨unused, scheduled⟩, overtakes⟩, ends, rounds⟩ :=
        ih (exists_held_afterRound exists_held exists_given) given_later
      cases write with
      | none => exact absurd trivial moved
      | some write =>
        have passed : (plan.choice? s.held.value).isSome := chosen ▸ rfl
        refine ⟨write :: moves, last, t, s', did,
          ⟨⟨unused, congrArg (some write :: ·) scheduled⟩, passed, moved, overtakes⟩, ends, ?_⟩
        rw [List.cons_append, rounds_of_moved exists_held chosen moved, repeats, rounds]
        simp only [Option.map_some, readings_afterRound]
        rfl

/-! ## Programs -/

/-- A program of one conditional operation. -/
theorem performAmid_of_rounds {β : Type} {seen : List α} (plan : Operation α)
    (conditional : plan.IsConditional)
    (rounds : plan.rounds s (writes ++ [none]) = some ⟨s', did, seen⟩)
    (result : Transition (Handle α) → β) :
    performAmid writes s (.call plan fun did => .done (result did)) =
      some (s', result did, seen) := by
  have settles : plan.settle s writes = some ⟨s', did, seen⟩ := by
    cases plan with
    | putIf | update | tryUpdate => exact rounds
    | _ => exact conditional.elim
  simp [performAmid, settles]

theorem renewed_renew (s : Slot α) (value : α) : Renewed s value (s.renew value) :=
  ⟨rfl, Nat.le_refl _, Nat.lt_succ_self _⟩

theorem update_amid (exists_held : s.held.id < s.made) (given : s.Given writes) (f : α → α) :
    ∃ moves last t s', s.Course (fun _ => True) (writes ++ [none]) moves last t ∧
      Keeps t.held last ∧ (s.readings moves).getLast? = some t.held.value ∧
      performAmid writes s (update f) = some (s', f t.held.value, s.readings moves) ∧
      (interfere t last).Renewed (f t.held.value) s' := by
  obtain ⟨moves, last, t, s', did, ⟨scheduled, overtakes⟩, ends, rounds⟩ :=
    rounds_of_repeats (.update f) (fun _ => rfl) exists_held given
  have performs := performAmid_of_rounds (.update f) trivial rounds fun did => did.left.value
  cases ends with
  | declines declined => cases declined
  | wins chosen keeps =>
    cases chosen
    exact ⟨moves, last, t, _, ⟨scheduled, overtakes.imp fun _ _ => trivial⟩, keeps,
      overtakes.getLast?, performs, renewed_renew _ _⟩

theorem tryUpdate_amid (exists_held : s.held.id < s.made) (f : α → α) :
    ∃ write unused s', writes ++ [none] = write :: unused ∧
      if Keeps s.held write then
        performAmid writes s (tryUpdate f) = some (s', .ok (f s.held.value), [s.held.value]) ∧
          (interfere s write).Renewed (f s.held.value) s'
      else
        performAmid writes s (tryUpdate f) =
            some (s', .error .concurrentUpdate, [s.held.value]) ∧
          s'.held = (interfere s write).held := by
  obtain ⟨write, unused, scheduled⟩ : ∃ write unused, writes ++ [none] = write :: unused :=
    List.exists_cons_of_ne_nil (by simp)
  have performs {s' did seen} (rounds : (Operation.tryUpdate f).rounds s (write :: unused) =
      some ⟨s', did, seen⟩) :=
    performAmid_of_rounds (.tryUpdate f) trivial (scheduled ▸ rounds)
      fun did => if did.accepted then Except.ok did.left.value else .error Fault.concurrentUpdate
  rcases ends_or_moved (.tryUpdate f) s write with ⟨s', did, ends⟩ | ⟨v, chosen, moved⟩
  · have rounds := rounds_of_ends exists_held ends unused
    cases ends with
    | declines declined => cases declined
    | wins chosen keeps =>
      cases chosen
      refine ⟨write, unused, (interfere s write).renew (f s.held.value), scheduled, ?_⟩
      rw [if_pos keeps]
      exact ⟨performs rounds, renewed_renew _ _⟩
  · have rounds := rounds_of_moved exists_held chosen moved unused
    refine ⟨write, unused, s.afterRound write, scheduled, ?_⟩
    rw [if_neg moved]
    exact ⟨performs rounds, rfl⟩

theorem choice?_putIf {wanted : α → Bool} {value v : α} :
    (Operation.putIf wanted value).choice? v = if wanted v then some value else none := rfl

theorem compareAndSet_amid [BEq α] (exists_held : s.held.id < s.made) (given : s.Given writes)
    (expected value : α) :
    ∃ moves last t s', s.Course (fun v => v == expected) (writes ++ [none]) moves last t ∧
      (s.readings moves).getLast? = some t.held.value ∧
      if t.held.value == expected then
        Keeps t.held last ∧
          performAmid writes s (compareAndSet expected value) =
            some (s', true, s.readings moves) ∧
          (interfere t last).Renewed value s'
      else
        performAmid writes s (compareAndSet expected value) =
          some (interfere t last, false, s.readings moves) := by
  obtain ⟨moves, last, t, s', did, ⟨scheduled, overtakes⟩, ends, rounds⟩ :=
    rounds_of_repeats (.putIf (· == expected) value) (fun _ => rfl) exists_held given
  have course : s.Course (fun v => v == expected) (writes ++ [none]) moves last t := by
    refine ⟨scheduled, overtakes.imp fun v passed => ?_⟩
    rw [choice?_putIf] at passed
    split at passed
    · assumption
    · cases passed
  have performs := performAmid_of_rounds (.putIf (· == expected) value) trivial rounds
    Transition.accepted
  refine ⟨moves, last, t, s', course, overtakes.getLast?, ?_⟩
  cases ends with
  | declines declined =>
    rw [choice?_putIf] at declined
    split at declined
    · cases declined
    · rename_i differs
      rw [if_neg differs]
      exact performs
  | wins chosen keeps =>
    rw [choice?_putIf] at chosen
    split at chosen
    · rename_i equal
      cases chosen
      rw [if_pos equal]
      exact ⟨keeps, performs, renewed_renew _ _⟩
    · cases chosen

/-- Conditional operations under a schedule of writes, each of which takes place after contents
have been read and before they are exchanged.

An update makes a further round after exactly those writes that have put a different allocation
there, which may hold an equal value, and ends with the first round in which the slot keeps its
allocation. It has read the first value and then those of the writes; `f` of the last one is what
it answers and what it installs in an allocation of its own. An update that tries once works if and
only if the slot has kept its allocation in this one round, and leaves the allocation of the other
writer otherwise. An exchange by value ends with the first contents that differ from the expected
ones, and then leaves what the other writers have written, or with the first equal ones whose
allocation has been kept. -/
theorem rounds_follow_schedule [BEq α] (s : Slot α) (writes : List (Option (Write α)))
    (exists_held : s.held.id < s.made) (given : s.Given writes) :
    (∀ f : α → α, ∃ moves last t s', s.Course (fun _ => True) (writes ++ [none]) moves last t ∧
      Keeps t.held last ∧ (s.readings moves).getLast? = some t.held.value ∧
      performAmid writes s (update f) = some (s', f t.held.value, s.readings moves) ∧
      (interfere t last).Renewed (f t.held.value) s') ∧
    (∀ f : α → α, ∃ write unused s', writes ++ [none] = write :: unused ∧
      if Keeps s.held write then
        performAmid writes s (tryUpdate f) = some (s', .ok (f s.held.value), [s.held.value]) ∧
          (interfere s write).Renewed (f s.held.value) s'
      else
        performAmid writes s (tryUpdate f) =
            some (s', .error .concurrentUpdate, [s.held.value]) ∧
          s'.held = (interfere s write).held) ∧
    ∀ expected value : α, ∃ moves last t s',
      s.Course (fun v => v == expected) (writes ++ [none]) moves last t ∧
      (s.readings moves).getLast? = some t.held.value ∧
      if t.held.value == expected then
        Keeps t.held last ∧
          performAmid writes s (compareAndSet expected value) =
            some (s', true, s.readings moves) ∧
          (interfere t last).Renewed value s'
      else
        performAmid writes s (compareAndSet expected value) =
          some (interfere t last, false, s.readings moves) :=
  ⟨update_amid exists_held given, tryUpdate_amid exists_held,
    compareAndSet_amid exists_held given⟩

/-- An update of a slot with the contents 7. In the first round another writer puts a 7 there once
more, in a new allocation, in the second one an allocation that holds 3, and in the third one the
same allocation again. -/
theorem rounds_follow_schedule_update_thrice :
    let s : Slot Nat := { held := ⟨1, 7⟩, made := 2 }
    let writes := [some (.value 7), some (.handle ⟨0, 3⟩), some (.handle ⟨0, 3⟩), some (.value 5)]
    s.Given writes ∧ performAmid writes s (update (· + 1)) = some (⟨⟨5, 4⟩, 6⟩, 4, [7, 7, 3]) ∧
      ∃ moves last t, s.Course (fun _ => True) (writes ++ [none]) moves last t ∧
        moves.length = 2 ∧ Keeps t.held last ∧ t.held.value = 3 := by
  intro s writes
  have given : s.Given writes := by
    refine ⟨?_, ?_, ?_, ?_, trivial⟩ <;> intro h same <;> cases same <;> decide
  have thrice : performAmid writes s (update (· + 1)) = some (⟨⟨5, 4⟩, 6⟩, 4, [7, 7, 3]) := rfl
  obtain ⟨moves, last, t, s', course, keeps, lastRead, performs, -⟩ :=
    (rounds_follow_schedule s writes (by decide) given).1 (· + 1)
  have read : s.readings moves = [7, 7, 3] := by
    have same := performs.symm.trans thrice
    simp only [Option.some.injEq, Prod.mk.injEq] at same
    exact same.2.2
  refine ⟨given, thrice, moves, last, t, course, ?_, keeps, ?_⟩
  · have length := congrArg List.length read
    simpa [readings] using length
  · rw [read] at lastRead
    exact (Option.some.inj lastRead).symm

end Interlock.Slot

import Interlock.Proofs.Register
import Interlock.Proofs.Retry
import Interlock.Register.Field
import Interlock.Slot.Basic

/-!
# Registers and slots are free of locks

The loops of a register (`Register.retries`) and those of a slot (`Slot.retries`) differ in what
they compare, values or allocations, and in whether a lost exchange reads or the loop has to read
anew. In both of them, an exchange is lost only because another thread has written
(`retries_caused_by_writes`).
-/

namespace Interlock

/-! ## Registers -/

namespace Register

variable {α : Type} [BEq α]

/-- The loops of a register compare values, and a failed exchange reads. -/
def retries (α : Type) [BEq α] : Retries (shared α) where
  Held := α
  held := id
  expected?
    | .trying _ seen _ => some seen
    | _ => none
  reads a :=
    match a.stage with
    | .reading _ => true
    | .trying _ _ _ => !exchanged a
    | .single _ => false
  writes a :=
    match a.stage with
    | .single (.store _) | .single (.swap _) => true
    | _ => exchanged a

/-- No exchange fails for no reason. -/
def Steady (a : Turn (shared α)) : Prop :=
  a.chance.spurious = false

instance (a : Turn (shared α)) : Decidable (Steady a) :=
  inferInstanceAs (Decidable (_ = _))

/-- What an attempt reads is what its exchange is going to expect. -/
theorem expected_of_attempt {f : α → Option α} {held : α} {seen : (retries α).Held}
    {next : Stage α} (goes_on : Stage.attempt f held = .ongoing next)
    (expected : (retries α).expected? next = some seen) : seen = (retries α).held held := by
  obtain ⟨successor, -, rfl⟩ := Stage.eq_trying_of_attempt goes_on
  exact (Option.some.inj expected).symm

/-- After a read no other attempt is due without a failure. -/
theorem due_of_attempt (f : α → Option α) (held : α) :
    (retries α).due (Stage.attempt f held).stage? = 0 := by
  unfold Stage.attempt
  cases f held <;> rfl

theorem retries_lawful [ReflBEq α] : (retries α).Lawful Steady where
  elapses _ _ := rfl
  enters call := by cases call <;> rfl
  keeps := by
    rintro ⟨t, chance, before, stage, after, progress⟩ taken silent
    have moves : stage.Accesses chance.spurious before after progress :=
      Stage.accesses_of_taken taken
    cases moves with
    | single access =>
      cases access with
      | load => rfl
      | store | swap => cases silent
      | exchange expected new =>
        have differs : (before == expected) = false := silent
        simp [retries, Access.apply, differs]
    | wins found => exact Bool.noConfusion (found.symm.trans silent)
    | reads | loses => rfl
  refused := by
    rintro ⟨t, chance, before, stage, after, progress⟩ value taken steady silent expected
    have moves : stage.Accesses chance.spurious before after progress :=
      Stage.accesses_of_taken taken
    cases moves with
    | single | reads => cases expected
    | wins found => exact Bool.noConfusion (found.symm.trans silent)
    | @loses f seen next lost =>
      have strong : chance.spurious = false := steady
      have differs : (before == seen) = false := by simpa [strong] using lost
      intro same
      have found : before = seen := ((Option.some.inj expected).trans same).symm
      rw [found, BEq.rfl] at differs
      cases differs
  expects := by
    rintro ⟨t, chance, before, stage, after, progress⟩ next value taken goes_on expected
    have moves : stage.Accesses chance.spurious before after progress :=
      Stage.accesses_of_taken taken
    cases moves with
    | single | wins => cases goes_on
    | reads f => exact ⟨rfl, expected_of_attempt goes_on expected⟩
    | loses lost =>
      refine ⟨?_, expected_of_attempt goes_on expected⟩
      simp [retries, exchanged, lost]
  counted := by
    rintro ⟨t, chance, before, stage, after, progress⟩ taken
    have moves : stage.Accesses chance.spurious before after progress :=
      Stage.accesses_of_taken taken
    cases moves with
    | single access => exact Nat.zero_le _
    | reads f =>
      rw [due_of_attempt]
      rfl
    | wins found => simp [retries, exchanged, found, Retries.due, Progress.stage?]
    | loses lost =>
      rw [due_of_attempt]
      simp [retries, exchanged, lost, Retries.due, Retries.fails]
  goes_on := by
    rintro ⟨t, chance, before, stage, after, progress⟩ taken goes_on
    have moves : stage.Accesses chance.spurious before after progress :=
      Stage.accesses_of_taken taken
    cases moves with
    | single | wins => cases goes_on
    | reads f => exact Or.inl rfl
    | loses lost => exact Or.inl (by simp [retries, exchanged, lost])

end Register

/-! ## Slots -/

namespace Slot

open Register

variable {α : Type}

/-- The loops of a slot compare allocations, and read again after a failed exchange. -/
def retries (α : Type) : Retries (shared α) where
  Held := Nat
  held s := s.held.id
  expected?
    | .installing _ seen _ => some seen.id
    | _ => none
  reads a :=
    match a.stage with
    | .reading _ => true
    | _ => false
  writes a :=
    match a.stage with
    | .single .load | .reading _ => false
    | .single (.exchange expected _) => a.before.held == expected
    | .installing _ seen _ => a.before.held == seen
    | .single (.store _) | .single (.swap _) | .putting _ | .replacing _ => true

/-- What one access does. The exchange of a loop writes and ends the loop, or it is lost. -/
inductive Stage.Accesses (s : Slot α) :
    Stage α → Slot α → Progress (Stage α) (Transition (Handle α)) → Prop where
  | single (a : Access (Handle α)) :
    Accesses s (single a) (s.access a).1 (.finished (s.access a).2)
  | puts (value : α) {s' : Slot α} {did : Transition (Handle α)} :
    Accesses s (putting value) s' (.finished did)
  | replaces (value : α) {s' : Slot α} {did : Transition (Handle α)} :
    Accesses s (replacing value) s' (.finished did)
  | reads (plan : Operation α) : Accesses s (reading plan) s (decide plan s.held)
  | wins {plan : Operation α} {seen : Handle α} {value : α} {s' : Slot α}
      {did : Transition (Handle α)} (found : (s.held == seen) = true) :
    Accesses s (installing plan seen value) s' (.finished did)
  | loses {plan : Operation α} {seen : Handle α} {value : α} (lost : (s.held == seen) = false) :
    Accesses s (installing plan seen value) { s with made := s.made + 1 } (afterLoss plan seen)

theorem Stage.accesses_of_taken {a : Turn (shared α)} (taken : a.Taken) :
    a.stage.Accesses a.before a.after a.progress := by
  obtain ⟨t, chance, before, stage, after, progress⟩ := a
  have moved : stage.advance before = (after, progress) := Option.some.inj taken
  cases stage with
  | single access =>
    cases moved
    exact .single access
  | putting value =>
    cases moved
    exact .puts value
  | replacing value =>
    cases moved
    exact .replaces value
  | reading plan =>
    cases moved
    exact .reads plan
  | installing plan seen value =>
    cases found : before.held == seen with
    | true =>
      simp only [advance, allocate, access, Access.apply, found, if_true] at moved
      cases moved
      exact .wins found
    | false =>
      simp only [advance, allocate, access, Access.apply, found, Bool.false_eq_true, if_false]
        at moved
      cases moved
      exact .loses found

/-- An operation that goes on after a read is about to exchange what was read. -/
theorem Stage.eq_installing_of_decide {plan : Operation α} {seen : Handle α} {next : Stage α}
    (goes_on : decide plan seen = .ongoing next) : ∃ value, next = installing plan seen value := by
  cases plan with
  | putIf test value =>
    by_cases passed : test seen.value
    · simp only [decide, passed, if_true, Progress.ongoing.injEq] at goes_on
      exact ⟨value, goes_on.symm⟩
    · simp [decide, passed] at goes_on
  | update f | tryUpdate f =>
    simp only [decide, Progress.ongoing.injEq] at goes_on
    exact ⟨f seen.value, goes_on.symm⟩
  | once | put | replace => cases goes_on

/-- An operation that goes on after a lost exchange is about to read. -/
theorem Stage.eq_reading_of_afterLoss {plan : Operation α} {seen : Handle α} {next : Stage α}
    (goes_on : afterLoss plan seen = .ongoing next) : next = reading plan := by
  cases plan <;> cases goes_on <;> rfl

/-- After a read no other attempt is due without a failure. -/
theorem due_of_decide (plan : Operation α) (seen : Handle α) :
    (retries α).due (Stage.decide plan seen).stage? = 0 := by
  cases decided : Stage.decide plan seen with
  | finished reply => rfl
  | ongoing next =>
    obtain ⟨value, rfl⟩ := Stage.eq_installing_of_decide decided
    rfl

theorem retries_lawful : (retries α).Lawful fun _ => True where
  elapses _ _ := rfl
  enters call := by cases call <;> rfl
  keeps := by
    rintro ⟨t, chance, before, stage, after, progress⟩ taken silent
    have moves : stage.Accesses before after progress := Stage.accesses_of_taken taken
    cases moves with
    | single access =>
      cases access with
      | load => rfl
      | store | swap => cases silent
      | exchange expected new =>
        have differs : (before.held == expected) = false := silent
        simp [retries, Slot.access, Access.apply, differs]
    | puts | replaces => cases silent
    | wins found => exact Bool.noConfusion (found.symm.trans silent)
    | reads | loses => rfl
  refused := by
    rintro ⟨t, chance, before, stage, after, progress⟩ id taken - silent expected
    have moves : stage.Accesses before after progress := Stage.accesses_of_taken taken
    cases moves with
    | single | puts | replaces | reads => cases expected
    | wins found => exact Bool.noConfusion (found.symm.trans silent)
    | @loses plan seen value lost =>
      intro same
      have found : before.held.id = seen.id := ((Option.some.inj expected).trans same).symm
      have differs : before.held.id ≠ seen.id := of_decide_eq_false lost
      exact differs found
  expects := by
    rintro ⟨t, chance, before, stage, after, progress⟩ next id taken goes_on expected
    have moves : stage.Accesses before after progress := Stage.accesses_of_taken taken
    cases moves with
    | single | puts | replaces | wins => cases goes_on
    | reads plan =>
      obtain ⟨value, rfl⟩ := Stage.eq_installing_of_decide goes_on
      exact ⟨rfl, (Option.some.inj expected).symm⟩
    | loses lost =>
      obtain rfl := Stage.eq_reading_of_afterLoss goes_on
      cases expected
  counted := by
    rintro ⟨t, chance, before, stage, after, progress⟩ taken
    have moves : stage.Accesses before after progress := Stage.accesses_of_taken taken
    cases moves with
    | single | puts | replaces | wins => exact Nat.zero_le _
    | reads plan =>
      rw [due_of_decide]
      rfl
    | @loses plan seen value lost =>
      have once : (retries α).due (Stage.afterLoss plan seen).stage? ≤ 1 := by
        cases plan <;> simp [Stage.afterLoss, Retries.due, Progress.stage?, retries]
      simpa [retries, lost, Retries.due, Retries.fails] using once
  goes_on := by
    rintro ⟨t, chance, before, stage, after, progress⟩ taken goes_on
    have moves : stage.Accesses before after progress := Stage.accesses_of_taken taken
    cases moves with
    | single | puts | replaces | wins => cases goes_on
    | reads plan => exact Or.inl rfl
    | loses lost => exact Or.inr (by simp [retries, lost, Retries.fails])

end Slot

/-! ## Progress -/

/-- An exchange of a loop fails only because another thread has written, on registers of all types
and on slots, whatever operations the threads run. So an operation makes one attempt more at most
than others write while it is going on, and it ends if they stop writing. -/
theorem retries_caused_by_writes {α γ β : Type} [BEq α] [ReflBEq α] :
    (∀ {allowed : Nat → Register.Action α β → Prop} {initial : α}
        {u : System (Register.shared α) β} {a : Turn (Register.shared α)}
        {older : List (Turn (Register.shared α))},
        System.Run (O := Register.shared α) allowed { state := initial } u (a :: older) →
        (∀ c ∈ a :: older, Register.Steady c) → (Register.retries α).Explained a older) ∧
      (∀ {allowed : Nat → Slot.Action γ β → Prop} {initial : Slot γ}
        {u : System (Slot.shared γ) β} {a : Turn (Slot.shared γ)}
        {older : List (Turn (Slot.shared γ))},
        System.Run (O := Slot.shared γ) allowed { state := initial } u (a :: older) →
        (Slot.retries γ).Explained a older) ∧
      (∀ {allowed : Nat → Register.Action α β → Prop} {initial : α}
        {turn : Nat → Turn (Register.shared α)} (t : Nat),
        Retries.Endless (O := Register.shared α) allowed { state := initial } turn →
        (∀ j, Register.Steady (turn j)) → (Register.retries α).EndsAlone turn t) ∧
      ∀ {allowed : Nat → Slot.Action γ β → Prop} {initial : Slot γ}
        {turn : Nat → Turn (Slot.shared γ)} (t : Nat),
        Retries.Endless (O := Slot.shared γ) allowed { state := initial } turn →
        (Slot.retries γ).EndsAlone turn t := by
  refine ⟨?_, ?_, ?_, ?_⟩
  · intro allowed initial u a older run steady
    exact Retries.explained_of_run Register.retries_lawful (System.stage?_start initial) run steady
  · intro allowed initial u a older run
    exact Retries.explained_of_run Slot.retries_lawful (System.stage?_start initial) run
      fun _ _ => trivial
  · intro allowed initial turn t endless steady
    exact Retries.endsAlone_of_endless Register.retries_lawful (System.stage?_start initial)
      endless steady t
  · intro allowed initial turn t endless
    exact Retries.endsAlone_of_endless Slot.retries_lawful (System.stage?_start initial)
      endless (fun _ => trivial) t

/-- Two threads that are about to update a register. -/
def Register.updaters : System (Register.shared Nat) Nat :=
  let s : System (Register.shared Nat) Nat := { state := 5 }
  let s := (s.assign 0 (Field.update (· + 1))).1
  (s.assign 1 (Field.update (· * 2))).1

/-- Two threads that are about to update a slot. -/
def Slot.updaters : System (Slot.shared Nat) Nat :=
  let s : System (Slot.shared Nat) Nat := { state := Slot.new 5 }
  let s := (s.assign 0 (Slot.update (· + 1))).1
  (s.assign 1 (Slot.update (· * 2))).1

/-- The second thread writes between the read and the exchange of the first one. -/
def overtaking : List (Nat × Chance) := [(0, {}), (1, {}), (1, {}), (0, {})]

/-- A thread that updates a register again and again. -/
def Register.counting : Nat → Turn (Register.shared Nat) :=
  Retries.rounds (O := Register.shared Nat) 0 id (.reading fun v => some (v + 1))
    (fun k => .trying (fun v => some (v + 1)) k (k + 1)) fun k => ⟨k, k + 1, true⟩

/-- A thread that updates a slot again and again. -/
def Slot.renewing : Nat → Turn (Slot.shared Nat) :=
  Retries.rounds (O := Slot.shared Nat) 0 (fun k => ⟨⟨k, 7⟩, k + 1⟩) (.reading (.update id))
    (fun k => .installing (.update id) ⟨k, 7⟩ 7) fun k => ⟨⟨k, 7⟩, ⟨k + 1, 7⟩, true⟩

theorem retries_caused_by_writes_overtaking :
    (∃ a older, (Register.updaters.follow [] overtaking).2 = a :: older ∧ a.thread = 0 ∧
        (Register.retries Nat).fails a ∧ (Register.retries Nat).Explained a older) ∧
      (∃ a older, (Slot.updaters.follow [] overtaking).2 = a :: older ∧ a.thread = 0 ∧
        (Slot.retries Nat).fails a ∧ (Slot.retries Nat).Explained a older) ∧
      (∀ k, ∃ j ≥ k, (Register.counting j).thread = 0 ∧ (Register.counting j).ends) ∧
      ∀ k, ∃ j ≥ k, (Slot.renewing j).thread = 0 ∧ (Slot.renewing j).ends := by
  have register : System.Run (O := Register.shared Nat) (fun _ _ => True) { state := 5 }
      Register.updaters [] := .assign 1 _ (.assign 0 _ .start rfl trivial) rfl trivial
  have slot : System.Run (O := Slot.shared Nat) (fun _ _ => True) { state := Slot.new 5 }
      Slot.updaters [] := .assign 1 _ (.assign 0 _ .start rfl trivial) rfl trivial
  have steady : ∀ j, Register.Steady (Register.counting j) := by
    intro j
    unfold Register.counting Retries.rounds
    split <;> rfl
  have counting : Retries.Endless (fun _ _ => True)
      ({ state := 0 } : System (Register.shared Nat) (Transition Nat)) Register.counting := by
    refine @Retries.endless_rounds (Register.shared Nat) 0 id _ _ _
      (.modify fun v => some (v + 1)) rfl ?_ ?_
    · exact fun _ => rfl
    · intro k
      simp [Register.Stage.advance, Register.Access.apply]
  have renewing : Retries.Endless (fun _ _ => True)
      ({ state := Slot.new 7 } : System (Slot.shared Nat) (Transition (Handle Nat)))
      Slot.renewing := by
    refine @Retries.endless_rounds (Slot.shared Nat) 0 (fun k => ⟨⟨k, 7⟩, k + 1⟩) _ _ _
      (.update id) rfl ?_ ?_
    · exact fun _ => rfl
    · intro k
      have same : ((⟨k, 7⟩ : Handle Nat) == ⟨k, 7⟩) = true := decide_eq_true rfl
      simp [Slot.Stage.advance, Slot.allocate, Slot.access, Register.Access.apply, same]
  refine ⟨⟨_, _, rfl, rfl, rfl, ?_⟩, ⟨_, _, rfl, rfl, rfl, ?_⟩, ?_, ?_⟩
  · refine (@retries_caused_by_writes Nat Nat Nat _ _).1 (register.follow overtaking) ?_
    decide +kernel
  · exact (@retries_caused_by_writes Nat Nat Nat _ _).2.1 (slot.follow overtaking)
  · refine (@retries_caused_by_writes Nat Nat _ _ _).2.2.1 0 counting steady ⟨0, ?_⟩ ?_
    · exact fun j _ other => absurd (Retries.thread_rounds j) other
    · exact fun k => ⟨k, Nat.le_refl k, Retries.thread_rounds k⟩
  · refine (@retries_caused_by_writes Nat Nat _ _ _).2.2.2 0 renewing ⟨0, ?_⟩ ?_
    · exact fun j _ other => absurd (Retries.thread_rounds j) other
    · exact fun k => ⟨k, Nat.le_refl k, Retries.thread_rounds k⟩

end Interlock

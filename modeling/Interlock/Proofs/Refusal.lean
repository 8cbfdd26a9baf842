import Interlock.Proofs.Counter
import Interlock.Proofs.FieldSet
import Interlock.Proofs.Monitor.Restoration
import Interlock.Proofs.Numeral
import Interlock.Proofs.Slot

/-!
# What is refused has written nothing

`Carries` follows one thread through a program by its own accesses. Between two of them the state
may become anything, so what is shown of these accesses holds whatever the other threads do;
`Carries.of_run` says that every run provides them.

An operation that ends with a fault either has not taken any access, since its arguments are judged
before it takes the first one, or has only taken accesses that leave the state as they find it. The
second kind are the loops that decide against a write: checked arithmetic with a sum that does not
fit, and an update of a slot that has found another allocation.
-/

namespace Interlock

variable {O : Shared} {β : Type}

/-- How far thread `t` has got with a program by accesses of its own, the latest one first: what it
does now, and the result if the program has ended. -/
inductive Carries (t : Nat) (program : O.Action β) :
    List (Turn O) → Activity O β × Option β → Prop where
  | begins : Carries t program [] (Activity.ofProgram program)
  | access {turns : List (Turn O)} {next : O.Reply → O.Action β} (a : Turn O)
      (mine : a.thread = t) (before : Carries t program turns (.busy a.stage next, none))
      (taken : a.Taken) :
      Carries t program (a :: turns) (Activity.after next a.progress)

/-- The accesses with which a thread has carried out a program that ended with `result`. -/
def Yields (t : Nat) (program : O.Action β) (turns : List (Turn O)) (result : β) : Prop :=
  Carries t program turns (.idle, some result)

namespace Carries

variable {t : Nat} {program : O.Action β} {turns : List (Turn O)}
  {doing : Activity O β × Option β}

theorem result_of_busy {stage : O.Stage} {next : O.Reply → O.Action β} {result? : Option β}
    (carries : Carries t program turns (.busy stage next, result?)) : result? = none := by
  have ofProgram {p : O.Action β}
      (busy : Activity.ofProgram p = (.busy stage next, result?)) : result? = none := by
    cases p with
    | done result => cases busy
    | call request next => exact (Prod.mk.inj busy).2.symm
  generalize here : (Activity.busy stage next, result?) = doing at carries
  cases carries with
  | begins => exact ofProgram here.symm
  | access a mine before taken =>
    cases ending : a.progress with
    | ongoing stage' =>
      rw [ending] at here
      exact (Prod.mk.inj here).2
    | finished reply =>
      rw [ending] at here
      exact ofProgram here.symm

/-- A run of any threads, from where thread `t` begins a program and in which it begins no other
one, provides the accesses that carry it out. -/
theorem of_run {allowed : Nat → O.Action β → Prop} {u v : System O β} {trace : List (Turn O)}
    (run : System.Run allowed (u.assign t program).1 v trace) (only : ∀ other, ¬ allowed t other) :
    ∃ result?, Carries t program (trace.filter (·.thread = t)) (v.threads.get t, result?) := by
  induction run with
  | start =>
    refine ⟨(Activity.ofProgram program).2, ?_⟩
    rw [System.assign, Table.get_set_same]
    exact .begins
  | assign r other before free may ih =>
    have elsewhere : t ≠ r := fun same => only other (same ▸ may)
    rwa [System.assign, Table.get_set_other _ _ elsewhere]
  | @access v trace a next before here busy taken ih =>
    obtain ⟨result?, carries⟩ := ih
    by_cases mine : a.thread = t
    · subst mine
      rw [busy] at carries
      obtain rfl := carries.result_of_busy
      refine ⟨(Activity.after next a.progress).2, ?_⟩
      rw [Table.get_set_same, List.filter_cons_of_pos (by simp)]
      exact .access a rfl carries taken
    · refine ⟨result?, ?_⟩
      rwa [Table.get_set_other _ _ (Ne.symm mine), List.filter_cons_of_neg (by simpa using mine)]
  | elapse time before ih => exact ih

/-- A program of one call goes through stages of which `P` holds, and ends with what it reads off
the reply. -/
theorem of_call {P : O.Stage → Prop} {request : O.Call} {result : O.Reply → β}
    (enters : P (O.enter request))
    (advances : ∀ {a : Turn O} {stage}, P a.stage → a.Taken → a.progress = .ongoing stage → P stage)
    (carries : Carries t (.call request fun reply => .done (result reply)) turns doing) :
    (∃ stage, doing = (.busy stage fun reply => .done (result reply), none) ∧ P stage ∧
        ∀ a ∈ turns, a.Taken ∧ P a.stage ∧ a.ends = false) ∨
      ∃ a older reply, turns = a :: older ∧ doing = (.idle, some (result reply)) ∧ a.Taken ∧
        P a.stage ∧ a.progress = .finished reply ∧
        ∀ b ∈ older, b.Taken ∧ P b.stage ∧ b.ends = false := by
  induction carries with
  | begins => exact .inl ⟨O.enter request, rfl, enters, nofun⟩
  | @access turns next a mine before taken ih =>
    rcases ih with ⟨stage, busy, holds, earlier⟩ | ⟨b, older, reply, -, idle, -⟩
    · obtain ⟨rfl, rfl⟩ := Activity.busy.inj (Prod.mk.inj busy).1
      cases ending : a.progress with
      | ongoing stage =>
        refine .inl ⟨stage, rfl, advances holds taken ending, ?_⟩
        intro b member
        rcases List.mem_cons.mp member with rfl | member
        · exact ⟨taken, holds, by simp [Turn.ends, ending, Progress.stage?]⟩
        · exact earlier b member
      | finished reply =>
        exact .inr ⟨a, turns, reply, rfl, rfl, taken, holds, ending, earlier⟩
    · cases (Prod.mk.inj idle).1

end Carries

namespace Yields

variable {t : Nat} {turns : List (Turn O)} {result : β}

/-- A program without calls takes no access. -/
theorem of_done {result' : β} (yields : Yields t (.done result' : O.Action β) turns result) :
    turns = [] ∧ result = result' := by
  have begins {turns : List (Turn O)} {doing : Activity O β × Option β}
      (carries : Carries t (.done result') turns doing) :
      turns = [] ∧ doing = (.idle, some result') := by
    induction carries with
    | begins => exact ⟨rfl, rfl⟩
    | access a mine before taken ih => cases (Prod.mk.inj ih.2).1
  obtain ⟨none_taken, same⟩ := begins yields
  exact ⟨none_taken, Option.some.inj (Prod.mk.inj same).2⟩

/-- A thread that ends its program in a run of any threads, in which it begins no other one, has
carried it out with its accesses. -/
theorem of_run {allowed : Nat → O.Action β → Prop} {program : O.Action β} {u v w : System O β}
    {trace : List (Turn O)} {c : Chance}
    (run : System.Run allowed (u.assign t program).1 v trace) (only : ∀ other, ¬ allowed t other)
    (ends : v.step t c = some (w, some result)) :
    ∃ a : Turn O, a.before = v.state ∧ a.after = w.state ∧
      Yields t program (a :: trace.filter (·.thread = t)) result := by
  obtain ⟨a, next, mine, -, here, taken, busy, ended, rfl⟩ := System.step_eq_some ends
  obtain ⟨result?, carries⟩ := Carries.of_run run only
  rw [busy] at carries
  obtain rfl := carries.result_of_busy
  have idle : Activity.after next a.progress = (.idle, some result) := by
    cases ending : a.progress with
    | ongoing stage =>
      rw [ending] at ended
      cases ended
    | finished reply =>
      rw [ending] at ended
      cases continues : next reply with
      | done last =>
        rw [Activity.after, continues] at ended
        cases ended
        rw [Activity.after, continues]
        rfl
      | call request next =>
        rw [Activity.after, continues] at ended
        cases ended
  refine ⟨a, here.symm, rfl, ?_⟩
  rw [Yields, ← idle]
  exact .access a mine carries taken

/-- A program of one call ends when an access brings the reply, and no other access of it does. -/
theorem of_call {P : O.Stage → Prop} {request : O.Call} {read : O.Reply → β}
    (enters : P (O.enter request))
    (advances : ∀ {a : Turn O} {stage}, P a.stage → a.Taken → a.progress = .ongoing stage → P stage)
    (yields : Yields t (.call request fun reply => .done (read reply)) turns result) :
    (∃ a ∈ turns, ∃ reply, a.progress = .finished reply ∧ result = read reply) ∧
      ∀ a ∈ turns, a.Taken ∧ P a.stage ∧
        ∀ reply, a.progress = .finished reply → result = read reply := by
  rcases Carries.of_call enters advances yields with
    ⟨stage, busy, -⟩ | ⟨a, older, reply, rfl, idle, taken, holds, ending, earlier⟩
  · cases (Prod.mk.inj busy).1
  · have same : result = read reply := Option.some.inj (Prod.mk.inj idle).2
    refine ⟨⟨a, List.mem_cons_self .., reply, ending, same⟩, fun b member => ?_⟩
    rcases List.mem_cons.mp member with rfl | member
    · refine ⟨taken, holds, fun reply' ends => ?_⟩
      cases ending.symm.trans ends
      exact same
    · obtain ⟨taken_b, holds_b, goes_on⟩ := earlier b member
      refine ⟨taken_b, holds_b, fun reply' ends => ?_⟩
      simp [Turn.ends, ends, Progress.stage?] at goes_on

/-- What is read off a reply that is never `result` is not the result of the program. -/
theorem ne_of_call {request : O.Call} {read : O.Reply → β} (never : ∀ reply, result ≠ read reply) :
    ¬ Yields t (.call request fun reply => .done (read reply)) turns result := by
  intro yields
  obtain ⟨⟨a, -, reply, -, same⟩, -⟩ :=
    yields.of_call (P := fun _ => True) trivial fun _ _ _ => trivial
  exact never reply same

end Yields

/-! ## Counters -/

/-- What is read off an operation as a fault was not accepted. -/
theorem Transition.declined_of_error {α γ : Type} {did : Transition α} {answer : γ}
    {fault reason : Fault}
    (same : .error fault = if did.accepted then Except.ok answer else .error reason) :
    did.accepted = false ∧ fault = reason := by
  cases accepted : did.accepted with
  | true => simp [accepted] at same
  | false => simpa [accepted] using same

namespace Register

variable {α : Type} [BEq α]

theorem Access.left_of_declined {held : α} {access : Access α}
    (declined : (access.apply held).accepted = false) : (access.apply held).left = held := by
  cases access with
  | load => rfl
  | store value | swap value => cases declined
  | exchange expected new =>
    by_cases found : held == expected
    · simp [apply, found] at declined
    · simp [apply, found]

/-- An access that does not end an operation which was accepted leaves the value alone. -/
theorem after_eq_before {a : Turn (shared α)} (taken : a.Taken)
    (declined : ∀ reply, a.progress = .finished reply → reply.accepted = false) :
    a.after = a.before := by
  obtain ⟨thread, chance, before, stage, after, progress⟩ := a
  replace declined : ∀ reply, progress = .finished reply → reply.accepted = false := declined
  have moves : stage.Accesses chance.spurious before after progress :=
    Stage.accesses_of_taken taken
  cases moves with
  | single access => exact Access.left_of_declined (declined _ rfl)
  | reads f => rfl
  | wins found => cases declined _ rfl
  | loses lost => rfl

end Register

namespace Counter

open Register

variable {t : Nat} {turns : List (Turn (shared Int64))} {fault : Fault}

/-- Replacing the value by a numeral is refused before the first access. -/
theorem nothing_of_trySet {new : Numeral} (yields : Yields t (trySet new) turns (.error fault)) :
    fault = Numeral.notAnInteger ∧ turns = [] := by
  unfold trySet at yields
  split at yields
  · rename_i reason refused
    obtain ⟨none_taken, same⟩ := yields.of_done
    cases same
    exact ⟨Numeral.eq_notAnInteger refused, none_taken⟩
  · exact absurd yields (Yields.ne_of_call nofun)

/-- Both numerals are judged before the first access. -/
theorem tryCompareAndSet_of_refused {expected new : Numeral}
    (bad : expected.toInt64 = .error fault ∨ new.toInt64 = .error fault) :
    tryCompareAndSet expected new = .done (.error Numeral.notAnInteger) := by
  unfold tryCompareAndSet
  split
  · rename_i refused
    rw [Numeral.eq_notAnInteger refused]
  · rename_i refused _
    rw [Numeral.eq_notAnInteger refused]
  · rename_i first second
    rcases bad with refused | refused
    · cases first.symm.trans refused
    · cases second.symm.trans refused

theorem nothing_of_tryCompareAndSet {expected new : Numeral}
    (yields : Yields t (tryCompareAndSet expected new) turns (.error fault)) :
    fault = Numeral.notAnInteger ∧ turns = [] := by
  cases first : expected.toInt64 with
  | error reason =>
    rw [tryCompareAndSet_of_refused (.inl first)] at yields
    obtain ⟨none_taken, same⟩ := yields.of_done
    exact ⟨Except.error.inj same, none_taken⟩
  | ok expected' =>
    cases second : new.toInt64 with
    | error reason =>
      rw [tryCompareAndSet_of_refused (.inr second)] at yields
      obtain ⟨none_taken, same⟩ := yields.of_done
      exact ⟨Except.error.inj same, none_taken⟩
    | ok new' =>
      simp only [tryCompareAndSet, first, second] at yields
      refine absurd yields (Yields.ne_of_call ?_)
      intro reply same
      cases same

/-- A sum that does not fit is found in the middle of the loop, none of whose accesses has written
then. -/
theorem kept_of_shiftChecked {change : Int}
    (yields : Yields t (shiftChecked change) turns (.error fault)) :
    fault = .overflow ∧ ∀ a ∈ turns, a.after = a.before := by
  obtain ⟨⟨a, -, reply, -, same⟩, every⟩ :=
    yields.of_call (P := fun _ => True) trivial fun _ _ _ => trivial
  refine ⟨(Transition.declined_of_error same).2, fun b member => ?_⟩
  obtain ⟨taken, -, read⟩ := every b member
  exact after_eq_before taken fun reply ends => (Transition.declined_of_error (read reply ends)).1

end Counter

/-! ## Slots -/

namespace Slot

variable {α : Type} {t : Nat} {turns : List (Turn (shared α))} {fault : Fault}

/-- An access that does not end an operation which was accepted leaves the allocation in place. -/
theorem held_after_eq {a : Turn (shared α)} (taken : a.Taken)
    (declined : ∀ reply, a.progress = .finished reply → reply.accepted = false) :
    a.after.held = a.before.held := by
  obtain ⟨thread, chance, before, stage, after, progress⟩ := a
  replace declined : ∀ reply, progress = .finished reply → reply.accepted = false := declined
  have moved : stage.advance before = (after, progress) := Option.some.inj taken
  cases stage with
  | single access =>
    cases moved
    exact Register.Access.left_of_declined (declined _ rfl)
  | putting value | replacing value =>
    cases moved
    cases declined _ rfl
  | reading plan =>
    cases moved
    rfl
  | installing plan seen value =>
    simp only [Stage.advance, allocate, Slot.access, Register.Access.apply] at moved
    by_cases found : before.held == seen
    · simp only [found, if_true] at moved
      cases moved
      cases declined _ rfl
    · simp only [found, Bool.false_eq_true, if_false] at moved
      cases moved
      rfl

/-- An update that has found another allocation leaves this one in place. -/
theorem kept_of_tryUpdate {f : α → α} (yields : Yields t (tryUpdate f) turns (.error fault)) :
    fault = .concurrentUpdate ∧ ∀ a ∈ turns, a.after.held = a.before.held := by
  obtain ⟨⟨a, -, reply, -, same⟩, every⟩ :=
    yields.of_call (P := fun _ => True) trivial fun _ _ _ => trivial
  refine ⟨(Transition.declined_of_error same).2, fun b member => ?_⟩
  obtain ⟨taken, -, read⟩ := every b member
  exact held_after_eq taken fun reply ends => (Transition.declined_of_error (read reply ends)).1

end Slot

/-! ## Field sets -/

/-- A request that is refused names a field that was not declared. -/
theorem FieldSet.kept_of_serve {α : Type} {s : FieldSet α} {request : Request α} {fault : Fault}
    (refused : (s.serve request).1 = .error fault) :
    fault = unknown request.name ∧ (s.serve request).2 = s := by
  by_cases declared : request.name ∈ s.names
  · obtain ⟨i, found⟩ := index?_of_mem declared
    cases request with
    | get name | set name value | take name =>
      simp only [Request.name] at found
      simp only [serve, get, FieldSet.set, take, found, Except.map, settle] at refused
      cases refused
  · rw [serve_of_not_mem declared] at refused ⊢
    cases refused
    exact ⟨rfl, rfl⟩

/-! ## Waits -/

/-- A time in seconds that is negative or no number. -/
def Timeout.Refused : Decimal.Number → Prop
  | .nan | .infinite true => True
  | .finite true significand _ => significand ≠ 0
  | _ => False

theorem Timeout.ofSeconds_eq_error {seconds : Decimal.Number} :
    (∃ fault, ofSeconds seconds = .error fault) ↔ Refused seconds := by
  cases seconds with
  | nan => exact ⟨fun _ => trivial, fun _ => ⟨negative, rfl⟩⟩
  | infinite sign =>
    cases sign with
    | true => exact ⟨fun _ => trivial, fun _ => ⟨negative, rfl⟩⟩
    | false => exact ⟨nofun, False.elim⟩
  | finite sign significand exponent =>
    cases sign with
    | true => by_cases zero : significand = 0 <;> simp [ofSeconds, Refused, zero]
    | false => simp [ofSeconds, Refused]

namespace Monitor

variable {V : Type} {t : Nat} {turns : List (Turn (shared V))} {fault : Fault}

theorem Waiting.told {chance : Chance} {m m' : Monitor V} {wait : Waiting}
    {progress : Progress Waiting (Except Fault Ending)} (told : wait.phase.Told)
    (moves : wait.advance t chance m = some (m', progress)) :
    (∀ wait', progress = .ongoing wait' → wait'.phase.Told) ∧
      ∀ fault, progress = .finished (.error fault) → fault.isCancelled := by
  have moved := (Waiting.advance_phases moves).told told
  refine ⟨fun wait' goes_on => ?_, fun fault ends => ?_⟩
  · subst goes_on
    exact moved.1
  · subst ends
    exact moved.2 wait.phase.node? fault rfl

/-- The stage is one of a wait that ends with a fault only if it is cancelled. -/
def Stage.Told (stage : Stage V) : Prop :=
  ∃ wait, stage = .waiting wait ∧ wait.phase.Told

theorem Stage.told_of_taken {a : Turn (shared V)} (told : Stage.Told a.stage) (taken : a.Taken) :
    (∀ stage, a.progress = .ongoing stage → Stage.Told stage) ∧
      ∀ reply fault, a.progress = .finished reply → reply.ending = .error fault →
        fault.isCancelled := by
  obtain ⟨t, chance, before, _, after, progress⟩ := a
  obtain ⟨wait, rfl, told⟩ := told
  obtain ⟨next, moves, same⟩ := Stage.advance_waiting taken
  obtain rfl : progress = _ := same
  obtain ⟨keeps, ends⟩ := Waiting.told told moves
  cases next with
  | ongoing wait' =>
    refine ⟨fun stage goes_on => ?_, nofun⟩
    cases goes_on
    exact ⟨wait', rfl, keeps wait' rfl⟩
  | finished result =>
    refine ⟨nofun, fun reply fault ended refused => ?_⟩
    cases ended
    exact ends fault (congrArg Progress.finished refused)

/-- The only fault that a wait ends with is that it was cancelled. -/
theorem cancelled_of_wait {timeout : Option Nat}
    (yields : Yields t (Action.wait timeout : Action V _) turns (.error fault)) :
    fault.isCancelled := by
  have begins : Stage.Told (Stage.ofCall (.wait timeout) : Stage V) :=
    ⟨.entering timeout .clearing, rfl, trivial⟩
  obtain ⟨⟨a, member, reply, ending, same⟩, every⟩ :=
    yields.of_call (P := Stage.Told) begins fun told taken goes_on =>
      (Stage.told_of_taken told taken).1 _ goes_on
  obtain ⟨taken, told, -⟩ := every a member
  exact (Stage.told_of_taken told taken).2 reply fault ending same.symm

theorem waitSeconds_of_refused {seconds : Decimal.Number} (refused : Timeout.Refused seconds) :
    (Action.waitSeconds (some seconds) : Action V _) = .done (.error Timeout.negative) := by
  obtain ⟨fault, judged⟩ := Timeout.ofSeconds_eq_error.mpr refused
  obtain rfl := Timeout.eq_negative judged
  simp [Action.waitSeconds, judged]

/-- A wait whose timeout is refused does nothing at all. -/
theorem nothing_of_waitSeconds {seconds : Option Decimal.Number}
    (yields : Yields t (Action.waitSeconds seconds : Action V _) turns (.error fault))
    (completed : fault.isCancelled = false) : fault = Timeout.negative ∧ turns = [] := by
  unfold Action.waitSeconds at yields
  split at yields
  · rename_i reason judged
    obtain ⟨none_taken, same⟩ := yields.of_done
    cases same
    cases seconds with
    | none => cases judged
    | some seconds => exact ⟨Timeout.eq_negative judged, none_taken⟩
  · rw [cancelled_of_wait yields] at completed
    cases completed

end Monitor

/-- An operation that ends as refused has written nothing, whatever other threads have done
meanwhile. Numerals are judged before a counter is made or the first access is taken, both of them
where there are two. The loops
of checked arithmetic and of an update that tries once leave the value, and the very allocation, as
each of their accesses has found it. A field set stays as it is. A wait whose timeout is refused
takes no access at all, so it leaves the lock, the wait set and a pending interrupt alone; it is
refused if the time is negative or no number. -/
theorem refused_writes_nothing (t : Nat) (fault : Fault) :
    (∀ numeral, Numeral.toInt64 numeral = .error fault → fault = Numeral.notAnInteger) ∧
    (∀ (turns : List (Turn (Register.shared Int64))) new,
      Yields t (Counter.trySet new) turns (.error fault) →
        fault = Numeral.notAnInteger ∧ turns = []) ∧
    (∀ (turns : List (Turn (Register.shared Int64))) expected new,
      Yields t (Counter.tryCompareAndSet expected new) turns (.error fault) →
        fault = Numeral.notAnInteger ∧ turns = []) ∧
    (∀ expected new : Numeral, expected.toInt64 = .error fault ∨ new.toInt64 = .error fault →
      Counter.tryCompareAndSet expected new = .done (.error Numeral.notAnInteger)) ∧
    (∀ (turns : List (Turn (Register.shared Int64))) delta,
      Yields t (Counter.checkedIncrementBy delta) turns (.error fault) ∨
          Yields t (Counter.checkedDecrementBy delta) turns (.error fault) →
        fault = .overflow ∧ ∀ a ∈ turns, a.after = a.before) ∧
    (∀ (α : Type) (turns : List (Turn (Slot.shared α))) f,
      Yields t (Slot.tryUpdate f) turns (.error fault) →
        fault = .concurrentUpdate ∧ ∀ a ∈ turns, a.after.held = a.before.held) ∧
    (∀ (α : Type) names, (FieldSet.declare names : Except Fault (FieldSet α)) = .error fault →
      ∃ name, fault = FieldSet.declaredTwice name) ∧
    (∀ (α : Type) (s : FieldSet α) request, (s.serve request).1 = .error fault →
      fault = FieldSet.unknown request.name ∧ (s.serve request).2 = s) ∧
    (∀ (V : Type) (turns : List (Turn (Monitor.shared V))) seconds,
      Yields t (Monitor.Action.waitSeconds seconds) turns (.error fault) →
        fault.isCancelled = false → fault = Timeout.negative ∧ turns = []) ∧
    ∀ (V : Type) seconds, Timeout.Refused seconds →
      (Monitor.Action.waitSeconds (some seconds) : Monitor.Action V _) =
        .done (.error Timeout.negative) := by
  refine ⟨fun _ => Numeral.eq_notAnInteger, fun _ _ => Counter.nothing_of_trySet,
    fun _ _ _ => Counter.nothing_of_tryCompareAndSet,
    fun _ _ => Counter.tryCompareAndSet_of_refused, ?_,
    fun _ _ _ => Slot.kept_of_tryUpdate, ?_, fun _ _ _ => FieldSet.kept_of_serve,
    fun _ _ _ => Monitor.nothing_of_waitSeconds, fun _ _ => Monitor.waitSeconds_of_refused⟩
  · rintro turns delta (yields | yields)
    · exact Counter.kept_of_shiftChecked yields
    · exact Counter.kept_of_shiftChecked yields
  · intro α names refused
    obtain ⟨-, name, -, -, -, -, rfl⟩ := FieldSet.declare_eq_error.mp refused
    exact ⟨name, rfl⟩

/-- A counter two below the greatest value. A thread has read it for an increment by 2 when another
one sets it to this value. -/
def filled :
    System (Register.shared Int64) (Except Fault Int64) × List (Turn (Register.shared Int64)) :=
  let s : System (Register.shared Int64) (Except Fault Int64) := { state := Int64.maxValue - 2 }
  let s := (s.assign 1 (Except.ok <$> Counter.replace Int64.maxValue)).1
  (s.assign 0 (Counter.checkedIncrementBy 2)).1.follow [] [(0, {}), (1, {})]

/-- A slot of which a thread has read the contents 7 for an update when another one puts 7 there
once more. -/
def renewed : System (Slot.shared Nat) (Except Fault Nat) × List (Turn (Slot.shared Nat)) :=
  let s : System (Slot.shared Nat) (Except Fault Nat) := { state := Slot.new 7 }
  let s := (s.assign 1 (Except.ok <$> Slot.getAndSet 7)).1
  (s.assign 0 (Slot.tryUpdate (· * 2))).1.follow [] [(0, {}), (1, {})]

theorem refused_writes_nothing_filled :
    (∃ turns : List (Turn (Register.shared Int64)),
      Yields 0 (Counter.checkedIncrementBy 2) turns (.error .overflow) ∧
        turns.map Turn.before = [Int64.maxValue, Int64.maxValue - 2] ∧
        ∀ a ∈ turns, a.after = a.before) ∧
    (∃ turns : List (Turn (Slot.shared Nat)),
      Yields 0 (Slot.tryUpdate (· * 2)) turns (.error .concurrentUpdate) ∧
        turns.map (fun a => (a.before.held.id, a.before.held.value)) = [(1, 7), (0, 7)] ∧
        ∀ a ∈ turns, a.after.held = a.before.held) ∧
    (∃ turns : List (Turn (Register.shared Int64)),
      Yields 0 (Counter.trySet (.whole (2 ^ 63))) turns (.error Numeral.notAnInteger) ∧
        turns = []) ∧
    (∃ turns : List (Turn (Register.shared Int64)),
      Yields 0 (Counter.tryCompareAndSet (.whole 5) (.whole (2 ^ 63))) turns
        (.error Numeral.notAnInteger) ∧ turns = []) ∧
    Counter.tryCompareAndSet (.whole (2 ^ 63)) (.whole 5) =
      .done (.error Numeral.notAnInteger) ∧
    (FieldSet.declare ["a", "a"] : Except Fault (FieldSet Nat)) =
      .error (FieldSet.declaredTwice "a") ∧
    (∃ s : FieldSet Nat, FieldSet.declare ["a"] = .ok s ∧ (s.serve (.set "b" 1)).2 = s) ∧
    (∃ turns : List (Turn (Monitor.shared Nat)),
      Yields 0 (Monitor.Action.waitSeconds (some .nan)) turns (.error Timeout.negative) ∧
        turns = []) ∧
    (Monitor.Action.waitSeconds (some (.finite true 1 0)) : Monitor.Action Nat _) =
      .done (.error Timeout.negative) := by
  have overflow := refused_writes_nothing 0 .overflow
  have concurrent := refused_writes_nothing 0 .concurrentUpdate
  have invalid := refused_writes_nothing 0 Numeral.notAnInteger
  have unknown := refused_writes_nothing 0 (FieldSet.unknown "b")
  have negative := refused_writes_nothing 0 Timeout.negative
  refine ⟨?_, ?_, ?_, ?_, invalid.2.2.2.1 _ _ (.inl rfl), rfl, ?_, ?_,
    negative.2.2.2.2.2.2.2.2.2 Nat _ Nat.one_ne_zero⟩
  · have run : System.Run (fun _ _ => False) _ filled.1 filled.2 := System.Run.start.follow _
    obtain ⟨a, before, -, yields⟩ := Yields.of_run (c := {}) run (fun _ => id) rfl
    refine ⟨_, yields, ?_, (overflow.2.2.2.2.1 _ 2 (.inl yields)).2⟩
    rw [List.map_cons, before]
    decide +kernel
  · have run : System.Run (fun _ _ => False) _ renewed.1 renewed.2 := System.Run.start.follow _
    obtain ⟨a, before, -, yields⟩ := Yields.of_run (c := {}) run (fun _ => id) rfl
    refine ⟨_, yields, ?_, (concurrent.2.2.2.2.2.1 Nat _ _ yields).2⟩
    rw [List.map_cons, before]
    decide +kernel
  · have refused := @Carries.begins (Register.shared Int64) _ 0 (Counter.trySet (.whole (2 ^ 63)))
    exact ⟨[], refused, (invalid.2.1 [] (.whole (2 ^ 63)) refused).2⟩
  · have refused := @Carries.begins (Register.shared Int64) _ 0
      (Counter.tryCompareAndSet (.whole 5) (.whole (2 ^ 63)))
    exact ⟨[], refused, (invalid.2.2.1 [] (.whole 5) (.whole (2 ^ 63)) refused).2⟩
  · obtain ⟨s, declared⟩ := (FieldSet.exists_declare_iff (α := Nat)).mpr (List.nodup_singleton "a")
    refine ⟨s, declared, (unknown.2.2.2.2.2.2.2.1 Nat s (.set "b" 1) ?_).2⟩
    rw [FieldSet.serve_of_not_mem]
    · rfl
    · rw [(FieldSet.names_of_declare declared).1]
      decide
  · exact ⟨[], .begins, (negative.2.2.2.2.2.2.2.2.1 Nat [] (some .nan) .begins rfl).2⟩

end Interlock

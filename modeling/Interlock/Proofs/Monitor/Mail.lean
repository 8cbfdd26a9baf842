import Interlock.Proofs.Monitor.Guarded
import Interlock.Proofs.Monitor.Phase
import Interlock.Proofs.Opening

/-!
# Interrupts and their messages

An interrupt is two writes, of the message and of the flag, and it is taken with two reads in the
same order. The flag tells exactly whether the thread has been interrupted since it last took an
interrupt (`pending_eq_raised`). The message is less reliable: the thread may clear the flag of one
interrupt and then take the message of the next one, which is left without a message of its own
(`overrun`).
-/

namespace Interlock.Monitor

variable {V β : Type}

/-- Where a wait is in taking an interrupt. -/
def Waiting.taking? : Waiting → Option Mailbox.Taking
  | entering _ way | consuming _ _ way => some way
  | _ => none

namespace Stage

/-- Where a thread is in taking its interrupt. -/
def taking? : Stage V → Option Mailbox.Taking
  | taking way => some way
  | waiting wait | pausing _ _ _ wait => wait.taking?
  | _ => none

/-- Whom a thread is interrupting, and where it is in that. -/
def raising? : Stage V → Option (Nat × Mailbox.Raising)
  | raising target way => some (target, way)
  | _ => none

/-- What an access of thread `t` makes of the mailbox of thread `r`. -/
def mail (t r : Nat) (box : Mailbox) (stage : Stage V) : Mailbox :=
  match stage.raising?, stage.taking? with
  | some (target, way), _ => if r = target then (way.advance box).1 else box
  | none, some way => if r = t then (way.advance box).1 else box
  | none, none => box

/-- A thread that makes itself known goes on to the lock. -/
def Plain (stage : Stage V) : Prop :=
  ∀ next, stage = identifying next → next = comparing ∨ ∃ lock, next = locking lock

theorem Of.plain {call : Call V} {stage : Stage V} (of : stage.Of call) : stage.Plain := by
  rintro next rfl
  rcases of with ⟨rfl, -⟩ | ⟨rfl, -⟩ | ⟨rfl, -⟩
  · exact Or.inr ⟨_, rfl⟩
  · exact Or.inr ⟨_, rfl⟩
  · exact Or.inl rfl

end Stage

section Access

variable {t r : Nat} {chance : Chance} {m m' : Monitor V}

/-- A write to one mailbox, seen from any of them. -/
theorem get_of_set {target : Nat} {f : Mailbox → Mailbox}
    (boxes : m'.mailboxes = m.mailboxes.set target (f (m.mailboxes.get target))) :
    m'.mailboxes.get r =
      if r = target then f (m.mailboxes.get r) else m.mailboxes.get r := by
  rw [boxes, Table.get_set]
  split
  · subst r
    rfl
  · rfl

theorem Waiting.advance_mail {wait : Waiting} {progress : Progress Waiting (Except Fault Ending)}
    (moves : wait.advance t chance m = some (m', progress)) :
    m'.mailboxes.get r = (Stage.waiting (V := V) wait).mail t r (m.mailboxes.get r) := by
  cases wait with
  | entering timeout way | consuming node queued way =>
    refine get_of_set (f := fun box => (way.advance box).1) ?_
    simp only [advance] at moves
    repeat' split at moves
    all_goals cases moves
    all_goals rfl
  | watching node deadline levels glance =>
    cases glance with
    | park =>
      simp only [advance, Option.map_eq_some_iff] at moves
      obtain ⟨parked, park, moved⟩ := moves
      cases moved
      obtain ⟨permits, rfl⟩ := park_eq_some park
      rfl
    | _ =>
      simp only [advance] at moves
      repeat' split at moves
      all_goals cases moves
      all_goals rfl
  | _ =>
    simp only [advance] at moves
    repeat' split at moves
    all_goals cases moves
    all_goals rfl

/-- What an access does to the mailboxes. -/
theorem Stage.advance_mail {stage : Stage V} {progress : Progress (Stage V) (Reply V)}
    (moves : stage.advance t chance m = some (m', progress)) :
    m'.mailboxes.get r = stage.mail t r (m.mailboxes.get r) := by
  cases stage with
  | identifying next =>
    cases moves
    unfold identify
    split <;> rfl
  | waiting wait | pausing deadline condition tests wait =>
    simp only [advance] at moves
    split at moves
    · cases moves
    all_goals
      rename_i moved
      cases moves
      exact Waiting.advance_mail moved
  | raising target way =>
    refine get_of_set (f := fun box => (way.advance box).1) ?_
    simp only [advance] at moves
    split at moves <;> cases moves <;> rfl
  | taking way =>
    refine get_of_set (f := fun box => (way.advance box).1) ?_
    simp only [advance] at moves
    split at moves <;> cases moves <;> rfl
  | notifying all =>
    cases all <;> simp only [advance] at moves <;> split at moves <;> cases moves <;> rfl
  | waking threads reply =>
    rcases threads with _ | ⟨_, _ | _⟩ <;> cases moves <;> rfl
  | _ =>
    simp only [advance] at moves
    repeat' split at moves
    all_goals cases moves
    all_goals rfl

/-- A thread is about to set the flag of another one after it has written the message. -/
theorem Stage.writes_of_flagging {stage next : Stage V} (plain : stage.Plain)
    (moves : stage.advance t chance m = some (m', .ongoing next))
    (flags : next.raising? = some (r, .flagging)) :
    ∃ message, stage.raising? = some (r, .writing message) := by
  cases stage with
  | identifying next' =>
    cases moves
    rcases plain next rfl with rfl | ⟨lock, rfl⟩ <;> cases flags
  | raising target way =>
    cases way with
    | writing message =>
      cases moves
      cases flags
      exact ⟨message, rfl⟩
    | flagging =>
      cases moves
      cases flags
  | notifying all =>
    cases all <;> simp only [advance] at moves <;> split at moves <;> cases moves <;> cases flags
  | waking threads reply =>
    rcases threads with _ | ⟨_, _ | _⟩ <;> cases moves
    cases flags
  | _ =>
    simp only [advance] at moves
    repeat' split at moves
    all_goals cases moves
    all_goals cases flags

/-- A wait is about to take the message of an interrupt after it has cleared its flag. -/
theorem Waiting.clears_of_fetching {wait next : Waiting}
    (moves : wait.advance t chance m = some (m', .ongoing next))
    (fetches : next.taking? = some .fetching) :
    wait.taking? = some .clearing ∧ (m.mailboxes.get t).pending := by
  cases wait with
  | entering timeout way =>
    cases way with
    | clearing =>
      by_cases pending : (m.mailboxes.get t).pending
      · exact ⟨rfl, pending⟩
      · rw [advance, Mailbox.Taking.advance, if_neg pending] at moves
        cases timeout <;> cases moves <;> cases fetches
    | fetching => cases moves
  | consuming node queued way =>
    cases way with
    | clearing =>
      by_cases pending : (m.mailboxes.get t).pending
      · exact ⟨rfl, pending⟩
      · rw [advance, Mailbox.Taking.advance, if_neg pending] at moves
        cases queued <;> cases moves
        cases fetches
    | fetching =>
      cases moves
      cases fetches
  | watching node deadline levels glance =>
    cases glance with
    | park =>
      simp only [advance, Option.map_eq_some_iff] at moves
      obtain ⟨parked, -, moved⟩ := moves
      cases moved
      cases fetches
    | _ =>
      simp only [advance] at moves
      repeat' split at moves
      all_goals cases moves
      all_goals cases fetches
  | _ =>
    simp only [advance, conclude] at moves
    repeat' split at moves
    all_goals cases moves
    all_goals cases fetches

/-- A thread is about to take the message of an interrupt after it has cleared its flag. -/
theorem Stage.clears_of_fetching {stage next : Stage V} (plain : stage.Plain)
    (moves : stage.advance t chance m = some (m', .ongoing next))
    (fetches : next.taking? = some .fetching) :
    stage.taking? = some .clearing ∧ (m.mailboxes.get t).pending := by
  cases stage with
  | identifying next' =>
    cases moves
    rcases plain next rfl with rfl | ⟨lock, rfl⟩ <;> cases fetches
  | waiting wait | pausing deadline condition tests wait =>
    simp only [advance] at moves
    split at moves <;> cases moves
    · exact Waiting.clears_of_fetching ‹_› fetches
    all_goals cases fetches
  | taking way =>
    cases way with
    | clearing =>
      by_cases pending : (m.mailboxes.get t).pending
      · exact ⟨rfl, pending⟩
      · rw [advance, Mailbox.Taking.advance, if_neg pending] at moves
        cases moves
    | fetching => cases moves
  | raising target way => cases way <;> cases moves <;> cases fetches
  | notifying all =>
    cases all <;> simp only [advance] at moves <;> split at moves <;> cases moves <;> cases fetches
  | waking threads reply =>
    rcases threads with _ | ⟨_, _ | _⟩ <;> cases moves
    cases fetches
  | _ =>
    simp only [advance] at moves
    repeat' split at moves
    all_goals cases moves
    all_goals cases fetches

end Access

/-- The message that an access writes to the mailbox of thread `t`. -/
def written? (t : Nat) (a : Turn (shared V)) : Option (Option String) :=
  match a.stage.raising? with
  | some (target, .writing message) => if target = t then some message else none
  | _ => none

/-- The access sets the flag of thread `t`. -/
def raises (t : Nat) (a : Turn (shared V)) : Bool :=
  a.stage.raising? = some (t, .flagging)

/-- With the access thread `t` clears its own flag, which was set. -/
def consumes (t : Nat) (a : Turn (shared V)) : Bool :=
  a.thread = t ∧ a.stage.taking? = some .clearing ∧ (a.before.mailboxes.get t).pending

/-- With the access thread `t` takes the message of the interrupt whose flag it has cleared. -/
def fetches (t : Nat) (a : Turn (shared V)) : Bool :=
  a.thread = t ∧ a.stage.taking? = some .fetching

/-- The message that a thread is told when it has taken an interrupt. -/
def taken? (a : Turn (shared V)) : Option String :=
  match a.stage.taking? with
  | none => none
  | some way =>
    match (way.advance (a.before.mailboxes.get a.thread)).2 with
    | .ongoing _ => none
    | .finished answer => answer

/-- Thread `t` has been interrupted since it last took an interrupt. -/
def raised (t : Nat) : List (Turn (shared V)) → Bool
  | [] => false
  | a :: older => raises t a || raised t older && !consumes t a

/-- The message that was written last to the mailbox of thread `t`. -/
def lastMessage (t : Nat) (trace : List (Turn (shared V))) : Option (Option String) :=
  trace.findSome? (written? t)

/-- An interrupt of thread `t` is there, or at least its message. -/
def Arriving (t : Nat) (m : Monitor V) (trace : List (Turn (shared V))) : Prop :=
  (m.mailboxes.get t).pending ∨ ∃ r, pending r trace = some (.raising t .flagging)

/-- Thread `t` has taken the message of an interrupt when the next one had come already, or the
message of the next one. -/
def Overlapped (t : Nat) (trace : List (Turn (shared V))) : Prop :=
  ∃ newer a older, trace = newer ++ a :: older ∧ fetches t a ∧ Arriving t a.before older

theorem Stage.taking?_of_raising? {stage : Stage V} {errand : Nat × Mailbox.Raising}
    (raises : stage.raising? = some errand) : stage.taking? = none := by
  cases stage with
  | raising => rfl
  | _ => cases raises

section Turn

variable {t : Nat} {a : Turn (shared V)}

theorem mailbox_eq (taken : a.Taken) :
    a.after.mailboxes.get t = a.stage.mail a.thread t (a.before.mailboxes.get t) :=
  Stage.advance_mail taken

/-- What an access does to a flag. -/
theorem pending_after (taken : a.Taken) :
    (a.after.mailboxes.get t).pending =
      (raises t a || (a.before.mailboxes.get t).pending && !consumes t a) := by
  rw [mailbox_eq taken]
  unfold Stage.mail raises consumes
  cases raising : a.stage.raising? with
  | some errand =>
    obtain ⟨target, way⟩ := errand
    rw [Stage.taking?_of_raising? raising]
    by_cases same : t = target
    · subst same
      cases way <;> simp [Mailbox.Raising.advance]
    · simp [same, Ne.symm same]
  | none =>
    cases taking : a.stage.taking? with
    | none => simp
    | some way =>
      by_cases mine : t = a.thread
      · subst mine
        cases way with
        | clearing =>
          cases flag : (a.before.mailboxes.get a.thread).pending <;>
            simp [Mailbox.Taking.advance, flag]
        | fetching => simp [Mailbox.Taking.advance]
      · simp [mine, Ne.symm mine]

/-- What an access does to a message. -/
theorem message_after (taken : a.Taken) :
    (a.after.mailboxes.get t).message =
      (written? t a).getD (if fetches t a then none else (a.before.mailboxes.get t).message) := by
  rw [mailbox_eq taken]
  unfold Stage.mail written? fetches
  cases raising : a.stage.raising? with
  | some errand =>
    obtain ⟨target, way⟩ := errand
    rw [Stage.taking?_of_raising? raising]
    by_cases same : t = target
    · subst same
      cases way <;> simp [Mailbox.Raising.advance]
    · cases way <;> simp [same, Ne.symm same]
  | none =>
    cases taking : a.stage.taking? with
    | none => simp
    | some way =>
      by_cases mine : t = a.thread
      · subst mine
        cases way with
        | clearing =>
          cases flag : (a.before.mailboxes.get a.thread).pending <;>
            simp [Mailbox.Taking.advance, flag]
        | fetching => simp [Mailbox.Taking.advance]
      · simp [mine, Ne.symm mine]

end Turn

variable {allowed : Nat → (shared V).Action β → Prop} {value : V} {settings : Settings}
  {u v : System (shared V) β} {t : Nat} {a : Turn (shared V)}
  {trace newer older : List (Turn (shared V))}

theorem plain_of_run (run : System.Run allowed { state := Monitor.new value settings } u trace)
    {stage : Stage V} (here : u.stage? t = some stage) : stage.Plain := by
  obtain ⟨call, of⟩ := exists_call_of_run run (System.stage?_start _) here
  exact of.plain

/-- In every state of every run the flag of a thread is set if and only if it has been interrupted
since it last took an interrupt. -/
theorem pending_eq_raised
    (run : System.Run allowed { state := Monitor.new value settings } u trace) :
    (u.state.mailboxes.get t).pending = raised t trace := by
  refine run.accesses_induction
    (I := fun (m : Monitor V) trace => (m.mailboxes.get t).pending = raised t trace)
    ?start ?takes ?elapses
  case start => exact congrArg Mailbox.pending (Table.get_empty t)
  case takes =>
    intro v older a _ _ _ taken ih
    rw [pending_after taken, ih]
    rfl
  case elapses => exact fun _ ih => ih

/-- A stage of an interrupt that its thread comes to only with an access. -/
theorem Stage.ne_ofCall_of_flagging {stage : Stage V} (flags : stage.raising? = some (t, .flagging))
    (call : Call V) : stage ≠ .ofCall call := by
  rintro rfl
  cases call with
  | waitUntil timeout condition => cases timeout <;> cases flags
  | _ => cases flags

theorem Stage.ne_ofCall_of_fetching {stage : Stage V} (fetching : stage.taking? = some .fetching)
    (call : Call V) : stage ≠ .ofCall call := by
  rintro rfl
  cases call with
  | waitUntil timeout condition => cases timeout <;> cases fetching
  | _ => cases fetching

theorem Stage.eq_raising {stage : Stage V} {way : Mailbox.Raising}
    (raises : stage.raising? = some (t, way)) : stage = .raising t way := by
  cases stage with
  | raising =>
    cases raises
    rfl
  | _ => cases raises

section Access

variable (run : System.Run allowed { state := Monitor.new value settings } v older)
  (here : v.stage? a.thread = some a.stage) (taken : a.Taken)
include run here taken

/-- An interrupt that comes has come before, unless its message is written now. -/
theorem Arriving.before (arriving : Arriving t a.after (a :: older))
    (silent : written? t a = none) : Arriving t a.before older := by
  rcases arriving with flag | ⟨r, left⟩
  · rw [pending_after taken, Bool.or_eq_true] at flag
    rcases flag with raises | before
    · have flags : a.stage.raising? = some (t, .flagging) := of_decide_eq_true raises
      refine Or.inr ⟨a.thread, ?_⟩
      rw [← Stage.eq_raising flags]
      exact run.pending_of_stage? (System.stage?_start _) here (Stage.ne_ofCall_of_flagging flags)
    · exact Or.inl (Bool.and_eq_true_iff.mp before).1
  · by_cases mine : a.thread = r
    · subst mine
      rw [pending_cons_self] at left
      obtain ⟨message, writes⟩ := Stage.writes_of_flagging (plain_of_run run here)
        (taken.ongoing (Progress.eq_ongoing left)) rfl
      simp [written?, writes] at silent
    · rw [pending_cons_of_ne mine] at left
      exact Or.inr ⟨r, left⟩

/-- A thread that is about to take a message has just cleared its flag, or it was before. -/
theorem consumes_or_fetching {stage : Stage V} (left : pending t (a :: older) = some stage)
    (fetching : stage.taking? = some .fetching) :
    consumes t a ∨ a.thread ≠ t ∧ pending t older = some stage := by
  by_cases mine : a.thread = t
  · subst mine
    rw [pending_cons_self] at left
    have clears := Stage.clears_of_fetching (plain_of_run run here)
      (taken.ongoing (Progress.eq_ongoing left)) fetching
    exact Or.inl (decide_eq_true ⟨rfl, clears⟩)
  · rw [pending_cons_of_ne mine] at left
    exact Or.inr ⟨mine, left⟩

end Access

theorem fetches_iff : fetches t a ↔ a.thread = t ∧ a.stage.taking? = some .fetching := by
  simp [fetches]

theorem consumes_iff : consumes t a ↔ a.thread = t ∧ a.stage.taking? = some .clearing ∧
    (a.before.mailboxes.get t).pending := by
  simp [consumes]

theorem taken?_eq_some {text : String} (takes : taken? a = some text) :
    a.stage.taking? = some .fetching ∧
      text = (a.before.mailboxes.get a.thread).message.getD Mailbox.defaultMessage := by
  unfold taken? at takes
  cases half : a.stage.taking? with
  | none =>
    rw [half] at takes
    cases takes
  | some way =>
    rw [half] at takes
    cases way with
    | clearing =>
      by_cases flag : (a.before.mailboxes.get a.thread).pending <;>
        simp [Mailbox.Taking.advance, flag] at takes
    | fetching =>
      simp only [Mailbox.Taking.advance, Option.some.injEq] at takes
      exact ⟨rfl, takes.symm⟩

theorem Overlapped.cons (a : Turn (shared V)) (overlapped : Overlapped t older) :
    Overlapped t (a :: older) := by
  obtain ⟨newer, b, before, rfl, halves⟩ := overlapped
  exact ⟨a :: newer, b, before, rfl, halves⟩

/-- An interrupt of thread `t` comes, or its message has not been taken. -/
def Undelivered (t : Nat) (m : Monitor V) (trace : List (Turn (shared V))) : Prop :=
  Arriving t m trace ∨ ∃ stage, pending t trace = some stage ∧ stage.taking? = some .fetching

/-- What the mailbox of thread `t` holds if all its interrupts have messages of their own. -/
structure Carried (t : Nat) (m : Monitor V) (trace : List (Turn (shared V))) : Prop where
  sent : ∀ text, (m.mailboxes.get t).message = some text →
    ∃ b ∈ trace, written? t b = some (some text)
  full : ¬ Overlapped t trace → Undelivered t m trace → (m.mailboxes.get t).message ≠ none

/-- A message that is taken empties the mailbox, unless another interrupt comes too early. -/
theorem Undelivered.before (run : System.Run allowed { state := Monitor.new value settings } v older)
    (here : v.stage? a.thread = some a.stage) (taken : a.Taken)
    (undelivered : Undelivered t a.after (a :: older)) (silent : written? t a = none)
    (apart : ¬ Overlapped t (a :: older)) :
    fetches t a = false ∧ Undelivered t a.before older := by
  rcases undelivered with arriving | ⟨stage, left, fetching⟩
  · have before := arriving.before run here taken silent
    refine ⟨?_, Or.inl before⟩
    rw [← Bool.not_eq_true]
    exact fun takes => apart ⟨[], a, older, rfl, takes, before⟩
  · rcases consumes_or_fetching run here taken left fetching with consumed | ⟨other, before⟩
    · obtain ⟨-, clearing, flag⟩ := consumes_iff.mp consumed
      refine ⟨?_, Or.inl (Or.inl flag)⟩
      rw [← Bool.not_eq_true, fetches_iff, clearing]
      exact fun takes => nomatch takes.2
    · refine ⟨?_, Or.inr ⟨stage, before, fetching⟩⟩
      rw [← Bool.not_eq_true, fetches_iff]
      exact fun takes => other takes.1

/-- Every access keeps what the mailbox holds. -/
theorem Carried.access (carried : Carried t a.before older)
    (run : System.Run allowed { state := Monitor.new value settings } v older)
    (here : v.stage? a.thread = some a.stage) (taken : a.Taken)
    (explicit : written? t a ≠ some none) : Carried t a.after (a :: older) := by
  have message := message_after (t := t) taken
  cases writes : written? t a with
  | some written =>
    rw [writes, Option.getD_some] at message
    refine ⟨?_, fun _ _ => ?_⟩
    · intro text holds
      exact ⟨a, List.mem_cons_self .., by rw [writes, ← message, holds]⟩
    · rw [message]
      rintro rfl
      exact explicit writes
  | none =>
    rw [writes, Option.getD_none] at message
    refine ⟨?_, fun apart undelivered => ?_⟩
    · intro text holds
      rw [message] at holds
      split at holds
      · cases holds
      · obtain ⟨b, inside, sent⟩ := carried.sent text holds
        exact ⟨b, List.mem_cons_of_mem a inside, sent⟩
    · obtain ⟨keeps, before⟩ := undelivered.before run here taken writes apart
      rw [message, keeps, if_neg Bool.false_ne_true]
      exact carried.full (fun overlapped => apart (overlapped.cons a)) before

theorem carried_of_run
    (run : System.Run allowed { state := Monitor.new value settings } u trace)
    (explicit : ∀ b ∈ trace, written? t b ≠ some none) : Carried t u.state trace := by
  revert explicit
  refine run.accesses_induction
    (I := fun (m : Monitor V) trace =>
      (∀ b ∈ trace, written? t b ≠ some none) → Carried t m trace)
    ?start ?takes ?elapses
  case start =>
    intro _
    refine ⟨?_, fun _ undelivered => ?_⟩
    · intro text holds
      rw [Monitor.new, Table.get_empty] at holds
      cases holds
    · rcases undelivered with (flag | ⟨r, left⟩) | ⟨stage, left, -⟩
      · rw [Monitor.new, Table.get_empty] at flag
        cases flag
      · cases left
      · cases left
  case takes =>
    intro v older a run_v _ here taken ih explicit
    have before := ih fun b inside => explicit b (List.mem_cons_of_mem a inside)
    exact before.access run_v here taken (explicit a (List.mem_cons_self ..))
  case elapses => exact fun _ ih explicit => ⟨(ih explicit).sent, (ih explicit).full⟩

/-- The message that a thread is told when it takes an interrupt, if all interrupts have messages of
their own: it is the message of one of them, or the default message, but the latter only if the
thread has taken the message of an interrupt before while another one came. -/
theorem taken_message {text : String}
    (run : System.Run allowed { state := Monitor.new value settings } u (newer ++ a :: older))
    (takes : taken? a = some text) (explicit : ∀ b ∈ older, written? a.thread b ≠ some none) :
    (∃ b ∈ older, written? a.thread b = some (some text)) ∨
      text = Mailbox.defaultMessage ∧ Overlapped a.thread older := by
  obtain ⟨w, run_w, -⟩ := run.split
  obtain ⟨v, run_v, same, here, -⟩ := run_w.at_access
  have carried := carried_of_run run_v explicit
  rw [same] at carried
  obtain ⟨fetching, told⟩ := taken?_eq_some takes
  have left := run_v.pending_of_stage? (System.stage?_start _) here
    (Stage.ne_ofCall_of_fetching fetching)
  cases message : (a.before.mailboxes.get a.thread).message with
  | some written =>
    rw [message, Option.getD_some] at told
    rw [told]
    exact Or.inl (carried.sent written message)
  | none =>
    rw [message, Option.getD_none] at told
    refine Or.inr ⟨told, by_contra fun apart => ?_⟩
    exact carried.full apart (Or.inr ⟨a.stage, left, fetching⟩) message

/-- Thread `1` interrupts thread `0` twice, each time with a message. Thread `0` clears the flag of
the first interrupt, takes the message of the second one, and is told the default message when it
takes the second one. -/
@[irreducible]
def overrun : System (shared Unit) Unit × List (Turn (shared Unit)) :=
  let start : System (shared Unit) Unit := { state := Monitor.new () }
  let taker : Action Unit Unit := do
    let _ ← Action.takeInterrupt
    let _ ← Action.takeInterrupt
  let raiser : Action Unit Unit := do
    Action.interrupt 0 (some "first")
    Action.interrupt 0 (some "second")
  ((start.assign 0 taker).1.assign 1 raiser).1.follow []
    ([1, 1, 1, 0, 1, 0, 1, 0, 0].map fun t => (t, {}))

theorem run_overrun : System.Run (fun _ _ => True) { state := Monitor.new () } overrun.1
    overrun.2 := by
  unfold overrun
  exact System.Run.follow (.assign 1 _ (.assign 0 _ .start rfl trivial) rfl trivial) _

/-- The last access takes an interrupt and is told the default message. -/
theorem last_overrun : ∃ a older, overrun.2 = a :: older ∧ a.thread = 0 ∧
    taken? a = some Mailbox.defaultMessage := by
  have head : overrun.2.head?.map (fun a => (a.thread, taken? a)) =
      some (0, some Mailbox.defaultMessage) := by decide +kernel
  cases accesses : overrun.2 with
  | nil =>
    rw [accesses] at head
    cases head
  | cons a older =>
    rw [accesses] at head
    obtain ⟨mine, takes⟩ := Prod.mk.inj (Option.some.inj head)
    exact ⟨a, older, rfl, mine, takes⟩

theorem written_overrun {a : Turn (shared Unit)} {message : Option String} (inside : a ∈ overrun.2)
    (writes : written? 0 a = some message) : message ∈ [some "second", some "first"] := by
  have both : overrun.2.filterMap (written? 0) = [some "second", some "first"] := by
    decide +kernel
  rw [← both]
  exact List.mem_filterMap.mpr ⟨a, inside, writes⟩

theorem taken_message_overrun : ∃ a older, overrun.2 = a :: older ∧
    taken? a = some Mailbox.defaultMessage ∧ Overlapped 0 older := by
  obtain ⟨a, older, accesses, mine, takes⟩ := last_overrun
  have written : ∀ b ∈ older, ∀ message, written? a.thread b = some message →
      message ∈ [some "second", some "first"] := by
    intro b inside message writes
    rw [mine] at writes
    exact written_overrun (accesses ▸ List.mem_cons_of_mem a inside) writes
  have run : System.Run (fun _ _ => True) { state := Monitor.new () } overrun.1
      ([] ++ a :: older) := accesses ▸ run_overrun
  refine ⟨a, older, accesses, takes, ?_⟩
  rcases taken_message run takes
    (fun b inside writes => absurd (written b inside none writes) (by decide)) with
    ⟨b, inside, writes⟩ | ⟨-, overlapped⟩
  · exact absurd (written b inside _ writes) (by decide)
  · rwa [mine] at overlapped

/-- A thread can be told the default message although all its interrupts have messages of their
own. -/
theorem message_lost :
    ¬ ∀ (u : System (shared Unit) Unit) (trace : List (Turn (shared Unit))),
      System.Run (fun _ _ => True) { state := Monitor.new () } u trace →
      ∀ a ∈ trace, (∀ b ∈ trace, written? a.thread b ≠ some none) →
        ∀ text, taken? a = some text → ∃ b ∈ trace, written? a.thread b = some (some text) := by
  intro travels
  obtain ⟨a, older, accesses, mine, takes⟩ := last_overrun
  have inside : a ∈ overrun.2 := accesses ▸ List.mem_cons_self ..
  have told := travels _ _ run_overrun a inside
  rw [mine] at told
  obtain ⟨b, inside_b, writes⟩ := told
    (fun b inside writes => absurd (written_overrun inside writes) (by decide)) _ takes
  exact absurd (written_overrun inside_b writes) (by decide)

end Interlock.Monitor

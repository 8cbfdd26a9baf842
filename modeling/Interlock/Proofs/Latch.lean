import Interlock.Latch
import Interlock.Proofs.Monitor.Conditions
import Interlock.Proofs.Monitor.Parking

/-!
# Latches that threads share

A latch changes its count without the lock, so a thread may find the count above zero, and join the
wait set only after another thread has counted down to zero. This other thread has still to enter
the lock and to broadcast, and it cannot enter before the waiting thread is in the wait set. As long
as a thread waits that the latch should have released, there is therefore a thread that `Owes` a
broadcast.

The programs of a latch make a few calls one after the other, and `Task` is the call that a thread
is at. `Task.Holds` says for each of them what is known while the call is in progress.
-/

namespace Interlock.Latch

open Monitor

/-- The count at the beginning. -/
def initial (n : UInt32) : Int64 :=
  Int64.ofNat n.toNat

/-- What threads that wait for a latch wait for. -/
def isZero (count : Int64) : Bool × Int64 :=
  (count = 0, count)

/-- What threads do that share a latch. -/
inductive Request where
  | countDown
  | wait (timeout : Option Nat)
  | interrupt (target : Nat) (message : Option String)
  deriving DecidableEq

/-- A request, and how the wait has ended if it was one. -/
abbrev Served := Request × Option (Except Fault Bool)

/-- The program of a request. -/
def Request.program : Request → Action Served
  | countDown => Latch.countDown.bind fun _ => .done (countDown, none)
  | wait timeout => (Latch.wait timeout).bind fun result => .done (wait timeout, some result)
  | interrupt target message =>
    (Monitor.Action.interrupt target message).bind fun _ => .done (interrupt target message, none)

/-- Any of some threads may make any request. -/
def allowed (threads t : Nat) (program : Action Served) : Prop :=
  t < threads ∧ ∃ request : Request, program = request.program

/-- The access counts down. -/
def counts (a : Turn (shared Int64)) : Bool :=
  match a.stage with
  | .accessing _ => true
  | _ => false

/-- The access counts down and leaves zero. -/
def Opens (a : Turn (shared Int64)) : Prop :=
  counts a ∧ a.after.value = 0

/-- The moment at which a thread has last read the clock for a timeout, and this timeout. -/
def limited? (t : Nat) (trace : List (Turn (shared Int64))) : Option (Nat × Nat) :=
  trace.findSome? fun a =>
    match a.stage with
    | .limiting timeout _ => if a.thread = t then some (a.before.clock, timeout) else none
    | _ => none

/-- There is a timeout, and it has run out at a moment. -/
def Expired (timeout : Option Nat) (limit? : Option (Nat × Nat)) (moment : Nat) : Prop :=
  ∃ began limit, timeout = some limit ∧ limit? = some (began, limit) ∧ began + limit ≤ moment

theorem Expired.mono {timeout : Option Nat} {limit? : Option (Nat × Nat)} {moment later : Nat}
    (expired : Expired timeout limit? moment) (le : moment ≤ later) :
    Expired timeout limit? later := by
  obtain ⟨began, limit, same, seen, before⟩ := expired
  exact ⟨began, limit, same, seen, before.trans le⟩

/-- The call that a thread is at in the program of a request. -/
inductive Task where
  | counting
  /-- Entering the lock, to release the threads that wait. -/
  | opening
  | announcing
  | closing
  /-- Entering the lock, to wait. -/
  | entering (timeout : Option Nat)
  | awaiting (timeout : Option Nat)
  | leaving (timeout : Option Nat) (result : Except Fault Bool)
  | interrupting (target : Nat) (message : Option String)

namespace Task

def call : Task → Call Int64
  | counting => .access decreased
  | opening | entering _ => .lock
  | announcing => .broadcast
  | closing | leaving _ _ => .unlock
  | awaiting timeout => .waitUntil timeout isZero
  | interrupting target message => .interrupt target message

/-- The number of guards that the thread has. -/
def guards : Task → Nat
  | announcing | closing | awaiting _ | leaving _ _ => 1
  | _ => 0

/-- The thread may have counted down to zero without having broadcast. -/
def mayOwe : Task → Bool
  | counting | opening => true
  | _ => false

/-- The rest of the program once the call has been answered. -/
def next : Task → Reply Int64 → Action Served
  | counting => fun reply =>
    if reply.values?.any fun (_, after) => after = 0 then
      .call .lock fun _ => .call .broadcast fun _ => .call .unlock fun _ => .done (.countDown, none)
    else .done (.countDown, none)
  | opening => fun _ =>
    .call .broadcast fun _ => .call .unlock fun _ => .done (.countDown, none)
  | announcing => fun _ => .call .unlock fun _ => .done (.countDown, none)
  | closing => fun _ => .done (.countDown, none)
  | entering timeout => fun _ =>
    .call (.waitUntil timeout isZero) fun reply =>
      .call .unlock fun _ => .done (.wait timeout, some reply.testing.1)
  | awaiting timeout => fun reply =>
    .call .unlock fun _ => .done (.wait timeout, some reply.testing.1)
  | leaving timeout result => fun _ => .done (.wait timeout, some result)
  | interrupting target message => fun _ => .done (.interrupt target message, none)

/-- The call that follows. -/
def after : Task → Reply Int64 → Option Task
  | counting, reply =>
    if reply.values?.any fun (_, after) => after = 0 then some opening else none
  | opening, _ => some announcing
  | announcing, _ => some closing
  | entering timeout, _ => some (awaiting timeout)
  | awaiting timeout, reply => some (leaving timeout reply.testing.1)
  | _, _ => none

/-- What the program ends with after its last call. -/
def result : Task → Served
  | leaving timeout result => (.wait timeout, some result)
  | entering timeout | awaiting timeout => (.wait timeout, none)
  | interrupting target message => (.interrupt target message, none)
  | _ => (.countDown, none)

/-- The first call of a request. -/
def first : Request → Task
  | .countDown => counting
  | .wait timeout => entering timeout
  | .interrupt target message => interrupting target message

/-- A program goes on with the call that follows, or ends. -/
theorem next_eq (task : Task) (reply : Reply Int64) :
    task.next reply =
      (task.after reply).elim (.done task.result) fun task => .call task.call task.next := by
  cases task with
  | counting =>
    simp only [next, after]
    split <;> rfl
  | _ => rfl

end Task

theorem Request.program_eq (request : Request) :
    request.program = .call (Task.first request).call (Task.first request).next := by
  cases request with
  | countDown =>
    refine congrArg (Program.call _) (funext fun reply => ?_)
    show Program.bind (ite _ _ _) _ = _
    simp only [Task.first, Task.next]
    split <;> rfl
  | wait timeout => rfl
  | interrupt target message => rfl

/-- What a thread that waits expects: once the deadline has passed, the timeout has run out, and a
count that was found to be zero is zero still. -/
def Expects (timeout : Option Nat) (limit? : Option (Nat × Nat)) (count : Int64) :
    Stage Int64 → Prop
  | .limiting limit _ => timeout = some limit
  | .testing deadline _ _ | .pausing deadline _ _ _ =>
    ∀ moment ∈ deadline, Expired timeout limit? moment
  | .timing deadline _ _ met => Expired timeout limit? deadline ∧ (met → count = 0)
  | _ => False

/-- What the result of waiting tells. -/
def Tells (timeout : Option Nat) (limit? : Option (Nat × Nat)) (m : Monitor Int64) :
    Except Fault Bool → Prop
  | .ok true => m.value = 0
  | .ok false => Expired timeout limit? m.clock
  | .error _ => True

/-- What a call that waits expects where it goes on, and tells where it ends. -/
def Foretells (timeout : Option Nat) (limit? : Option (Nat × Nat)) (m : Monitor Int64) :
    Progress (Stage Int64) (Reply Int64) → Prop
  | .ongoing stage => Expects timeout limit? m.value stage
  | .finished reply => Tells timeout limit? m reply.testing.1

/-- What a thread knows while it waits, and once it has waited. -/
def Task.Knows (m : Monitor Int64) (limit? : Option (Nat × Nat)) (stage : Stage Int64) :
    Task → Prop
  | awaiting timeout => Expects timeout limit? m.value stage
  | leaving timeout result => Tells timeout limit? m result
  | _ => True

/-- What holds of a thread in the middle of a call. It owes a broadcast from counting down to zero
until it has broadcast. -/
structure Task.Holds (m : Monitor Int64) (t : Nat) (trace : List (Turn (shared Int64)))
    (stage : Stage Int64) (task : Task) : Prop where
  of : stage.Of task.call
  guards : Monitor.guards t trace = task.guards
  owes : Owes Opens t trace → task = .opening ∨ stage = .notifying true
  knows : task.Knows m (limited? t trace) stage

/-- What holds of a thread. -/
def Working (m : Monitor Int64) (t : Nat) (trace : List (Turn (shared Int64))) :
    Activity (shared Int64) Served → Prop
  | .idle => guards t trace = 0 ∧ ¬ Owes Opens t trace
  | .busy stage next => ∃ task : Task, next = task.next ∧ task.Holds m t trace stage

theorem Working.of_isIdle {m : Monitor Int64} {t : Nat} {trace : List (Turn (shared Int64))}
    {activity : Activity (shared Int64) Served} (working : Working m t trace activity)
    (idle : activity.isIdle) : guards t trace = 0 ∧ ¬ Owes Opens t trace := by
  cases activity with
  | idle => exact working
  | busy stage next => cases idle

theorem Working.exists_holds {m : Monitor Int64} {t : Nat} {trace : List (Turn (shared Int64))}
    {activity : Activity (shared Int64) Served} {stage : Stage Int64}
    (working : Working m t trace activity) (here : activity.stage? = some stage) :
    ∃ task : Task, task.Holds m t trace stage := by
  cases activity with
  | idle => cases here
  | busy stage' next =>
    cases here
    obtain ⟨task, -, holds⟩ := working
    exact ⟨task, holds⟩

/-- A monitor some accesses, or some time, later. -/
structure Later (m m' : Monitor Int64) : Prop where
  zero : m.value = 0 → m'.value = 0
  clock : m.clock ≤ m'.clock

section Later

variable {m m' : Monitor Int64} {timeout : Option Nat} {limit? : Option (Nat × Nat)}
  {stage : Stage Int64} {t : Nat} {trace : List (Turn (shared Int64))}

theorem Expects.later (later : Later m m') (expects : Expects timeout limit? m.value stage) :
    Expects timeout limit? m'.value stage := by
  cases stage with
  | timing deadline condition tests met => exact ⟨expects.1, later.zero ∘ expects.2⟩
  | _ => exact expects

theorem Tells.later (later : Later m m') {result : Except Fault Bool}
    (tells : Tells timeout limit? m result) : Tells timeout limit? m' result := by
  match result with
  | .ok true => exact later.zero tells
  | .ok false => exact Expired.mono tells later.clock
  | .error _ => trivial

theorem Task.Knows.later (later : Later m m') {task : Task} (knows : task.Knows m limit? stage) :
    task.Knows m' limit? stage := by
  cases task with
  | awaiting timeout => exact Expects.later later knows
  | leaving timeout result => exact Tells.later later knows
  | _ => trivial

/-- What holds of a thread goes on to hold while others act and time passes. -/
theorem Working.later (later : Later m m') {newer : List (Turn (shared Int64))}
    (guards_eq : guards t newer = guards t trace)
    (owes_iff : Owes Opens t newer ↔ Owes Opens t trace)
    (limited_eq : limited? t newer = limited? t trace) {activity : Activity (shared Int64) Served}
    (working : Working m t trace activity) : Working m' t newer activity := by
  cases activity with
  | idle => exact ⟨guards_eq.trans working.1, fun owes => working.2 (owes_iff.mp owes)⟩
  | busy stage next =>
    obtain ⟨task, rest, holds⟩ := working
    refine ⟨task, rest, holds.of, guards_eq.trans holds.guards, holds.owes ∘ owes_iff.mp, ?_⟩
    rw [limited_eq]
    exact holds.knows.later later

end Later

/-- Counting down takes one off, but stops at zero. -/
theorem toInt_decreased (count : Int64) : (decreased count).toInt = max 0 (count.toInt - 1) := by
  have zero : (0 : Int64).toInt = 0 := rfl
  have one : (1 : Int64).toInt = 1 := rfl
  unfold decreased
  split
  case isTrue positive =>
    have above := Int64.lt_iff_toInt_lt.mp positive
    have some_left : (1 : Int64) ≤ count := Int64.le_iff_toInt_le.mpr (by omega)
    rw [Int64.toInt_sub_of_le count 1 (by decide) some_left]
    omega
  case isFalse low =>
    have not_above := mt Int64.lt_iff_toInt_lt.mpr low
    omega

section Access

variable {a : Turn (shared Int64)} {older : List (Turn (shared Int64))} {task : Task}
  {timeout : Option Nat} {t : Nat} {stage : Stage Int64} {reply : Reply Int64}

theorem eq_counting_of_counts (of : a.stage.Of task.call) (down : counts a) : task = .counting := by
  unfold counts at down
  split at down
  case h_1 f accessing =>
    rw [accessing] at of
    cases task with
    | counting => rfl
    | _ => cases of
  case h_2 => cases down

/-- An access counts down or leaves the count alone. -/
theorem value_after (of : a.stage.Of task.call) (taken : a.Taken) :
    a.after.value = if counts a then decreased a.before.value else a.before.value := by
  have moves : a.stage.advance a.thread a.chance a.before = some (a.after, a.progress) := taken
  by_cases down : counts a
  · obtain rfl := eq_counting_of_counts of down
    rw [if_pos down]
    rw [of.eq_accessing] at moves
    exact (congrArg (fun moved => moved.1.value) (Option.some.inj moves)).symm
  · rw [if_neg down]
    rcases Stage.advance_value moves with same | ⟨deadline, condition, tests, testing, changed⟩ |
      ⟨f, accessing, -⟩
    · exact same
    · rw [testing] at of
      obtain ⟨timeout, asks⟩ := of
      cases task with
      | awaiting =>
        cases asks
        rw [changed]
        rfl
      | _ => cases asks
    · exact absurd (by rw [counts, accessing]) down

theorem later_of_taken (of : a.stage.Of task.call) (taken : a.Taken) : Later a.before a.after where
  zero := by
    intro zero
    rw [value_after of taken, zero]
    split <;> rfl
  clock := (Stage.advance_clock taken).ge

/-- Threads leave levels, test the count and broadcast with a guard. -/
theorem Task.guard_of (of : a.stage.Of task.call)
    (needs : (a.stage.position.lock? = some .leave ∨ a.stage.position.lock? = some .surrender) ∨
      a.stage.throughGuard) : 0 < task.guards := by
  have call_needs : task.call.NeedsGuard := needs.elim of.needsGuard of.needsGuard_of_throughGuard
  cases task with
  | counting =>
    rw [of.eq_accessing] at needs
    rcases needs with (leaves | surrenders) | through
    · cases leaves
    · cases surrenders
    · cases through
  | opening | entering | interrupting => exact call_needs.elim
  | _ => exact Nat.one_pos

theorem limited?_cons
    (apart : a.thread ≠ t ∨ ∀ limit condition, a.stage ≠ .limiting limit condition) :
    limited? t (a :: older) = limited? t older := by
  rw [limited?, List.findSome?_cons]
  split
  case h_1 limit seen =>
    split at seen
    case h_1 limit condition limits =>
      rcases apart with other | never
      · rw [if_neg other] at seen
        cases seen
      · exact absurd limits (never limit condition)
    case h_2 => cases seen
  case h_2 => rfl

/-- What becomes of a call that waits, from the moment on at which it has read the clock. -/
theorem Expects.advance {limit? : Option (Nat × Nat)} {chance : Chance} {m m' : Monitor Int64}
    {progress : Progress (Stage Int64) (Reply Int64)}
    (of : stage.Of (.waitUntil timeout isZero))
    (reads : ∀ limit condition, stage = .limiting limit condition → limit? = some (m.clock, limit))
    (expects : Expects timeout limit? m.value stage)
    (moves : stage.advance t chance m = some (m', progress)) :
    Foretells timeout limit? m' progress := by
  cases stage with
  | limiting limit condition =>
    obtain rfl : timeout = some limit := expects
    cases moves
    intro moment inside
    -- a moment that the clock cannot show is no deadline, and the wait has no end
    unfold deadline? at inside
    split at inside
    · cases inside
      exact ⟨m.clock, limit, rfl, reads limit condition rfl, le_rfl⟩
    · cases inside
  | testing deadline condition tests =>
    obtain ⟨timeout', asks⟩ := of
    cases asks
    cases deadline with
    | some deadline =>
      cases moves
      exact ⟨expects deadline rfl, of_decide_eq_true⟩
    | none =>
      simp only [Stage.advance] at moves
      split at moves <;> cases moves
      · rename_i met
        show m.value = 0
        exact of_decide_eq_true met
      · intro moment inside
        cases inside
  | timing deadline condition tests met =>
    simp only [Stage.advance] at moves
    split at moves <;> cases moves
    · rename_i ends
      cases met with
      | true => exact expects.2 rfl
      | false => exact expects.1.mono (by simpa using ends)
    · intro moment inside
      cases inside
      exact expects.1
  | pausing deadline condition tests wait =>
    simp only [Stage.advance] at moves
    split at moves <;> cases moves
    · exact expects
    · exact expects
    · trivial
  | _ => exact expects.elim

namespace Task.Holds

/-- What a thread that waits expects is not changed by what it reads on the clock. -/
theorem expects (holds : (awaiting timeout).Holds a.before a.thread older a.stage) :
    Expects timeout (limited? a.thread (a :: older)) a.before.value a.stage := by
  have knows : Expects timeout (limited? a.thread older) a.before.value a.stage := holds.knows
  by_cases limits : ∃ limit condition, a.stage = .limiting limit condition
  · obtain ⟨limit, condition, limits⟩ := limits
    rw [limits] at knows ⊢
    exact knows
  · push Not at limits
    rwa [limited?_cons (Or.inr limits)]

theorem foretells (holds : (awaiting timeout).Holds a.before a.thread older a.stage)
    (taken : a.Taken) : Foretells timeout (limited? a.thread (a :: older)) a.after a.progress := by
  refine holds.expects.advance holds.of ?_ taken
  intro limit condition limits
  simp [limited?, limits]

/-- A thread that has counted down to zero has still to enter the lock, or is about to broadcast. -/
theorem owes_own (holds : task.Holds a.before a.thread older a.stage)
    (owes : Owes Opens a.thread (a :: older)) :
    task = .counting ∧ Opens a ∨ task = .opening := by
  rcases owes_cons_self.mp owes with opens | ⟨silent, owes⟩
  · exact Or.inl ⟨eq_counting_of_counts holds.of opens.1, opens⟩
  · rcases holds.owes owes with opening | notifies
    · exact Or.inr opening
    · rw [notifies] at silent
      exact absurd rfl silent

theorem not_owes_own (holds : task.Holds a.before a.thread older a.stage)
    (settled : task.mayOwe = false) : ¬ Owes Opens a.thread (a :: older) := by
  intro owes
  rcases holds.owes_own owes with ⟨rfl, -⟩ | rfl
  · cases settled
  · cases settled

/-- A call that goes on. -/
theorem goes_on (holds : task.Holds a.before a.thread older a.stage) (taken : a.Taken)
    (ongoing : a.progress = .ongoing stage) : task.Holds a.after a.thread (a :: older) stage where
  of := by
    have continues := holds.of.advance taken
    rwa [ongoing] at continues
  guards := (guards_of_ongoing ongoing).trans holds.guards
  owes := by
    intro owes
    rcases holds.owes_own owes with ⟨rfl, -⟩ | opening
    · have moves := taken.ongoing ongoing
      rw [holds.of.eq_accessing] at moves
      cases (Prod.mk.inj (Option.some.inj moves)).2
    · exact Or.inl opening
  knows := by
    cases task with
    | awaiting timeout =>
      have foretells := holds.foretells taken
      rwa [ongoing] at foretells
    | leaving timeout result =>
      have never : ∀ limit condition, a.stage ≠ .limiting limit condition := by
        intro limit condition limits
        have of := holds.of
        rw [limits] at of
        obtain ⟨_, wrong⟩ := of
        cases wrong
      show Tells timeout (limited? a.thread (a :: older)) a.after result
      rw [limited?_cons (Or.inr never)]
      exact Tells.later (later_of_taken holds.of taken) holds.knows
    | _ => trivial

/-- A thread opens the latch if and only if it has counted down to zero. -/
theorem after_counting (holds : counting.Holds a.before a.thread older a.stage) (taken : a.Taken)
    (finished : a.progress = .finished reply) :
    counting.after reply = if a.after.value = 0 then some opening else none := by
  have moves : a.stage.advance a.thread a.chance a.before = some (a.after, a.progress) := taken
  rw [holds.of.eq_accessing, finished] at moves
  obtain ⟨after, told⟩ := Prod.mk.inj (Option.some.inj moves)
  cases told
  rw [← after]
  simp [Task.after, Reply.values?]

/-- A call that ends. -/
theorem ends (holds : task.Holds a.before a.thread older a.stage) (taken : a.Taken)
    (finished : a.progress = .finished reply) :
    (task.after reply).elim
      (Monitor.guards a.thread (a :: older) = 0 ∧ ¬ Owes Opens a.thread (a :: older))
      fun next => next.Holds a.after a.thread (a :: older) (.ofCall next.call) := by
  have continues := holds.of.advance taken
  rw [finished] at continues
  obtain ⟨answers, count⟩ := continues
  have guards_eq :
      Monitor.guards a.thread (a :: older) = task.call.guardsAfter reply task.guards := by
    rw [← count, ← holds.guards, ← finished]
    simp [Monitor.guards]
  have not_owes := holds.not_owes_own
  cases task with
  | counting =>
    rw [holds.after_counting taken finished]
    split
    case isTrue zero => exact ⟨Stage.of_ofCall _, guards_eq, fun _ => Or.inl rfl, trivial⟩
    case isFalse left =>
      refine ⟨guards_eq, fun owes => ?_⟩
      rcases holds.owes_own owes with ⟨-, opens⟩ | wrong
      · exact left opens.2
      · cases wrong
  | opening =>
    cases reply with
    | truth answer =>
      cases answers
      exact ⟨rfl, guards_eq, fun _ => Or.inr rfl, trivial⟩
    | _ => exact answers.elim
  | announcing => exact ⟨rfl, guards_eq, fun owes => absurd owes (not_owes rfl), trivial⟩
  | entering timeout =>
    cases reply with
    | truth answer =>
      cases answers
      refine ⟨Stage.of_ofCall _, guards_eq, fun owes => absurd owes (not_owes rfl), ?_⟩
      cases timeout with
      | none =>
        intro moment inside
        cases inside
      | some limit => exact rfl
    | _ => exact answers.elim
  | awaiting timeout =>
    refine ⟨rfl, guards_eq, fun owes => absurd owes (not_owes rfl), ?_⟩
    have foretells := holds.foretells taken
    rwa [finished] at foretells
  | closing | leaving =>
    obtain rfl : reply = .done := answers
    exact ⟨guards_eq, not_owes rfl⟩
  | interrupting => exact ⟨guards_eq, not_owes rfl⟩

end Task.Holds

/-- What becomes of a thread with an access of its own. -/
theorem Task.Holds.own (holds : task.Holds a.before a.thread older a.stage) (taken : a.Taken) :
    Working a.after a.thread (a :: older) (Activity.after task.next a.progress).1 := by
  cases ending : a.progress with
  | ongoing stage => exact ⟨task, rfl, holds.goes_on taken ending⟩
  | finished reply =>
    have ends := holds.ends taken ending
    simp only [Activity.after]
    rw [task.next_eq]
    cases follows : task.after reply with
    | none =>
      rw [follows] at ends
      exact ends
    | some next =>
      rw [follows] at ends
      exact ⟨next, rfl, ends⟩

/-- A wait ends with what its thread knows. -/
theorem Task.Holds.tells (holds : task.Holds a.before a.thread older a.stage) (taken : a.Taken)
    {result : Except Fault Bool}
    (told : (Activity.after task.next a.progress : Activity (shared Int64) Served × _).2 =
      some (.wait timeout, some result)) :
    Tells timeout (limited? a.thread older) a.after result := by
  cases ending : a.progress with
  | ongoing stage =>
    rw [ending] at told
    cases told
  | finished reply =>
    rw [ending] at told
    simp only [Activity.after] at told
    rw [task.next_eq] at told
    cases follows : task.after reply with
    | some next =>
      rw [follows] at told
      cases told
    | none =>
      rw [follows] at told
      have last : task.result = (.wait timeout, some result) := Option.some.inj told
      cases task with
      | leaving =>
        cases last
        exact Tells.later (later_of_taken holds.of taken) holds.knows
      | _ => cases last

/-- A thread that begins a request. -/
theorem working_of_request {m : Monitor Int64} {request : Request}
    (unguarded : guards t older = 0) (settled : ¬ Owes Opens t older) :
    Working m t older (Activity.ofProgram request.program).1 := by
  rw [request.program_eq]
  refine ⟨Task.first request, rfl, Stage.of_ofCall _, ?_, fun owes => absurd owes settled, ?_⟩
  · rw [unguarded]
    cases request <;> rfl
  · cases request <;> trivial

end Access

/-- What holds of the accesses of a run. -/
structure Regular (trace : List (Turn (shared Int64))) : Prop where
  lawful : Lawful trace
  orderly : Orderly trace
  calls : ∀ a ∈ trace, ∃ task : Task, a.stage.Of task.call

section Run

variable {threads : Nat} {n : UInt32} {settings : Settings} {u : System (shared Int64) Served}
  {trace : List (Turn (shared Int64))}

theorem working_of_run
    (run : System.Run (allowed threads) { state := Monitor.new (initial n) settings } u trace) :
    Regular trace ∧ ∀ t, Working u.state t trace (u.threads.get t) := by
  induction run with
  | start =>
    refine ⟨⟨trivial, trivial, fun a member => absurd member List.not_mem_nil⟩, fun t => ?_⟩
    rw [Table.get_empty]
    exact ⟨rfl, id⟩
  | @assign u trace t program _ free may ih =>
    obtain ⟨regular, working⟩ := ih
    refine ⟨regular, fun r => ?_⟩
    by_cases same : r = t
    · subst same
      obtain ⟨-, request, rfl⟩ := may
      simp only [System.assign, Table.get_set_same]
      obtain ⟨unguarded, settled⟩ := (working r).of_isIdle free
      exact working_of_request unguarded settled
    · simp only [System.assign, Table.get_set_other _ _ same]
      exact working r
  | @access u trace a next _ here busy taken ih =>
    obtain ⟨regular, working⟩ := ih
    have working_a := working a.thread
    rw [busy, here] at working_a
    obtain ⟨task, rfl, holds⟩ := working_a
    have guard := task.guard_of holds.of
    rw [← holds.guards] at guard
    refine ⟨⟨⟨guard ∘ Or.inl, regular.lawful⟩, ⟨guard ∘ Or.inr, regular.orderly⟩, ?_⟩, fun r => ?_⟩
    · intro b member
      rcases List.mem_cons.mp member with rfl | earlier
      · exact ⟨task, holds.of⟩
      · exact regular.calls b earlier
    · -- for the threads that do not move, nothing but the monitor is later
      by_cases same : r = a.thread
      · subst same
        simp only [Table.get_set_same]
        exact holds.own taken
      · simp only [Table.get_set_other _ _ same]
        have later := later_of_taken holds.of taken
        have other := Ne.symm same
        exact ((here ▸ working r).later later (guards_cons_of_ne same) (owes_cons_of_ne other)
          (limited?_cons (Or.inl other)))
  | @elapse u trace time _ ih =>
    obtain ⟨regular, working⟩ := ih
    refine ⟨regular, fun t => (working t).later ?_ rfl Iff.rfl rfl⟩
    exact ⟨id, Nat.le_add_right _ _⟩

/-- The count is what is left of the number at the beginning. -/
theorem count_of_run
    (run : System.Run (allowed threads) { state := Monitor.new (initial n) settings } u trace) :
    u.state.value.toInt = max 0 ((n.toNat : Int) - trace.countP counts) := by
  refine run.accesses_induction
    (I := fun (m : Monitor Int64) (trace : List (Turn (shared Int64))) =>
      (∀ a ∈ trace, ∃ task : Task, a.stage.Of task.call) →
      m.value.toInt = max 0 ((n.toNat : Int) - trace.countP counts))
    ?start ?takes ?elapses (working_of_run run).1.calls
  case start =>
    intro _
    have small : n.toNat < 2 ^ 63 := n.toNat_lt.trans (by decide)
    show (initial n).toInt = max 0 ((n.toNat : Int) - 0)
    rw [initial, Int64.toInt_ofNat_of_lt small]
    omega
  case takes =>
    intro v older a _ _ _ taken ih calls
    obtain ⟨task, of⟩ := calls a (List.mem_cons_self ..)
    have before := ih fun b member => calls b (List.mem_cons_of_mem a member)
    rw [value_after of taken, List.countP_cons]
    split
    · rw [toInt_decreased, before]
      push_cast
      omega
    · simpa using before
  case elapses => exact fun _ ih => ih

/-- A wait in the wait set is one for the count to be zero. -/
theorem condition_of_queued {task : Task} {stage : Stage Int64} {node : Nat}
    (of : stage.Of task.call) (queued : stage.phase = .queued node) :
    stage.condition? = some isZero := by
  cases stage with
  | pausing deadline condition tests wait =>
    obtain ⟨timeout, asks⟩ := of
    cases task with
    | awaiting =>
      cases asks
      rfl
    | _ => cases asks
  | waiting wait =>
    obtain ⟨timeout, waits⟩ := of
    cases task <;> cases waits
  | identifying next =>
    rcases of with ⟨rfl, -⟩ | ⟨rfl, -⟩ | ⟨rfl, -⟩ <;> cases queued
  | _ => cases queued

theorem awaits_of_inside
    (run : System.Run (allowed threads) { state := Monitor.new (initial n) settings } u trace)
    {node : Nat} (inside : node ∈ u.state.waiters.toList) :
    ∃ t stage, u.stage? t = some stage ∧ stage.Awaits u.state.waiters isZero := by
  obtain ⟨stage, here, queued⟩ := exists_stage_of_inside run inside
  obtain ⟨task, holds⟩ := ((working_of_run run).2 _).exists_holds here
  exact ⟨_, stage, here, condition_of_queued holds.of queued, Or.inr ⟨node, inside, queued⟩⟩

/-- While a thread awaits zero that has been reached, a thread owes a broadcast. -/
theorem owes_of_awaits (few : threads < 2 ^ 64)
    (run : System.Run (allowed threads) { state := Monitor.new (initial n) settings } u trace)
    (zero : u.state.value = 0) {t : Nat} {stage : Stage Int64} (here : u.stage? t = some stage)
    (awaits : stage.Awaits u.state.waiters isZero) : ∃ w, Owes Opens w trace := by
  have regular := (working_of_run run).1
  have anyone : LawfulRun threads (initial n) settings u trace :=
    ⟨few, run.mono fun _ _ may => may.1, regular.lawful⟩
  have opens : ∀ a ∈ trace, (isZero a.before.value).1 = false →
      (isZero a.after.value).1 = true → Opens a := by
    intro a member unmet met
    obtain ⟨task, of⟩ := regular.calls a member
    refine ⟨?_, of_decide_eq_true met⟩
    by_contra silent
    rw [value_after of (run.taken_of_mem member), if_neg silent, unmet] at met
    cases met
  rcases unmet_of_run anyone regular.orderly opens (pending_of_condition anyone.run here awaits.1)
    awaits with unmet | owes
  · exact absurd zero (of_decide_eq_false unmet)
  · exact owes

/-- A thread that owes a broadcast is in the middle of opening the latch. -/
theorem stage_of_owes
    (run : System.Run (allowed threads) { state := Monitor.new (initial n) settings } u trace)
    {w : Nat} (owes : Owes Opens w trace) :
    ∃ stage, u.stage? w = some stage ∧ (stage.Of .lock ∨ stage = .notifying true) := by
  have working := (working_of_run run).2 w
  unfold System.stage?
  cases doing : u.threads.get w with
  | idle =>
    rw [doing] at working
    exact absurd owes working.2
  | busy stage next =>
    rw [doing] at working
    obtain ⟨task, -, holds⟩ := working
    refine ⟨stage, rfl, (holds.owes owes).imp_left ?_⟩
    rintro rfl
    exact holds.of

/-- A parked thread that no longer awaits zero has a permit, or is about to be woken. -/
theorem due_of_parked
    (run : System.Run (allowed threads) { state := Monitor.new (initial n) settings } u trace)
    {t node : Nat} {stage : Stage Int64} (here : u.stage? t = some stage)
    (parked : stage.parked? = some node) (unpermitted : u.state.permits.get t = false)
    (released : ¬ stage.Awaits u.state.waiters isZero) :
    WakeDue (fun a => node ∈ (entry a).popped) t trace := by
  obtain ⟨deadline, levels, watches⟩ := Stage.watching_of_parked parked
  have left := run.pending_of_stage? (System.stage?_start _) here
    (Stage.ne_ofCall_of_watching watches)
  have vigilant := vigilant_of_run run t stage node deadline levels .park left watches
  have queued := Stage.queued_of_parked parked
  have fits := (enrolled_of_run run).fits t
  rw [phases_of_some here, queued] at fits
  obtain ⟨task, holds⟩ := ((working_of_run run).2 t).exists_holds here
  -- its node is not in the wait set, so it was popped
  have notified : u.state.waiters.isNotified node := by
    by_contra silent
    exact released ⟨condition_of_queued holds.of queued, Or.inr ⟨node, fits.mpr silent, queued⟩⟩
  refine (vigilant.notified (by decide) notified).resolve_left ?_
  simp [unpermitted]

/-- A latch opens when it has been counted down. Threads count down, wait and interrupt each other
in any order. In every state of every run:
the count is what is left of the number at the beginning;
a wait ends with true only at zero, and with false only after its timeout has run out;
if the count is zero and the wait set is not empty, some thread has counted down to zero and not
broadcast since, and is about to enter the lock or to broadcast;
and if the count is zero and there is no such thread, no thread is in the wait set or on the way
into it, and each parked thread has a permit or is about to be woken by the thread that has popped
its node. -/
theorem opens_at_zero (few : threads < 2 ^ 64)
    (run : System.Run (allowed threads) { state := Monitor.new (initial n) settings } u trace) :
    u.state.value.toInt = max 0 ((n.toNat : Int) - trace.countP counts) ∧
    (∀ t chance v timeout result,
      u.step t chance = some (v, some (.wait timeout, some result)) →
      Tells timeout (limited? t trace) v.state result) ∧
    (u.state.value = 0 → u.state.waiters.toList ≠ [] →
      ∃ w stage, Owes Opens w trace ∧ u.stage? w = some stage ∧
        (stage.Of .lock ∨ stage = .notifying true)) ∧
    (u.state.value = 0 → (∀ w, ¬ Owes Opens w trace) → ∀ t stage, u.stage? t = some stage →
      ¬ stage.Awaits u.state.waiters isZero ∧
      ∀ node, stage.parked? = some node → u.state.permits.get t = false →
        WakeDue (fun a => node ∈ (entry a).popped) t trace) := by
  refine ⟨count_of_run run, ?tells, ?owes, ?released⟩
  case tells =>
    intro t chance v timeout result moves
    obtain ⟨a, next, rfl, -, here, taken, busy, told, rfl⟩ := System.step_eq_some moves
    have working := (working_of_run run).2 a.thread
    rw [busy, here] at working
    obtain ⟨task, rfl, holds⟩ := working
    exact holds.tells taken told.symm
  case owes =>
    intro zero inhabited
    obtain ⟨node, inside⟩ := List.exists_mem_of_ne_nil _ inhabited
    obtain ⟨t, stage, here, awaits⟩ := awaits_of_inside run inside
    obtain ⟨w, owes⟩ := owes_of_awaits few run zero here awaits
    obtain ⟨stage, there, still⟩ := stage_of_owes run owes
    exact ⟨w, stage, owes, there, still⟩
  case released =>
    intro zero settled t stage here
    have released : ¬ stage.Awaits u.state.waiters isZero := by
      intro awaits
      obtain ⟨w, owes⟩ := owes_of_awaits few run zero here awaits
      exact settled w owes
    exact ⟨released, fun node parked unpermitted =>
      due_of_parked run here parked unpermitted released⟩

end Run

/-- Thread `0` finds the count at one and joins the wait set only after thread `1` has counted down.
Thread `2` has waited with a timeout and finds the count at zero; it has one access left to give the
lock back. -/
@[irreducible]
def overtaken : System (shared Int64) Served × List (Turn (shared Int64)) :=
  let start : System (shared Int64) Served := { state := Monitor.new (initial 1) }
  let turns := List.replicate 7 0 ++ [1] ++ List.replicate 4 0 ++ List.replicate 10 2
  (((start.assign 0 (Request.wait none).program).1.assign 1 Request.countDown.program).1.assign 2
    (Request.wait (some 5)).program).1.follow [] (turns.map fun t => (t, {}))

theorem opens_at_zero_overtaken :
    overtaken.1.state.value = 0 ∧ overtaken.2.countP counts = 1 ∧
      overtaken.1.state.waiters.toList = [0] ∧
      (∃ v, overtaken.1.step 2 {} = some (v, some (.wait (some 5), some (.ok true))) ∧
        v.state.value = 0) ∧
      ∃ w stage, Owes Opens w overtaken.2 ∧ overtaken.1.stage? w = some stage ∧
        (stage.Of .lock ∨ stage = .notifying true) := by
  have run : System.Run (allowed 3) { state := Monitor.new (initial 1) } overtaken.1
      overtaken.2 := by
    unfold overtaken
    exact System.Run.follow (.assign 2 _ (.assign 1 _ (.assign 0 _ .start (by decide +kernel)
      ⟨by decide, _, rfl⟩) (by decide +kernel) ⟨by decide, _, rfl⟩) (by decide +kernel)
      ⟨by decide, _, rfl⟩) _
  have zero : overtaken.1.state.value = 0 := by decide +kernel
  have queue : overtaken.1.state.waiters.toList = [0] := by decide +kernel
  have counted : overtaken.2.countP counts = 1 := by decide +kernel
  have ends : (overtaken.1.step 2 {}).map (·.2) =
      some (some (.wait (some 5), some (.ok true))) := by decide +kernel
  obtain ⟨-, tells, owes, -⟩ := opens_at_zero (by decide) run
  obtain ⟨⟨v, result⟩, moves, rfl⟩ := Option.map_eq_some_iff.mp ends
  exact ⟨zero, counted, queue, ⟨v, moves, tells 2 {} v (some 5) (.ok true) moves⟩,
    owes zero (by rw [queue]; exact List.cons_ne_nil _ _)⟩

end Interlock.Latch

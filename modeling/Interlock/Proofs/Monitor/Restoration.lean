import Interlock.Proofs.Monitor.Guarded
import Interlock.Proofs.Monitor.Phase
import Interlock.Proofs.Opening

/-!
# Waiting gives back what it took

A thread that waits leaves all its levels of the lock and enters as many again before the wait ends,
however it ends: it has as many guards then as it had when it made the call (`guards_after_wait`),
and a thread that is at rest holds the lock at as many levels as it has guards (`owns_at_rest`). In
between, while it is off the lock (`Position.OffLock`), the lock is open to the others
(`canEnter_of_unlocked`). A wait that an interrupt cancels on entry never gets there
(`untouched_of_refused`).
-/

namespace Interlock

/-- Times in seconds are refused for one reason only. -/
theorem Timeout.eq_negative {seconds : Decimal.Number} {fault : Fault}
    (refused : ofSeconds seconds = .error fault) : fault = negative := by
  unfold ofSeconds at refused
  split at refused
  · exact (Except.error.inj refused).symm
  · exact (Except.error.inj refused).symm
  · cases refused
  · split at refused
    · exact (Except.error.inj refused).symm
    · cases refused

namespace Monitor

variable {V β : Type}

/-- The thread holds the lock at a number of levels. -/
structure Owns (m : Monitor V) (t levels : Nat) : Prop where
  named : m.identities.get t ≠ 0
  taken : m.lock.word ≠ .unlocked
  owner : m.lock.owner = m.identities.get t
  depth : m.lock.depth = levels

instance (m : Monitor V) (t levels : Nat) : Decidable (Owns m t levels) :=
  decidable_of_iff (m.identities.get t ≠ 0 ∧ m.lock.word ≠ .unlocked ∧
      m.lock.owner = m.identities.get t ∧ m.lock.depth = levels)
    ⟨fun ⟨named, taken, owner, depth⟩ => ⟨named, taken, owner, depth⟩,
      fun ⟨named, taken, owner, depth⟩ => ⟨named, taken, owner, depth⟩⟩

/-- The call waits for notifications. -/
def Call.Waits : Call V → Prop
  | wait _ | waitUntil _ _ => True
  | _ => False

namespace Stage

/-- The stage belongs to a call that waits for notifications. -/
def Waits : Stage V → Prop
  | waiting _ | limiting _ _ | testing _ _ _ | timing _ _ _ _ | pausing _ _ _ _ => True
  | _ => False

theorem position_of_entering {stage : Stage V} {timeout : Option Nat} {taking : Mailbox.Taking}
    (entering : stage.wait? = some (.entering timeout taking)) : stage.position = .outside := by
  cases stage with
  | waiting wait | pausing deadline condition tests wait =>
    cases entering
    rfl
  | _ => cases entering

theorem waits_ofCall {call : Call V} (waits : call.Waits) :
    (ofCall call).Waits ∧ (ofCall call).position = .outside := by
  cases call with
  | wait timeout => exact ⟨trivial, rfl⟩
  | waitUntil timeout condition => cases timeout <;> exact ⟨trivial, rfl⟩
  | _ => exact waits.elim

variable {stage next : Stage V}

theorem waits_of_wait? {wait : Waiting} (here : stage.wait? = some wait) : stage.Waits := by
  cases stage with
  | waiting | pausing => trivial
  | _ => cases here

/-- A call that waits enters and leaves no level for good. -/
theorem Waits.levelReply? (waits : stage.Waits) (progress : Progress (Stage V) (Reply V)) :
    stage.levelReply? progress = none := by
  cases stage with
  | waiting | limiting | testing | timing | pausing => cases progress <;> rfl
  | _ => exact waits.elim

/-- A call that waits goes on waiting. -/
theorem Waits.advance (waits : stage.Waits) {t : Nat} {chance : Chance} {m m' : Monitor V}
    (moves : stage.advance t chance m = some (m', .ongoing next)) : next.Waits := by
  cases stage with
  | waiting wait | pausing deadline condition tests wait =>
    simp only [Stage.advance] at moves
    split at moves <;> cases moves <;> trivial
  | limiting timeout condition =>
    cases moves
    trivial
  | testing deadline condition tests =>
    simp only [Stage.advance] at moves
    repeat' split at moves
    all_goals cases moves
    all_goals trivial
  | timing deadline condition tests met =>
    simp only [Stage.advance] at moves
    split at moves <;> cases moves
    trivial
  | _ => exact waits.elim

/-- The thread leaves a level. -/
def Leaves : Stage V → Prop
  | locking .leave | locking (.disown _) | locking (.free _) | locking (.wake _) => True
  | _ => False

theorem leaves_of_unlock (of : stage.Of .unlock) : stage.Leaves := by
  cases stage with
  | locking lock =>
    cases lock with
    | leave | disown | free | wake => trivial
    | ask mayWait => cases mayWait <;> cases of
    | deepen | own | settle => rcases of with of | of <;> cases of
    | acquire | tryWord => cases of
    | surrender => exact of.elim
  | identifying next => rcases of with ⟨-, of⟩ | ⟨-, of⟩ | ⟨-, of⟩ <;> cases of
  | waiting | limiting | testing | timing | pausing | raising =>
    obtain ⟨_, of⟩ := of
    cases of
  | waking => rcases of with of | of | ⟨_, _, of⟩ <;> cases of
  | notifying all => cases all <;> cases of
  | _ => cases of

/-- A thread that leaves a level is never blocked. -/
theorem Leaves.isSome_advance (leaves : stage.Leaves) (t : Nat) (chance : Chance)
    (m : Monitor V) : (stage.advance t chance m).isSome := by
  cases stage with
  | locking lock =>
    cases lock with
    | leave =>
      by_cases last : m.lock.depth = 1 <;> simp [advance, Lock.Stage.advance, last]
    | free levels =>
      by_cases contended : m.lock.word = .contended <;>
        simp [advance, Lock.Stage.advance, contended]
    | disown | wake => rfl
    | _ => exact leaves.elim
  | _ => exact leaves.elim

end Stage

/-- The access leaves the lock and the wait set alone. -/
def KeepsHands (a : Turn (shared V)) : Prop :=
  a.after.lock = a.before.lock ∧ a.after.waiters = a.before.waiters

/-- The access ends a wait that has taken one other access, in which it has found an interrupt. Both
leave the lock and the wait set alone, and the thread has held its levels from the first access to
the second one. -/
def Untouched (a : Turn (shared V)) (older : List (Turn (shared V))) : Prop :=
  ∃ between b before timeout, older = between ++ b :: before ∧ b.thread = a.thread ∧
    (∀ c ∈ between, c.thread ≠ a.thread) ∧
    b.stage.wait? = some (.entering timeout .clearing) ∧
    (b.before.mailboxes.get a.thread).pending ∧ KeepsHands b ∧ KeepsHands a ∧
    ∀ levels, Owns b.before a.thread levels → ∀ c ∈ a :: between ++ [b],
      Owns c.before a.thread levels ∧ Owns c.after a.thread levels

/-- A wait that ends before it has joined the wait set ends with taking an interrupt. -/
theorem Waiting.refuses {t : Nat} {chance : Chance} {m m' : Monitor V} {wait : Waiting}
    {result : Except Fault Ending}
    (moves : wait.advance t chance m = some (m', .finished result))
    (apart : wait.phase.node? = none) :
    (∃ timeout, wait = entering timeout .fetching) ∧
      (∃ message, result = .error (.cancelled message)) ∧ m'.lock = m.lock ∧
      m'.waiters = m.waiters := by
  cases wait with
  | entering timeout taking =>
    cases taking with
    | clearing =>
      simp only [advance, Mailbox.Taking.advance] at moves
      by_cases pending : (m.mailboxes.get t).pending <;> simp only [pending] at moves
      · cases moves
      · cases timeout <;> cases moves
    | fetching =>
      cases moves
      exact ⟨⟨timeout, rfl⟩, ⟨_, rfl⟩, rfl, rfl⟩
  | dating timeout | joining deadline => cases moves
  | _ => cases apart

/-- A wait is about to take an interrupt, before it has joined the wait set, because it has found
one pending. -/
theorem Waiting.found {t : Nat} {chance : Chance} {m m' : Monitor V} {wait : Waiting}
    {timeout : Option Nat}
    (moves : wait.advance t chance m = some (m', .ongoing (entering timeout .fetching))) :
    wait = entering timeout .clearing ∧ (m.mailboxes.get t).pending ∧ m'.lock = m.lock ∧
      m'.waiters = m.waiters := by
  cases wait with
  | entering timeout' taking =>
    cases taking with
    | clearing =>
      simp only [advance, Mailbox.Taking.advance] at moves
      by_cases pending : (m.mailboxes.get t).pending <;> simp only [pending] at moves
      · cases moves
        exact ⟨rfl, pending, rfl, rfl⟩
      · cases timeout' <;> cases moves
    | fetching => cases moves
  | watching node deadline levels glance =>
    cases glance with
    | park =>
      simp only [advance, Option.map_eq_some_iff] at moves
      obtain ⟨parked, -, moved⟩ := moves
      cases moved
    | _ =>
      simp only [advance] at moves
      repeat' split at moves
      all_goals cases moves
  | consuming node queued taking | returning node interrupted queued lock =>
    simp only [advance, conclude] at moves
    repeat' split at moves
    all_goals cases moves
  | _ =>
    simp only [advance] at moves
    repeat' split at moves
    all_goals cases moves

namespace Stage

variable {t : Nat} {chance : Chance} {m m' : Monitor V} {stage next : Stage V}

/-- A wait that ends before it has joined the wait set ends with taking an interrupt. -/
theorem refuses {progress : Progress (Stage V) (Reply V)} {result : Except Fault Ending}
    (moves : stage.advance t chance m = some (m', progress))
    (refused : (stage.entry t chance m).ended = some (none, result)) :
    (∃ timeout, stage.wait? = some (.entering timeout .fetching)) ∧
      (∃ message, result = .error (.cancelled message)) ∧ progress.stage? = none ∧
      m'.lock = m.lock ∧ m'.waiters = m.waiters := by
  cases stage with
  | waiting wait | pausing deadline condition tests wait =>
    simp only [advance] at moves
    simp only [entry] at refused
    cases moved : wait.advance t chance m with
    | none =>
      rw [moved] at refused
      cases refused
    | some after =>
      obtain ⟨m'', wait_progress⟩ := after
      rw [moved] at moves refused
      cases wait_progress with
      | ongoing wait' => cases refused
      | finished ending =>
        simp only [Waiting.entry, Option.some.injEq, Prod.mk.injEq] at refused
        obtain ⟨apart, rfl⟩ := refused
        obtain ⟨⟨timeout, here⟩, ⟨message, rfl⟩, keeps⟩ := Waiting.refuses moved apart
        cases moves
        exact ⟨⟨timeout, congrArg some here⟩, ⟨message, rfl⟩, rfl, keeps⟩
  | notifying all => cases all <;> cases refused
  | _ => cases refused

/-- A wait is about to take an interrupt, before it has joined the wait set, because it has found
one pending. -/
theorem found {timeout : Option Nat} (introduced : ∀ next, stage ≠ identifying next)
    (moves : stage.advance t chance m = some (m', .ongoing next))
    (here : next.wait? = some (.entering timeout .fetching)) :
    stage.wait? = some (.entering timeout .clearing) ∧ (m.mailboxes.get t).pending ∧
      m'.lock = m.lock ∧ m'.waiters = m.waiters := by
  cases stage with
  | identifying next => exact absurd rfl (introduced next)
  | waiting wait | pausing deadline condition tests wait =>
    simp only [advance] at moves
    split at moves <;> cases moves
    all_goals
      cases here
    all_goals
      obtain ⟨rfl, pending, keeps⟩ := Waiting.found ‹_›
      exact ⟨rfl, pending, keeps⟩
  | notifying all =>
    cases all <;> simp only [advance] at moves <;> split at moves <;> cases moves <;> cases here
  | waking threads reply =>
    rcases threads with _ | ⟨_, _ | _⟩
    all_goals
      cases moves
    all_goals cases here
  | _ =>
    simp only [advance] at moves
    repeat' split at moves
    all_goals cases moves
    all_goals cases here

end Stage

/-- The thread has given the word back for a wait and has not won it again. -/
def Position.OffLock : Position → Prop
  | departing (.wake _) | away _ | returning (.acquire _ _) => True
  | _ => False

theorem guards_cons_of_none {a : Turn (shared V)} {older : List (Turn (shared V))}
    (level : Stage.levelReply? a.stage a.progress = none) :
    guards a.thread (a :: older) = guards a.thread older := by
  simp [guards, level, guardsAfter]

/-- The calls that go on have entered and left no level. -/
theorem guards_of_opening {t : Nat} {b : Turn (shared V)} {trace before : List (Turn (shared V))}
    (began : opening t trace = some (b, before)) : guards t trace = guards t before := by
  induction trace with
  | nil => cases began
  | cons a older ih =>
    by_cases same : a.thread = t
    · subst same
      cases ending : a.progress with
      | finished reply =>
        rw [opening_of_ends (by simp [Turn.ends, ending, Progress.stage?])] at began
        cases began
      | ongoing next =>
        rw [opening_of_not_ends (by simp [Turn.ends, ending, Progress.stage?])] at began
        rw [guards_of_ongoing ending]
        rcases a.opening_cases older with first | earlier
        · rw [first] at began
          cases began
          rfl
        · exact ih (earlier.trans began)
    · rw [opening_cons_of_ne same] at began
      rw [guards_cons_of_ne (Ne.symm same)]
      exact ih began

/-- A thread has as many guards at an access as when it began the call. -/
theorem guards_of_began {a b : Turn (shared V)} {older before : List (Turn (shared V))}
    (began : a.opening older = (b, before)) : guards a.thread older = guards a.thread before := by
  rcases a.opening_cases older with first | earlier
  · rw [began] at first
    cases first
    rfl
  · exact guards_of_opening (earlier.trans (congrArg some began))

/-- Accesses of other threads leave a thread and its guards as they were. -/
theorem pending_of_others {t : Nat} {newer older : List (Turn (shared V))}
    (others : ∀ c ∈ newer, c.thread ≠ t) :
    pending t (newer ++ older) = pending t older ∧ guards t (newer ++ older) = guards t older := by
  induction newer with
  | nil => exact ⟨rfl, rfl⟩
  | cons c newer ih =>
    have other : c.thread ≠ t := others c (List.mem_cons_self ..)
    obtain ⟨left, count⟩ := ih fun d member => others d (List.mem_cons_of_mem _ member)
    rw [List.cons_append, pending_cons_of_ne other, guards_cons_of_ne (Ne.symm other)]
    exact ⟨left, count⟩

namespace Held

variable {threads : Nat} {m : Monitor V} {P : Nat → Position} {trace : List (Turn (shared V))}
  {t levels : Nat}

/-- A thread with guards that is at rest holds the lock at as many levels. -/
theorem owns_guards (held : Held threads m P trace)
    (rests : (P t).tenure (guards t trace) = .ofGuards (guards t trace))
    (some_guard : 0 < guards t trace) : Owns m t (guards t trace) := by
  have shows := held.owned.shows t
  rw [rests, Tenure.ofGuards_of_pos some_guard] at shows
  refine ⟨held.named t some_guard, held.owned.taken (t := t) ?_, shows.1, shows.2⟩
  rw [rests, Tenure.ofGuards_of_pos some_guard]
  nofun

/-- A thread at rest that holds the lock has a guard for each level. -/
theorem guards_of_owns (held : Held threads m P trace)
    (rests : (P t).tenure (guards t trace) = .ofGuards (guards t trace))
    (owns : Owns m t levels) : guards t trace = levels ∧ 0 < levels := by
  have signed := (held.owned.owner_eq_iff held.ids.distinct owns.named).mp owns.owner
  rw [rests, Tenure.isSigned_ofGuards] at signed
  have depth := (held.owns_guards rests signed).depth
  have same : guards t trace = levels := depth.symm.trans owns.depth
  exact ⟨same, same ▸ signed⟩

/-- A thread that leaves a level has a guard. -/
theorem guard_of_leaves (held : Held threads m P trace) {stage : Stage V}
    (here : P t = stage.position) (leaves : stage.Leaves)
    (lawful : stage.position.lock? = some .leave → 0 < guards t trace) :
    0 < guards t trace := by
  have agrees := held.agrees t
  rw [here] at agrees
  cases stage with
  | locking lock =>
    cases lock with
    | leave => exact lawful rfl
    | disown levels | free levels | wake levels =>
      have one : guards t trace = 1 := agrees
      omega
    | _ => exact leaves.elim
  | _ => exact leaves.elim

/-- If a thread does not have the word, it is free or another thread's. -/
theorem free_or_other (held : Held threads m P trace) (without : ¬ HasWord t trace) :
    m.lock.word = .unlocked ∨ ∃ s, s ≠ t ∧ HasWord s trace := by
  by_cases unlocked : m.lock.word = .unlocked
  · exact Or.inl unlocked
  · right
    rw [held.owned.unlocked_iff, not_forall] at unlocked
    obtain ⟨s, has⟩ := unlocked
    have has_word := (held.word s).mpr has
    refine ⟨s, ?_, has_word⟩
    rintro rfl
    exact without has_word

/-- A thread that is off the lock holds no level, and the word is free or another thread's. -/
theorem offLock (held : Held threads m P trace) (off : (P t).OffLock) :
    ¬ HasWord t trace ∧ m.lock.owner ≠ m.identities.get t ∧
      (m.lock.word = .unlocked ∨ ∃ s, s ≠ t ∧ HasWord s trace) := by
  have absent : (P t).tenure (guards t trace) = .none ∧ 0 < guards t trace := by
    have agrees := held.agrees t
    generalize P t = p at off agrees
    cases p with
    | away levels => exact ⟨rfl, agrees.2⟩
    | departing lock | returning lock =>
      cases lock <;> first
        | exact off.elim
        | exact ⟨rfl, agrees.2⟩
    | _ => exact off.elim
  have without : ¬ HasWord t trace := by
    rw [held.word, absent.1]
    exact fun has => has rfl
  refine ⟨without, ?_, held.free_or_other without⟩
  intro owner
  have signed := (held.owned.owner_eq_iff held.ids.distinct (held.named t absent.2)).mp owner
  rw [absent.1] at signed
  exact signed

end Held

/-- A thread whose last access has ended a call is at rest. -/
theorem tenure_of_rests {u : System (shared V) β} {t : Nat} (rests : System.Rests (u.stage? t))
    (guards : Nat) : (positions u.stage? t).tenure guards = .ofGuards guards := by
  rcases rests with none_t | ⟨call, some_t⟩
  · rw [positions_of_none none_t]
    rfl
  · rw [positions_of_some some_t]
    exact Stage.tenure_ofCall call guards

/-- A run of some threads over a new monitor in which threads leave only the levels that they
have. -/
structure LawfulRun (threads : Nat) (value : V) (settings : Settings) (u : System (shared V) β)
    (trace : List (Turn (shared V))) : Prop where
  few : threads < 2 ^ 64
  run : System.Run (fun t _ => t < threads) { state := Monitor.new value settings } u trace
  lawful : Lawful trace

namespace LawfulRun

variable {threads : Nat} {value : V} {settings : Settings} {u : System (shared V) β}
  {newer older before between trace : List (Turn (shared V))} {a b : Turn (shared V)}
  {t levels : Nat}

theorem held (run : LawfulRun threads value settings u trace) :
    Held threads u.state (positions u.stage?) trace :=
  held_of_run run.few run.run run.lawful

/-- The run up to some access. -/
theorem earlier (run : LawfulRun threads value settings u (newer ++ older)) :
    ∃ v : System (shared V) β, LawfulRun threads value settings v older := by
  obtain ⟨v, run_v, -⟩ := run.run.split
  exact ⟨v, run.few, run_v, run.lawful.of_append⟩

/-- The run before its last access. -/
theorem at_access (run : LawfulRun threads value settings u (a :: older)) :
    ∃ v : System (shared V) β, LawfulRun threads value settings v older ∧ v.state = a.before ∧
      v.stage? a.thread = some a.stage ∧ a.Taken := by
  obtain ⟨v, run_v, here, some_t, taken⟩ := run.run.at_access
  exact ⟨v, ⟨run.few, run_v, run.lawful.2⟩, here, some_t, taken⟩

/-- The run up to its last access. -/
theorem after_access (run : LawfulRun threads value settings u (a :: older)) :
    ∃ v : System (shared V) β, LawfulRun threads value settings v (a :: older) ∧
      v.state = a.after := by
  obtain ⟨v, run_v, here⟩ := run.run.after_access
  exact ⟨v, ⟨run.few, run_v, run.lawful⟩, here⟩

/-- A thread whose last access has ended a call holds the lock at as many levels as it has
guards. -/
theorem owns_at_rest (run : LawfulRun threads value settings u trace)
    (rests : pending t trace = none) (count : guards t trace = levels) (some_guard : 0 < levels) :
    Owns u.state t levels := by
  subst count
  have rest := (run.run.stage?_eq (System.stage?_start _) t).2 rests
  exact run.held.owns_guards (tenure_of_rests rest _) some_guard

/-- A thread with guards holds the lock while its call is in none of the lock's procedures. -/
theorem owns_while_pending (run : LawfulRun threads value settings u trace) {stage : Stage V}
    (left : pending t trace = some stage) (outside : stage.position = .outside)
    (count : guards t trace = levels) (some_guard : 0 < levels) : Owns u.state t levels := by
  subst count
  refine run.held.owns_guards ?_ some_guard
  rw [positions_of_some ((run.run.stage?_eq (System.stage?_start _) t).1 stage left), outside]
  rfl

/-- A thread has a guard for each level that it holds when it makes a call. -/
theorem guards_of_call (run : LawfulRun threads value settings u (a :: older))
    (outside : a.stage.position = .outside) (owns : Owns a.before a.thread levels) :
    guards a.thread older = levels ∧ 0 < levels := by
  obtain ⟨v, run_v, here, some_t, -⟩ := run.at_access
  rw [← here] at owns
  refine run_v.held.guards_of_owns ?_ owns
  rw [positions_of_some some_t, outside]
  rfl

/-- A thread has a guard for each level that it held when it made the call that it is in. -/
theorem guards_before (run : LawfulRun threads value settings u (a :: older))
    (began : a.opening older = (b, before)) (outside : b.stage.position = .outside)
    (owns : Owns b.before a.thread levels) : guards a.thread before = levels ∧ 0 < levels := by
  obtain ⟨mine, between, accesses⟩ := Turn.exists_of_opening began
  rw [accesses] at run
  obtain ⟨x, run_x⟩ := run.earlier
  rw [← mine] at owns ⊢
  exact run_x.guards_of_call outside owns

/-- While a call is in none of the lock's procedures, its thread holds the lock at as many levels as
when it made the call. -/
theorem owns_during (run : LawfulRun threads value settings u (a :: older))
    (began : a.opening older = (b, before)) (outside_b : b.stage.position = .outside)
    (owns : Owns b.before a.thread levels) (outside : a.stage.position = .outside) :
    Owns a.before a.thread levels := by
  obtain ⟨count, some_guard⟩ := run.guards_before began outside_b owns
  obtain ⟨v, run_v, here, some_t, -⟩ := run.at_access
  rw [← guards_of_began began] at count
  subst count
  rw [← here]
  refine run_v.held.owns_guards ?_ some_guard
  rw [positions_of_some some_t, outside]
  rfl

/-- A call that has begun to wait goes on waiting. -/
theorem waits_of_opening (run : LawfulRun threads value settings u older)
    (some_t : u.stage? a.thread = some a.stage) (began : (a.opening older).1.stage.Waits) :
    a.stage.Waits := by
  have calls := (run.run.call_of_stage
    (P := fun (call : Call V) (stage : Stage V) => (Stage.ofCall call).Waits → stage.Waits)
    (System.stage?_start _) (fun _ waits => waits) (by
      intro call next c goes_on taken ongoing waits
      exact (goes_on waits).advance (taken.ongoing ongoing)) a.thread).2
  obtain ⟨call, goes_on, first⟩ := calls a.stage some_t
  have same : (a.opening older).1.stage = Stage.ofCall call := by
    rw [← show _ = Stage.ofCall call from first]
    cases earlier : opening a.thread older <;> simp [Turn.opening, earlier]
  exact goes_on (same ▸ began)

/-- When a call that waits takes an access, its thread has as many guards as before the call. -/
theorem guards_after_wait (run : LawfulRun threads value settings u (a :: older))
    (began : a.opening older = (b, before)) (waits : b.stage.Waits) :
    guards a.thread (a :: older) = guards a.thread before := by
  have stays : guards a.thread (a :: older) = guards a.thread older := by
    obtain ⟨v, run_v, -, some_t, -⟩ := run.at_access
    have still : a.stage.Waits := run_v.waits_of_opening some_t (by rwa [began])
    exact guards_cons_of_none (still.levelReply? a.progress)
  exact stays.trans (guards_of_began began)

/-- A thread that waits holds the lock again when the call ends, at as many levels as when it was
made. -/
theorem owns_after_wait {call : Call V} (run : LawfulRun threads value settings u (a :: older))
    (began : a.opening older = (b, before)) (calls : b.stage = .ofCall call) (waits : call.Waits)
    (ends : a.ends) (owns : Owns b.before a.thread levels) :
    guards a.thread (a :: older) = levels ∧ Owns a.after a.thread levels := by
  obtain ⟨call_waits, outside⟩ := Stage.waits_ofCall waits
  rw [← calls] at call_waits outside
  obtain ⟨count, some_guard⟩ := run.guards_before began outside owns
  have same : guards a.thread (a :: older) = levels :=
    (run.guards_after_wait began call_waits).trans count
  obtain ⟨v, run_v, after⟩ := run.after_access
  have rests : pending a.thread (a :: older) = none := pending_of_ends ends
  exact ⟨same, after ▸ run_v.owns_at_rest rests same some_guard⟩

/-- A thread loses a guard with a call that leaves a level. -/
theorem guards_of_unlock (run : LawfulRun threads value settings u (a :: older))
    (of : a.stage.Of .unlock) :
    guards a.thread (a :: older) + (if a.ends then 1 else 0) = guards a.thread older := by
  obtain ⟨v, run_v, -, some_t, taken⟩ := run.at_access
  cases ending : a.progress with
  | ongoing stage =>
    rw [guards_of_ongoing ending]
    simp [Turn.ends, ending, Progress.stage?]
  | finished reply =>
    have some_guard := run_v.held.guard_of_leaves (positions_of_some some_t)
      (Stage.leaves_of_unlock of) fun leave => run.lawful.1 (Or.inl leave)
    have goes_on := of.advance taken
    rw [ending] at goes_on
    obtain ⟨answers, count⟩ := goes_on
    have done : reply = .done := answers
    subst done
    have drops : guards a.thread (a :: older) = guards a.thread older - 1 := by
      simp only [guards, ending, if_true]
      exact count _
    have ends : a.ends := by simp [Turn.ends, ending, Progress.stage?]
    rw [drops, if_pos ends]
    omega

/-- While a thread makes no calls but to leave levels, it loses a guard with each of them. -/
theorem guards_of_unlocks (run : LawfulRun threads value settings u (newer ++ older))
    (unlocks : ∀ c ∈ newer, c.thread = t → c.stage.Of .unlock) :
    guards t (newer ++ older) + newer.countP (fun c => c.thread = t && c.ends) =
      guards t older := by
  induction newer generalizing u with
  | nil => simp
  | cons c newer ih =>
    obtain ⟨v, run_v, -, -, -⟩ := run.at_access
    have before := ih run_v fun c member => unlocks c (List.mem_cons_of_mem _ member)
    rw [List.cons_append, List.countP_cons]
    by_cases same : c.thread = t
    · subst same
      have step := run.guards_of_unlock (unlocks c (List.mem_cons_self ..) rfl)
      simp only [List.append_eq, decide_true, Bool.true_and] at step before ⊢
      omega
    · rw [guards_cons_of_ne (Ne.symm same)]
      simpa [same] using before

/-- A thread that makes itself known goes on to the lock, not to a wait. -/
theorem not_introducing (run : LawfulRun threads value settings u (b :: before)) {stage : Stage V}
    (ongoing : b.progress = .ongoing stage) (outside : stage.position = .outside) :
    ∀ next, b.stage ≠ .identifying next := by
  intro next introducing
  obtain ⟨y, run_y, -, some_b, taken⟩ := run.at_access
  have moves : b.stage.advance b.thread b.chance b.before = some (b.after, .ongoing stage) :=
    taken.ongoing ongoing
  have agrees := run_y.held.agrees b.thread
  rw [positions_of_some some_b, introducing] at agrees
  rw [introducing] at moves
  obtain rfl := Progress.ongoing.inj (Prod.mk.inj (Option.some.inj moves)).2
  rcases agrees with asks | ⟨mayWait, asks⟩ <;> rw [outside] at asks <;> cases asks

/-- A wait that ends before it has joined the wait set ends with its second access, after one in
which it has found an interrupt. -/
theorem found_of_refused (run : LawfulRun threads value settings u (a :: older))
    {timeout : Option Nat} (fetching : a.stage.wait? = some (.entering timeout .fetching)) :
    ∃ between b before, older = between ++ b :: before ∧ b.thread = a.thread ∧
      (∀ c ∈ between, c.thread ≠ a.thread) ∧ b.progress = .ongoing a.stage ∧
      b.stage.wait? = some (.entering timeout .clearing) ∧
      (b.before.mailboxes.get a.thread).pending ∧ KeepsHands b := by
  obtain ⟨v, run_v, -, some_t, -⟩ := run.at_access
  have later : ∀ call : Call V, a.stage ≠ .ofCall call := by
    intro call calls
    rw [calls] at fetching
    cases call with
    | waitUntil timeout condition => cases timeout <;> cases fetching
    | _ => cases fetching
  have left : pending a.thread older = some a.stage :=
    run_v.run.pending_of_stage? (System.stage?_start _) some_t later
  obtain ⟨between, b, before, rfl, mine, others, ongoing⟩ := exists_of_pending left
  obtain ⟨x, run_x⟩ := run_v.earlier
  obtain ⟨-, -, -, -, taken⟩ := run_x.at_access
  have introduced := run_x.not_introducing ongoing (Stage.position_of_entering fetching)
  obtain ⟨clearing, flag, keeps⟩ := Stage.found introduced (taken.ongoing ongoing) fetching
  exact ⟨between, b, before, rfl, mine, others, ongoing, clearing, mine ▸ flag, keeps⟩

/-- A thread whose call takes no access of the lock's procedures, from one access to the next and
last one, holds all its levels on both sides of each access in that time. -/
theorem owns_throughout (run : LawfulRun threads value settings u (a :: (between ++ b :: before)))
    (mine : b.thread = a.thread) (others : ∀ c ∈ between, c.thread ≠ a.thread)
    (ongoing : b.progress = .ongoing a.stage) (outside_b : b.stage.position = .outside)
    (outside : a.stage.position = .outside) (waits : a.stage.Waits) (ends : a.ends)
    (owns : Owns b.before a.thread levels) :
    ∀ c ∈ a :: between ++ [b], Owns c.before a.thread levels ∧ Owns c.after a.thread levels := by
  obtain ⟨v, run_v, here, -, -⟩ := run.at_access
  obtain ⟨x, run_x⟩ := run_v.earlier
  obtain ⟨count, some_guard⟩ : guards a.thread before = levels ∧ 0 < levels := by
    rw [← mine] at owns ⊢
    exact run_x.guards_of_call outside_b owns
  have left : pending a.thread (b :: before) = some a.stage := by
    rw [← mine, pending_cons_self, ongoing]
    rfl
  have since : guards a.thread (b :: before) = levels := by
    rw [← count, ← mine]
    exact guards_of_ongoing ongoing
  have during : ∀ {z : System (shared V) β} {first : List (Turn (shared V))},
      LawfulRun threads value settings z (first ++ b :: before) →
      (∀ c ∈ first, c.thread ≠ a.thread) → Owns z.state a.thread levels := by
    intro z first run_z others
    have still : pending a.thread (first ++ b :: before) = some a.stage ∧
        guards a.thread (first ++ b :: before) = levels := by
      rw [← left, ← since]
      exact pending_of_others others
    exact run_z.owns_while_pending still.1 outside still.2 some_guard
  intro c member
  simp only [List.cons_append, List.mem_cons, List.mem_append, List.not_mem_nil, or_false] at member
  rcases member with rfl | member | rfl
  · have same : guards c.thread (c :: (between ++ b :: before)) = levels := by
      rw [guards_cons_of_none (waits.levelReply? c.progress), (pending_of_others others).2, since]
    obtain ⟨q, run_q, after⟩ := run.after_access
    rw [← here, ← after]
    exact ⟨during run_v others, run_q.owns_at_rest (pending_of_ends ends) same some_guard⟩
  · obtain ⟨first, second, rfl⟩ := List.append_of_mem member
    have later : ∀ d ∈ c :: second, d.thread ≠ a.thread :=
      fun d inside => others d (List.mem_append_right first inside)
    rw [List.append_assoc, List.cons_append] at run_v
    obtain ⟨z, run_z⟩ := run_v.earlier
    obtain ⟨p, run_p, here_p, -, -⟩ := run_z.at_access
    obtain ⟨q, run_q, after⟩ := run_z.after_access
    rw [← here_p, ← after]
    exact ⟨during run_p fun d inside => later d (List.mem_cons_of_mem c inside),
      during run_q later⟩
  · obtain ⟨q, run_q, after⟩ := run_x.after_access
    rw [← after]
    exact ⟨owns, during run_q (List.forall_mem_nil _)⟩

/-- A wait that ends before it has joined the wait set is cancelled, with the lock and the wait set
untouched. -/
theorem untouched_of_refused {result : Except Fault Ending}
    (run : LawfulRun threads value settings u (a :: older))
    (refused : (entry a).ended = some (none, result)) :
    (∃ message, result = .error (.cancelled message)) ∧ Untouched a older := by
  obtain ⟨v, run_v, -, -, taken⟩ := run.at_access
  obtain ⟨⟨timeout, fetching⟩, cancelled, ending, keeps_a⟩ := Stage.refuses taken refused
  obtain ⟨between, b, before, rfl, mine, others, ongoing, clearing, flag, keeps_b⟩ :=
    run.found_of_refused fetching
  refine ⟨cancelled, between, b, before, timeout, rfl, mine, others, clearing, flag, keeps_b,
    keeps_a, ?_⟩
  intro levels owns
  have ends : a.ends := by simp [Turn.ends, ending]
  exact run.owns_throughout mine others ongoing (Stage.position_of_entering clearing)
    (Stage.position_of_entering fetching) (Stage.waits_of_wait? fetching) ends owns

end LawfulRun

section Enter

variable {allowed : Nat → Action V β → Prop} {u : System (shared V) β} {s : Nat}
  {next : Reply V → Action V β} {m m' : Monitor V} {stage stage' : Stage V}

/-- On its own, the thread can come to a stage of its call and the monitor to a state. -/
def Reachable (allowed : Nat → Action V β → Prop) (u : System (shared V) β) (s : Nat)
    (next : Reply V → Action V β) (m : Monitor V) (stage : Stage V) : Prop :=
  ∃ v fresh, System.Run allowed u v fresh ∧ (∀ c ∈ fresh, c.thread = s) ∧ v.state = m ∧
    v.threads.get s = .busy stage next ∧ ∀ t, t ≠ s → v.threads.get t = u.threads.get t

theorem Reachable.call (call : Call V) (free : (u.threads.get s).isIdle)
    (may : allowed s (.call call next)) :
    Reachable allowed u s next u.state (.ofCall call) := by
  refine ⟨_, [], .assign s (.call call next) .start free may, List.forall_mem_nil _, rfl, ?_, ?_⟩
  · simp [System.assign, Activity.ofProgram]
  · intro t other
    simp [System.assign, Table.get_set_other _ _ other]

theorem Reachable.step (reached : Reachable allowed u s next m stage)
    (moves : stage.advance s {} m = some (m', .ongoing stage')) :
    Reachable allowed u s next m' stage' := by
  obtain ⟨v, fresh, run, alone, rfl, busy, others⟩ := reached
  refine ⟨_, _, .access ⟨s, {}, v.state, stage, m', .ongoing stage'⟩ next run rfl busy moves,
    ?_, rfl, ?_, ?_⟩
  · intro c member
    rcases List.mem_cons.mp member with rfl | member
    · rfl
    · exact alone c member
  · simp [Activity.after]
  · intro t other
    rw [Table.get_set_other _ _ other]
    exact others t other

/-- On its own, thread `s` can enter the lock, while the other threads stay where they are. -/
def CanEnter (threads : Nat) (u : System (shared V) β) (s : Nat) : Prop :=
  ∀ next : Reply V → Action V β,
    ∃ v fresh, System.Run (fun t _ => t < threads) u v fresh ∧ (∀ c ∈ fresh, c.thread = s) ∧
      v.threads.get s = (Activity.ofProgram (next (.truth true))).1 ∧ Owns v.state s 1 ∧
      ∀ t, t ≠ s → v.stage? t = u.stage? t

/-- An idle thread can enter the lock while the word is free, whatever the others are in the middle
of. -/
theorem canEnter_of_unlocked {threads : Nat} {value : V} {settings : Settings}
    {trace : List (Turn (shared V))} (run : LawfulRun threads value settings u trace)
    (unlocked : u.state.lock.word = .unlocked) (member : s < threads)
    (idle : (u.threads.get s).isIdle) : CanEnter threads u s := by
  intro next
  have held := run.held
  have nobody := held.owned.unlocked_iff.mp unlocked
  have no_owner : u.state.lock.owner = 0 := (held.owned.free nobody).2
  obtain ⟨-, named⟩ := held.ids.identify run.few member
  have kept : (u.state.identify s).lock = u.state.lock := by
    unfold identify
    split <;> rfl
  generalize identified : u.state.identify s = m at named kept
  let won : Monitor V := { m with lock := { m.lock with word := .locked } }
  let signed : Monitor V := { won with lock := { won.lock with owner := m.identities.get s } }
  have asks : Reachable (fun t _ => t < threads) u s next m (.locking (.ask true)) :=
    (Reachable.call .lock idle member).step (by rw [← identified]; rfl)
  have attempts : Reachable (fun t _ => t < threads) u s next m
      (.locking (.acquire .attempt 1)) := by
    refine asks.step ?_
    have other : m.lock.owner ≠ m.identities.get s := by
      rw [kept, no_owner]
      exact Ne.symm named
    simp [Stage.advance, Lock.Stage.advance, other]
  have wins : Reachable (fun t _ => t < threads) u s next won (.locking (.own 1)) :=
    attempts.step (by
      simp [Stage.advance, Lock.Stage.advance, Lock.Acquire.advance, kept, unlocked, won])
  obtain ⟨v, fresh, run_v, alone, here, busy, others⟩ : Reachable (fun t _ => t < threads) u s next
      signed (.locking (.settle 1)) := wins.step rfl
  let entered : Monitor V := { signed with lock := { signed.lock with depth := 1 } }
  have settles : (Stage.locking (.settle 1)).advance s {} v.state =
      some (entered, .finished (.truth true)) := by
    rw [here]
    rfl
  refine ⟨_, _, .access ⟨s, {}, v.state, _, entered, _⟩ next run_v rfl busy settles, ?_, ?_, ?_, ?_⟩
  · intro c inside
    rcases List.mem_cons.mp inside with rfl | inside
    · rfl
    · exact alone c inside
  · rw [Table.get_set_same]
    rfl
  · exact ⟨named, show Word.locked ≠ Word.unlocked by decide, rfl, rfl⟩
  · intro t other
    simp only [System.stage?, Table.get_set_other _ _ other, others t other]

end Enter

/-- The thread has left a number of the levels that it held. It holds the others, or else the word
is free or another thread's. -/
def HasLeft (u : System (shared V) β) (trace : List (Turn (shared V))) (t levels left : Nat) :
    Prop :=
  left ≤ levels ∧ (left < levels → Owns u.state t (levels - left)) ∧
    (left = levels → ¬ HasWord t trace ∧
      (u.state.lock.word = .unlocked ∨ ∃ s, s ≠ t ∧ HasWord s trace))

section Run

variable {threads : Nat} {value : V} {settings : Settings} {u : System (shared V) β}
  {trace newer older : List (Turn (shared V))} {t levels : Nat}

/-- A thread that has a guard for each of its levels and then only leaves levels is free of the lock
when it has left all of them. -/
theorem LawfulRun.hasLeft_of_unlocks (run : LawfulRun threads value settings u (newer ++ older))
    (held : guards t older = levels) (unlocks : ∀ c ∈ newer, c.thread = t → c.stage.Of .unlock)
    (rests : pending t (newer ++ older) = none) :
    HasLeft u (newer ++ older) t levels (newer.countP fun c => c.thread = t && c.ends) := by
  have count := run.guards_of_unlocks unlocks
  rw [held] at count
  refine ⟨by omega, ?_, ?_⟩
  · intro more
    exact run.owns_at_rest rests (by omega) (by omega)
  · intro all
    have none_left : guards t (newer ++ older) = 0 := by omega
    have tenure := tenure_of_rests ((run.run.stage?_eq (System.stage?_start _) t).2 rests)
      (guards t (newer ++ older))
    rw [none_left] at tenure
    have without : ¬ HasWord t (newer ++ older) := by
      rw [run.held.word, none_left, tenure]
      exact fun has => has rfl
    exact ⟨without, run.held.free_or_other without⟩

/-- Waiting gives back what it took. A thread that holds the lock at a number of levels when it
makes a call that waits holds it at as many when the call ends, however it ends; leaving these
levels, which is never blocked, frees the lock. In between, while the thread is off the lock, it holds no
level, and any other thread that is idle can enter if the word is free. A wait that an interrupt
cancels on entry leaves the lock and the wait set alone, and a wait whose time in seconds is refused
makes no call at all. -/
theorem waits_restore_levels (few : threads < 2 ^ 64)
    (run : System.Run (fun t _ => t < threads) { state := Monitor.new value settings } u trace)
    (lawful : Lawful trace) :
    (∀ {newer older before : List (Turn (shared V))} {a b : Turn (shared V)} {call : Call V}
      {levels : Nat}, trace = newer ++ a :: older → a.opening older = (b, before) →
      b.stage = .ofCall call → call.Waits → a.ends → Owns b.before a.thread levels →
      Owns a.after a.thread levels ∧
        ((∀ c ∈ newer, c.thread = a.thread → c.stage.Of .unlock) → pending a.thread trace = none →
          HasLeft u trace a.thread levels
            (newer.countP fun c => c.thread = a.thread && c.ends))) ∧
    (∀ {stage : Stage V}, stage.Of .unlock → ∀ t chance m,
      (stage.advance t chance m).isSome) ∧
    (∀ t, (positionOf (u.stage? t)).OffLock →
      ¬ HasWord t trace ∧ u.state.lock.owner ≠ u.state.identities.get t ∧
      (u.state.lock.word = .unlocked ∨ ∃ s, s ≠ t ∧ HasWord s trace) ∧
      (u.state.lock.word = .unlocked → ∀ {s}, s < threads → (u.threads.get s).isIdle →
        CanEnter threads u s)) ∧
    (∀ {newer older : List (Turn (shared V))} {a : Turn (shared V)} {result : Except Fault Ending},
      trace = newer ++ a :: older → (entry a).ended = some (none, result) →
      (∃ message, result = .error (.cancelled message)) ∧ Untouched a older) ∧
    ∀ (seconds : Decimal.Number) (next : Except Fault Ending → Action V β),
      (∀ fault, Timeout.ofSeconds seconds = .error fault → fault = Timeout.negative ∧
        (Action.waitSeconds (some seconds)).bind next = next (.error fault)) ∧
      ∀ timeout, Timeout.ofSeconds seconds = .ok timeout →
        (Action.waitSeconds (some seconds)).bind next = (Action.wait timeout).bind next := by
  have lawful_run : LawfulRun threads value settings u trace := ⟨few, run, lawful⟩
  refine ⟨?_, ?_, ?_, ?_, ?_⟩
  · rintro newer older before a b call levels rfl began calls waits ends owns
    obtain ⟨v, run_v⟩ := lawful_run.earlier
    obtain ⟨count, restored⟩ := run_v.owns_after_wait began calls waits ends owns
    exact ⟨restored, fun unlocks rests => lawful_run.hasLeft_of_unlocks count unlocks rests⟩
  · exact fun of => (Stage.leaves_of_unlock of).isSome_advance
  · intro t off
    obtain ⟨without, other, shared⟩ := lawful_run.held.offLock off
    refine ⟨without, other, shared, ?_⟩
    intro unlocked s member idle
    exact canEnter_of_unlocked lawful_run unlocked member idle
  · rintro newer older a result rfl refused
    obtain ⟨v, run_v⟩ := lawful_run.earlier
    exact run_v.untouched_of_refused refused
  · intro seconds next
    refine ⟨?_, ?_⟩
    · intro fault refused
      refine ⟨Timeout.eq_negative refused, ?_⟩
      simp [Action.waitSeconds, refused]
    · intro timeout accepted
      simp [Action.waitSeconds, accepted]

end Run

/-- Whether a stage is the one that a wait with no deadline starts at. -/
def Stage.startsWait : Stage V → Bool
  | waiting (.entering none .clearing) => true
  | _ => false

theorem Stage.eq_of_startsWait {stage : Stage V} (starts : stage.startsWait) :
    stage = ofCall (.wait none) := by
  unfold startsWait at starts
  split at starts
  · rfl
  · cases starts

/-- Thread `0` waits at two levels of the lock, until thread `1` has entered it and notifies. -/
@[irreducible]
def lending : System (shared Unit) Unit × List (Turn (shared Unit)) :=
  let start : System (shared Unit) Unit := { state := Monitor.new () }
  let borrower : Action Unit Unit := do
    Action.lock
    Action.lock
    let _ ← Action.wait none
  let lender : Action Unit Unit := do
    Action.lock
    let _ ← Action.signal
    Action.unlock
  let turns := List.replicate 16 0 ++ List.replicate 12 1 ++ List.replicate 12 0
  ((start.assign 0 borrower).1.assign 1 lender).1.follow [] (turns.map fun t => (t, {}))

theorem waits_restore_levels_lending :
    Lawful lending.2 ∧ ∃ a older, lending.2 = a :: older ∧ a.ends ∧
      (a.opening older).1.stage = .ofCall (.wait none) ∧
      Owns (a.opening older).1.before a.thread 2 ∧ Owns a.after a.thread 2 := by
  have run : System.Run (fun t _ => t < 2) { state := Monitor.new () } lending.1 lending.2 := by
    unfold lending
    exact System.Run.follow (.assign 1 _ (.assign 0 _ .start rfl (by decide)) rfl (by decide)) _
  have lawful : Lawful lending.2 := by decide +kernel
  have waited : lending.2.head?.any (fun a =>
      a.ends && decide (Owns (a.opening lending.2.tail).1.before a.thread 2) &&
        (a.opening lending.2.tail).1.stage.startsWait) = true := by decide +kernel
  obtain ⟨restores, -⟩ := waits_restore_levels (by decide) run lawful
  refine ⟨lawful, ?_⟩
  cases same : lending.2 with
  | nil =>
    rw [same] at waited
    cases waited
  | cons a older =>
    rw [same] at waited
    simp only [List.head?_cons, List.tail_cons, Option.any_some, Bool.and_eq_true] at waited
    obtain ⟨⟨ends, owned⟩, starts⟩ := waited
    have owns := of_decide_eq_true owned
    have calls := Stage.eq_of_startsWait starts
    have last : lending.2 = [] ++ a :: older := same
    have began : a.opening older = ((a.opening older).1, (a.opening older).2) := rfl
    have waits : (Call.wait none : Call Unit).Waits := trivial
    exact ⟨a, older, rfl, ends, calls, owns, (restores last began calls waits ends owns).1⟩

end Monitor

end Interlock

import Interlock.Proofs.Monitor.Ownership
import Interlock.Proofs.Opening

/-!
# Programs that use guards

A thread reaches the guarded value, the wait set and the way out of the lock through a guard only,
so a program can make these calls only on a level of the lock. `Guarded` says this of a program;
`Stage.Of` tells which stages a call goes through, and `Sound` what a thread in the middle of such a
program is doing. All runs of guarded programs are lawful (`sound_of_run`).
-/

namespace Interlock.Monitor

variable {V β γ : Type}

namespace Call

/-- The call is made through a guard. -/
def NeedsGuard : Call V → Prop
  | lock | tryLock | holds | interrupt _ _ | isInterrupted _ | takeInterrupt => False
  | _ => True

/-- The answers of the calls that enter or leave a level. Of the others nothing is said. -/
def Answers : Call V → Reply V → Prop
  | lock, .truth answer => answer = true
  | tryLock, .truth _ => True
  | lock, _ | tryLock, _ => False
  | unlock, reply => reply = .done
  | _, _ => True

/-- The number of guards after the call has been answered. -/
def guardsAfter : Call V → Reply V → Nat → Nat
  | lock, reply, guards | tryLock, reply, guards | unlock, reply, guards =>
    Monitor.guardsAfter (some reply) guards
  | _, _, guards => guards

end Call

/-- The program makes its calls through guards, beginning with a number of them and ending with a
number of them. -/
def Guarded (final : Nat) : Nat → Action V β → Prop
  | guards, .done _ => guards = final
  | guards, .call call next =>
    (call.NeedsGuard → 0 < guards) ∧
      ∀ reply, call.Answers reply → Guarded final (call.guardsAfter reply guards) (next reply)

theorem Guarded.bind {guards middle final : Nat} {program : Action V β} {f : β → Action V γ}
    (first : Guarded middle guards program) (rest : ∀ b, Guarded final middle (f b)) :
    Guarded final guards (program.bind f) := by
  induction program generalizing guards with
  | done b =>
    have same : guards = middle := first
    exact same ▸ rest b
  | call call next ih => exact ⟨first.1, fun reply answers => ih reply (first.2 reply answers)⟩

/-- A body on a level of the lock. -/
theorem Guarded.synchronized {guards : Nat} {body : Action V β}
    (inner : Guarded (guards + 1) (guards + 1) body) :
    Guarded guards guards (Action.synchronized body) := by
  refine ⟨False.elim, fun reply answers => ?_⟩
  cases reply with
  | truth answer =>
    cases answers
    exact inner.bind fun b => ⟨fun _ => Nat.succ_pos _, fun reply answers => by cases answers; rfl⟩
  | _ => exact answers.elim

namespace Stage

/-- The stages that a call goes through. -/
def Of (call : Call V) : Stage V → Prop
  | identifying next =>
    next = locking (.ask true) ∧ call = .lock ∨ next = locking (.ask false) ∧ call = .tryLock ∨
      next = comparing ∧ call = .holds
  | locking lock =>
    match lock with
    | .ask true | .acquire _ _ => call = .lock
    | .ask false | .tryWord => call = .tryLock
    | .deepen | .own _ | .settle _ => call = .lock ∨ call = .tryLock
    | .leave | .disown _ | .free _ | .wake _ => call = .unlock
    | .surrender => False
  | comparing => call = .holds
  | waiting _ => ∃ timeout, call = .wait timeout
  | limiting _ condition | testing _ condition _ | timing _ condition _ _
  | pausing _ condition _ _ => ∃ timeout, call = .waitUntil timeout condition
  | notifying false => call = .signal
  | notifying true => call = .broadcast
  | waking _ _ =>
    call = .signal ∨ call = .broadcast ∨ ∃ target message, call = .interrupt target message
  | probing => call = .hasWaiters
  | counting => call = .waiterCount
  | accessing f => call = .access f
  | raising target _ => ∃ message, call = .interrupt target message
  | peeking target => call = .isInterrupted target
  | taking _ => call = .takeInterrupt

theorem of_ofCall (call : Call V) : (ofCall call).Of call := by
  cases call with
  | lock => exact Or.inl ⟨rfl, rfl⟩
  | tryLock => exact Or.inr (Or.inl ⟨rfl, rfl⟩)
  | holds => exact Or.inr (Or.inr ⟨rfl, rfl⟩)
  | waitUntil timeout condition =>
    cases timeout with
    | none => exact ⟨none, rfl⟩
    | some timeout => exact ⟨some timeout, rfl⟩
  | wait timeout => exact ⟨timeout, rfl⟩
  | interrupt target message => exact ⟨message, rfl⟩
  | _ => rfl

/-- A procedure of the lock goes on in the same call. -/
theorem of_lock_ongoing {call : Call V} {stage next : Lock.Stage} {t : Nat} {me : UInt64}
    {chance : Chance} {l l' : Lock} (of : Of call (locking stage))
    (moves : stage.advance t me chance l = some (l', .ongoing next)) :
    Of call (locking next) := by
  cases stage with
  | ask mayWait =>
    cases mayWait <;> obtain rfl := of <;> simp only [Lock.Stage.advance] at moves <;>
      split at moves <;> cases moves
    · exact Or.inr rfl
    · rfl
    · exact Or.inl rfl
    · rfl
  | acquire way levels =>
    obtain rfl := of
    simp only [Lock.Stage.advance] at moves
    split at moves <;> cases moves
    · exact Or.inl rfl
    · rfl
  | tryWord =>
    obtain rfl := of
    simp only [Lock.Stage.advance] at moves
    split at moves <;> cases moves
    exact Or.inr rfl
  | surrender => exact of.elim
  | own levels =>
    cases moves
    exact of
  | deepen | settle levels | wake levels => cases moves
  | leave | disown levels | free levels =>
    obtain rfl := of
    simp only [Lock.Stage.advance] at moves
    repeat' split at moves
    all_goals cases moves
    all_goals rfl

/-- A procedure of the lock gives an answer of its call. -/
theorem of_lock_finished {call : Call V} {stage : Lock.Stage} {t : Nat} {me : UInt64}
    {chance : Chance} {l l' : Lock} {reply : Lock.Reply} (of : Of call (locking stage))
    (moves : stage.advance t me chance l = some (l', .finished reply)) :
    call.Answers (ofLock reply) ∧ ∀ guards,
      Monitor.guardsAfter (some (ofLock reply : Reply V)) guards =
        call.guardsAfter (ofLock reply) guards := by
  cases stage with
  | deepen | settle levels =>
    cases moves
    rcases of with rfl | rfl
    · exact ⟨rfl, fun _ => rfl⟩
    · exact ⟨trivial, fun _ => rfl⟩
  | tryWord =>
    obtain rfl := of
    simp only [Lock.Stage.advance] at moves
    split at moves <;> cases moves
    exact ⟨trivial, fun _ => rfl⟩
  | surrender => exact of.elim
  | leave | free levels | wake levels =>
    obtain rfl := of
    simp only [Lock.Stage.advance] at moves
    repeat' split at moves
    all_goals cases moves
    all_goals exact ⟨rfl, fun _ => rfl⟩
  | ask | acquire | own | disown =>
    simp only [Lock.Stage.advance] at moves
    repeat' split at moves
    all_goals cases moves

/-- What becomes of a call: it goes on to another of its stages, or it is answered, and the answer
tells how many guards the thread then has. -/
def Continues (call : Call V) (stage : Stage V) : Progress (Stage V) (Reply V) → Prop
  | .ongoing next => next.Of call
  | .finished reply => call.Answers reply ∧ ∀ guards,
      Monitor.guardsAfter (levelReply? stage (.finished reply)) guards =
        call.guardsAfter reply guards

theorem levelReply?_ongoing (stage next : Stage V) : levelReply? stage (.ongoing next) = none := by
  cases stage <;> rfl

theorem Of.advance {call : Call V} {stage : Stage V} {t : Nat} {chance : Chance}
    {m m' : Monitor V} {progress : Progress (Stage V) (Reply V)} (of : stage.Of call)
    (moves : stage.advance t chance m = some (m', progress)) : Continues call stage progress := by
  cases stage with
  | identifying next =>
    cases moves
    rcases of with ⟨rfl, rfl⟩ | ⟨rfl, rfl⟩ | ⟨rfl, rfl⟩ <;> rfl
  | locking lock =>
    simp only [Stage.advance] at moves
    split at moves
    · cases moves
    · rename_i moves_lock
      cases moves
      exact of_lock_ongoing of moves_lock
    · rename_i moves_lock
      cases moves
      exact of_lock_finished of moves_lock
  | comparing =>
    cases moves
    obtain rfl := of
    exact ⟨trivial, fun _ => rfl⟩
  | waiting wait =>
    obtain ⟨timeout, rfl⟩ := of
    simp only [Stage.advance] at moves
    split at moves
    · cases moves
    · cases moves
      exact ⟨timeout, rfl⟩
    · cases moves
      exact ⟨trivial, fun _ => rfl⟩
  | limiting timeout condition =>
    cases moves
    exact of
  | testing deadline condition tests =>
    obtain ⟨timeout, rfl⟩ := of
    cases deadline with
    | some deadline =>
      cases moves
      exact ⟨timeout, rfl⟩
    | none =>
      simp only [Stage.advance] at moves
      split at moves <;> cases moves
      · exact ⟨trivial, fun _ => rfl⟩
      · exact ⟨timeout, rfl⟩
  | timing deadline condition tests met =>
    obtain ⟨timeout, rfl⟩ := of
    simp only [Stage.advance] at moves
    split at moves <;> cases moves
    · exact ⟨trivial, fun _ => rfl⟩
    · exact ⟨timeout, rfl⟩
  | pausing deadline condition tests wait =>
    obtain ⟨timeout, rfl⟩ := of
    simp only [Stage.advance] at moves
    split at moves <;> cases moves
    · exact ⟨timeout, rfl⟩
    · exact ⟨timeout, rfl⟩
    · exact ⟨trivial, fun _ => rfl⟩
  | notifying all =>
    cases all <;> obtain rfl := of <;> simp only [Stage.advance] at moves <;>
      split at moves <;> cases moves
    · exact ⟨trivial, fun _ => rfl⟩
    · exact Or.inl rfl
    · exact ⟨trivial, fun _ => rfl⟩
    · exact Or.inr (Or.inl rfl)
  | waking threads reply =>
    have answers : Continues call (waking threads reply) (.finished reply) := by
      rcases of with rfl | rfl | ⟨target, message, rfl⟩ <;> exact ⟨trivial, fun _ => rfl⟩
    rcases threads with _ | ⟨_, _ | _⟩
    · cases moves
      exact answers
    · cases moves
      exact answers
    · cases moves
      exact of
  | raising target stage =>
    obtain ⟨message, rfl⟩ := of
    simp only [Stage.advance] at moves
    split at moves <;> cases moves
    · exact ⟨message, rfl⟩
    · exact Or.inr (Or.inr ⟨target, message, rfl⟩)
  | taking stage =>
    obtain rfl := of
    simp only [Stage.advance] at moves
    split at moves <;> cases moves
    · rfl
    · exact ⟨trivial, fun _ => rfl⟩
  | probing | counting | accessing f | peeking target =>
    cases moves
    obtain rfl := of
    exact ⟨trivial, fun _ => rfl⟩

/-- Only calls that are made through a guard leave levels. -/
theorem Of.needsGuard {call : Call V} {stage : Stage V} (of : stage.Of call)
    (leaves : stage.position.lock? = some .leave ∨ stage.position.lock? = some .surrender) :
    call.NeedsGuard := by
  cases stage with
  | locking lock =>
    cases lock with
    | leave =>
      obtain rfl := of
      trivial
    | surrender => exact of.elim
    | _ => rcases leaves with leaves | leaves <;> cases leaves
  | waiting wait | pausing deadline condition tests wait =>
    obtain ⟨timeout, rfl⟩ := of
    trivial
  | _ => rcases leaves with leaves | leaves <;> cases leaves

/-- A call that accesses the value has one stage. -/
theorem Of.eq_accessing {f : V → V} {stage : Stage V} (of : stage.Of (.access f)) :
    stage = accessing f := by
  cases stage with
  | accessing g =>
    cases of
    rfl
  | identifying next => rcases of with ⟨-, wrong⟩ | ⟨-, wrong⟩ | ⟨-, wrong⟩ <;> cases wrong
  | locking lock =>
    cases lock with
    | ask mayWait => cases mayWait <;> cases of
    | deepen | own levels | settle levels => rcases of with wrong | wrong <;> cases wrong
    | _ => cases of
  | notifying all => cases all <;> cases of
  | waking threads reply => rcases of with wrong | wrong | ⟨target, message, wrong⟩ <;> cases wrong
  | waiting _ | limiting _ _ | testing _ _ _ | timing _ _ _ _ | pausing _ _ _ _ | raising _ _ =>
    obtain ⟨_, wrong⟩ := of
    cases wrong
  | _ => cases of

end Stage

/-- A call that goes on has entered and left no level. -/
theorem guards_of_ongoing {a : Turn (shared V)} {older : List (Turn (shared V))} {next : Stage V}
    (ongoing : a.progress = .ongoing next) :
    guards a.thread (a :: older) = guards a.thread older := by
  simp [guards, ongoing, Stage.levelReply?_ongoing, guardsAfter]

/-- What a thread is doing that has a number of guards and runs programs of a kind. -/
def Sound (Q : Action V β → Prop) (guards : Nat) : Activity (shared V) β → Prop
  | .idle => guards = 0
  | .busy stage next => ∃ call, stage.Of call ∧ Guarded 0 guards (.call call next) ∧
      Q (.call call next)

theorem sound_ofProgram {Q : Action V β → Prop} {guards : Nat} {program : Action V β}
    (guarded : Guarded 0 guards program) (kind : Q program) :
    Sound Q guards (Activity.ofProgram program : Activity (shared V) β × Option β).1 := by
  cases program with
  | done result => exact guarded
  | call call next => exact ⟨call, Stage.of_ofCall call, guarded, kind⟩

theorem sound_of_isIdle {Q : Action V β → Prop} {guards : Nat} {activity : Activity (shared V) β}
    (idle : activity.isIdle) : Sound Q guards activity ↔ guards = 0 := by
  cases activity with
  | idle => exact Iff.rfl
  | busy stage next => cases idle

theorem guard_of_leaves {Q : Action V β → Prop} {stage : Stage V} {next : Reply V → Action V β}
    {guards : Nat} (sound : Sound Q guards (.busy stage next))
    (leaves : stage.position.lock? = some .leave ∨ stage.position.lock? = some .surrender) :
    0 < guards := by
  obtain ⟨call, of, guarded, -⟩ := sound
  exact guarded.1 (of.needsGuard leaves)

/-- After an access a thread has the guards that the rest of its program makes use of. -/
theorem sound_after {Q : Action V β → Prop}
    (closed : ∀ call next reply, Q (.call call next) → call.Answers reply → Q (next reply))
    {a : Turn (shared V)} {next : Reply V → Action V β} {guards : Nat}
    (sound : Sound Q guards (.busy a.stage next)) (taken : a.Taken) :
    Sound Q (guardsAfter (Stage.levelReply? a.stage a.progress) guards)
      (Activity.after next a.progress : Activity (shared V) β × Option β).1 := by
  obtain ⟨call, of, guarded, kind⟩ := sound
  have goes_on := of.advance taken
  cases ending : a.progress with
  | ongoing stage =>
    rw [ending] at goes_on
    rw [Stage.levelReply?_ongoing]
    exact ⟨call, goes_on, guarded, kind⟩
  | finished reply =>
    rw [ending] at goes_on
    obtain ⟨answers, count⟩ := goes_on
    rw [count]
    exact sound_ofProgram (guarded.2 reply answers) (closed call next reply kind answers)

variable {allowed : Nat → Action V β → Prop} {s u : System (shared V) β}
  {trace : List (Turn (shared V))}

/-- Every thread in the middle of a call is at one of its stages. -/
theorem exists_call_of_run (run : System.Run allowed s u trace) (quiet : ∀ t, s.stage? t = none)
    {t : Nat} {stage : Stage V} (here : u.stage? t = some stage) : ∃ call, stage.Of call := by
  have calls := run.call_of_stage (P := fun call (stage : Stage V) => stage.Of call) quiet
    Stage.of_ofCall (fun of taken ongoing => Stage.Of.advance of (taken.ongoing ongoing)) t
  obtain ⟨call, of, -⟩ := calls.2 stage here
  exact ⟨call, of⟩

/-- In a run of guarded programs, threads leave levels only while they have guards, and every thread
has the guards that its program makes use of. -/
theorem sound_of_run {Q : Action V β → Prop}
    (closed : ∀ call next reply, Q (.call call next) → call.Answers reply → Q (next reply))
    (programs : ∀ t program, allowed t program → Guarded 0 0 program ∧ Q program)
    (run : System.Run allowed s u trace) (idle : ∀ t, (s.threads.get t).isIdle) :
    Lawful trace ∧ ∀ t, Sound Q (guards t trace) (u.threads.get t) := by
  induction run with
  | start => exact ⟨trivial, fun t => (sound_of_isIdle (idle t)).mpr rfl⟩
  | @assign u trace t program _ free may ih =>
    obtain ⟨lawful, sound⟩ := ih
    refine ⟨lawful, fun s => ?_⟩
    by_cases same : s = t
    · subst same
      rw [(sound_of_isIdle free).mp (sound s)]
      simp only [System.assign, Table.get_set_same]
      exact sound_ofProgram (programs s program may).1 (programs s program may).2
    · simp only [System.assign, Table.get_set_other _ _ same]
      exact sound s
  | @access u trace a next _ here busy taken ih =>
    obtain ⟨lawful, sound⟩ := ih
    have sound_t := sound a.thread
    rw [busy] at sound_t
    refine ⟨⟨guard_of_leaves sound_t, lawful⟩, fun s => ?_⟩
    by_cases same : s = a.thread
    · subst same
      simp only [Table.get_set_same, guards, if_pos]
      exact sound_after closed sound_t taken
    · rw [Table.get_set_other _ _ same, guards_cons_of_ne same]
      exact sound s
  | elapse time _ ih => exact ih

end Interlock.Monitor

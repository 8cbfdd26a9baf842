import Interlock.System
import Mathlib.Logic.Function.Basic

/-!
# Runs and their accesses

`System.Reaches` keeps the results of a run only. A `System.Run` keeps every access that was taken,
the latest one first, so that a statement can speak of what has happened as well as of where the
threads are. Both notions reach the same states (`Reaches.exists_run`, `Run.exists_reaches`).

Most invariants of an object do not depend on the programs of its threads, only on the stage that
each thread is at. `Run.stages_induction` is the induction for these: a thread without a call
enters one, a thread takes an access, or time passes.
-/

namespace Interlock

variable {τ ρ : Type} {O : Shared} {β : Type}

/-- One turn, which is one access: who took it, what the environment chose, the state on both sides
of it, the stage that the call was at, and what became of the call. -/
structure Turn (O : Shared) where
  thread : Nat
  chance : Chance
  before : O.State
  stage : O.Stage
  after : O.State
  progress : Progress O.Stage O.Reply

/-- The turn is one that the object grants. -/
def Turn.Taken (a : Turn O) : Prop :=
  O.advance a.thread a.chance a.before a.stage = some (a.after, a.progress)

theorem Turn.Taken.ongoing {a : Turn O} {stage : O.Stage} (taken : a.Taken)
    (goes_on : a.progress = .ongoing stage) :
    O.advance a.thread a.chance a.before a.stage = some (a.after, .ongoing stage) := by
  rw [← goes_on]
  exact taken

/-- The stage of a call that goes on. -/
def Progress.stage? : Progress τ ρ → Option τ
  | ongoing stage => some stage
  | finished _ => none

theorem Progress.eq_ongoing {progress : Progress τ ρ} {stage : τ}
    (goes_on : progress.stage? = some stage) : progress = .ongoing stage := by
  cases progress with
  | ongoing next => exact congrArg ongoing (Option.some.inj goes_on)
  | finished reply => cases goes_on

/-- When one thread has moved, a thread is at the stage to which it has moved or where it was. -/
theorem stage_of_update {stages : Nat → Option τ} {r t : Nat} {stage? : Option τ} {stage : τ}
    (here : Function.update stages r stage? t = some stage) :
    stage? = some stage ∨ stages t = some stage := by
  by_cases same : t = r
  · subst same
    exact Or.inl (Function.update_self t stage? stages ▸ here)
  · exact Or.inr (Function.update_of_ne same stage? stages ▸ here)

/-- The access ends its call. -/
def Turn.ends (a : Turn O) : Bool :=
  a.progress.stage?.isNone

namespace Activity

/-- The stage of the call in progress. -/
def stage? : Activity O β → Option O.Stage
  | idle => none
  | busy stage _ => some stage

/-- What a thread does after an access, and the result of its program if that ends there. -/
def after (next : O.Reply → O.Action β) :
    Progress O.Stage O.Reply → Activity O β × Option β
  | .ongoing stage => (busy stage next, none)
  | .finished reply => ofProgram (next reply)

@[simp]
theorem stage?_default : (default : Activity O β).stage? = none := rfl

theorem isIdle_iff_stage? (a : Activity O β) : a.isIdle ↔ a.stage? = none := by
  cases a <;> simp [isIdle, stage?]

/-- A program begins with nothing to do or with a call that has not taken an access. -/
theorem stage?_ofProgram (program : O.Action β) :
    (ofProgram program).1.stage? = none ∨
      ∃ call, (ofProgram program).1.stage? = some (O.enter call) := by
  cases program with
  | done result => exact Or.inl rfl
  | call request next => exact Or.inr ⟨request, rfl⟩

end Activity

namespace System

/-- The stage of a thread's call in progress. -/
def stage? (s : System O β) (t : Nat) : Option O.Stage :=
  (s.threads.get t).stage?

theorem stage?_of_busy {s : System O β} {t : Nat} {stage : O.Stage} {next : O.Reply → O.Action β}
    (busy : s.threads.get t = .busy stage next) : s.stage? t = some stage := by
  rw [stage?, busy]
  rfl

theorem stage?_set (s : System O β) (state : O.State) (t : Nat) (activity : Activity O β) :
    stage? { state, threads := s.threads.set t activity } =
      Function.update s.stage? t activity.stage? := by
  funext u
  by_cases same : u = t
  · subst same
    simp [stage?]
  · simp [stage?, Table.get_set_other _ _ same, Function.update_of_ne same]

/-- Before a run no thread has a stage. -/
theorem stage?_start (state : O.State) (t : Nat) : ({ state } : System O β).stage? t = none := by
  simp [stage?]

/-- What some schedule does: as `Reaches`, with the accesses that were taken, the latest one
first. -/
inductive Run (allowed : Nat → O.Action β → Prop) (s : System O β) :
    System O β → List (Turn O) → Prop where
  | start : Run allowed s s []
  | assign {u : System O β} {trace : List (Turn O)} (t : Nat) (program : O.Action β)
      (before : Run allowed s u trace) (free : (u.threads.get t).isIdle)
      (may : allowed t program) : Run allowed s (u.assign t program).1 trace
  | access {u : System O β} {trace : List (Turn O)} (a : Turn O)
      (next : O.Reply → O.Action β) (before : Run allowed s u trace) (here : u.state = a.before)
      (busy : u.threads.get a.thread = .busy a.stage next) (taken : a.Taken) :
      Run allowed s
        { state := a.after, threads := u.threads.set a.thread (Activity.after next a.progress).1 }
        (a :: trace)
  | elapse {u : System O β} {trace : List (Turn O)} (time : Nat)
      (before : Run allowed s u trace) : Run allowed s (u.elapse time) trace

variable {allowed : Nat → O.Action β → Prop} {s u : System O β}

/-- A step of a system is an access of the thread that moves. -/
theorem step_eq_some {v : System O β} {t : Nat} {chance : Chance} {result : Option β}
    (moves : u.step t chance = some (v, result)) :
    ∃ (a : Turn O) (next : O.Reply → O.Action β),
      a.thread = t ∧ a.chance = chance ∧ u.state = a.before ∧ a.Taken ∧
      u.threads.get t = .busy a.stage next ∧ result = (Activity.after next a.progress).2 ∧
      v = { state := a.after, threads := u.threads.set t (Activity.after next a.progress).1 } := by
  cases doing : u.threads.get t with
  | idle => simp [step, doing] at moves
  | busy stage next =>
    simp only [step, doing] at moves
    cases taken : O.advance t chance u.state stage with
    | none => simp [taken] at moves
    | some after =>
      obtain ⟨state, progress⟩ := after
      refine ⟨⟨t, chance, u.state, stage, state, progress⟩, next, rfl, rfl, rfl, taken, rfl, ?_⟩
      cases progress with
      | ongoing stage => simp_all [Activity.after]
      | finished reply => simp_all [Activity.after]

/-- An access of a thread that is in the middle of a program is a step. -/
theorem step_of_taken {a : Turn O} {next : O.Reply → O.Action β} (here : u.state = a.before)
    (busy : u.threads.get a.thread = .busy a.stage next) (taken : a.Taken) :
    u.step a.thread a.chance =
      some ({ state := a.after
              threads := u.threads.set a.thread (Activity.after next a.progress).1 },
        (Activity.after next a.progress).2) := by
  have moves : O.advance a.thread a.chance u.state a.stage = some (a.after, a.progress) :=
    here ▸ taken
  simp only [step, busy, moves]
  cases a.progress with
  | ongoing stage => rfl
  | finished reply => rfl

/-- A run may be allowed more programs. -/
theorem Run.mono {more : Nat → O.Action β → Prop} {trace : List (Turn O)}
    (run : Run allowed s u trace) (weaker : ∀ t program, allowed t program → more t program) :
    Run more s u trace := by
  induction run with
  | start => exact .start
  | assign t program _ free may ih => exact .assign t program ih free (weaker t program may)
  | access a next _ here busy taken ih => exact .access a next ih here busy taken
  | elapse time _ ih => exact .elapse time ih

/-- Let threads take accesses in a given order; a thread that cannot move is passed over. -/
def follow (u : System O β) (trace : List (Turn O)) :
    List (Nat × Chance) → System O β × List (Turn O)
  | [] => (u, trace)
  | (t, chance) :: rest =>
    match u.threads.get t with
    | .idle => u.follow trace rest
    | .busy stage next =>
      match O.advance t chance u.state stage with
      | none => u.follow trace rest
      | some (state, progress) =>
        let threads := u.threads.set t (Activity.after next progress).1
        let moved : System O β := { state, threads }
        moved.follow (⟨t, chance, u.state, stage, state, progress⟩ :: trace) rest

/-- Following an order of threads continues a run. -/
theorem Run.follow {trace : List (Turn O)} (run : Run allowed s u trace)
    (order : List (Nat × Chance)) :
    Run allowed s (u.follow trace order).1 (u.follow trace order).2 := by
  fun_induction System.follow u trace order with
  | case1 => exact run
  | case2 u trace t chance rest idle ih => exact ih run
  | case3 u trace t chance rest stage next busy blocked ih => exact ih run
  | case4 u trace t chance rest stage next busy state progress taken threads moved ih =>
    exact ih (.access ⟨t, chance, u.state, stage, state, progress⟩ next run rfl busy taken)

/-- Let threads move in a given order and keep their results; a thread that cannot move is passed
over. -/
def steps (u : System O β) (results : List (Nat × β)) :
    List (Nat × Chance) → System O β × List (Nat × β)
  | [] => (u, results)
  | (t, chance) :: rest =>
    match u.step t chance with
    | none => u.steps results rest
    | some (v, result) => v.steps (results ++ tagged t result) rest

/-- Moving in an order of threads continues what has been reached. -/
theorem Reaches.steps {results : List (Nat × β)} (reached : Reaches allowed s u results)
    (order : List (Nat × Chance)) :
    Reaches allowed s (u.steps results order).1 (u.steps results order).2 := by
  fun_induction System.steps u results order with
  | case1 => exact reached
  | case2 u results t chance rest stuck ih => exact ih reached
  | case3 u results t chance rest v result moves ih => exact ih (.step t chance reached moves)

/-- Every state that is reached has a run to it. -/
theorem Reaches.exists_run {results : List (Nat × β)} (reached : Reaches allowed s u results) :
    ∃ trace, Run allowed s u trace := by
  induction reached with
  | start => exact ⟨[], .start⟩
  | assign t program _ free may ih =>
    obtain ⟨trace, run⟩ := ih
    exact ⟨trace, .assign t program run free may⟩
  | step t chance _ moves ih =>
    obtain ⟨trace, run⟩ := ih
    obtain ⟨a, next, rfl, rfl, here, taken, busy, -, rfl⟩ := step_eq_some moves
    exact ⟨a :: trace, .access a next run here busy taken⟩
  | elapse time _ ih =>
    obtain ⟨trace, run⟩ := ih
    exact ⟨trace, .elapse time run⟩

/-- A run reaches its last state. -/
theorem Run.exists_reaches {trace : List (Turn O)} (run : Run allowed s u trace) :
    ∃ results, Reaches allowed s u results := by
  induction run with
  | start => exact ⟨[], .start⟩
  | assign t program _ free may ih =>
    obtain ⟨results, reached⟩ := ih
    exact ⟨_, .assign t program reached free may⟩
  | access a next _ here busy taken ih =>
    obtain ⟨results, reached⟩ := ih
    exact ⟨_, .step a.thread a.chance reached (step_of_taken here busy taken)⟩
  | elapse time _ ih =>
    obtain ⟨results, reached⟩ := ih
    exact ⟨_, .elapse time reached⟩

/-- A thread that has a call in progress was allowed to begin a program. -/
theorem Run.member {M : Nat → Prop} {trace : List (Turn O)} (run : Run allowed s u trace)
    (quiet : ∀ t, s.stage? t = none) (members : ∀ t program, allowed t program → M t) :
    ∀ t, u.stage? t ≠ none → M t := by
  induction run with
  | start => exact fun t busy => absurd (quiet t) busy
  | @assign u trace t program _ free may ih =>
    intro r busy
    by_cases same : r = t
    · exact same ▸ members t program may
    · have stages := stage?_set u u.state t (Activity.ofProgram program).1
      have keeps := congrFun stages r
      rw [Function.update_of_ne same] at keeps
      exact ih r fun idle => busy (keeps.trans idle)
  | @access u trace a next _ here doing taken ih =>
    intro r busy
    by_cases same : r = a.thread
    · subst same
      exact ih a.thread (by simp [stage?_of_busy doing])
    · rw [stage?_set, Function.update_of_ne same] at busy
      exact ih r busy
  | elapse time _ ih => exact ih

/-- Induction over a run through the stages of the threads. Between two calls of one program a
thread has no stage, as it has none between two programs. `M` holds of the threads that may begin a
program. -/
theorem Run.stages_induction {M : Nat → Prop}
    {I : O.State → (Nat → Option O.Stage) → List (Turn O) → Prop} {trace : List (Turn O)}
    (run : Run allowed s u trace) (quiet : ∀ t, s.stage? t = none)
    (members : ∀ t program, allowed t program → M t)
    (start : I s.state (fun _ => none) [])
    (enters : ∀ {state stages trace} t call, I state stages trace → stages t = none → M t →
      I state (Function.update stages t (some (O.enter call))) trace)
    (takes : ∀ {stages trace} (a : Turn O), I a.before stages trace →
      stages a.thread = some a.stage → M a.thread → a.Taken →
      I a.after (Function.update stages a.thread a.progress.stage?) (a :: trace))
    (elapses : ∀ {state stages trace} time, I state stages trace →
      I (O.elapse time state) stages trace) :
    I u.state u.stage? trace := by
  -- a thread that is given an activity by a program goes on from having no stage
  have begins : ∀ {state stages trace} t (program : O.Action β), I state stages trace →
      stages t = none → M t →
      I state (Function.update stages t (Activity.ofProgram program).1.stage?) trace := by
    intro state stages trace t program holds none_t member_t
    rcases Activity.stage?_ofProgram program with ends | ⟨call, enters_call⟩
    · rw [ends, ← none_t, Function.update_eq_self]
      exact holds
    · rw [enters_call]
      exact enters t call holds none_t member_t
  induction run with
  | start =>
    have none_s : s.stage? = fun _ => none := funext quiet
    rw [none_s]
    exact start
  | @assign u trace t program _ free may ih =>
    have none_t : u.stage? t = none := (Activity.isIdle_iff_stage? _).mp free
    have stages : (u.assign t program).1.stage? =
        Function.update u.stage? t (Activity.ofProgram program).1.stage? :=
      stage?_set u u.state t _
    rw [stages]
    exact begins t program ih none_t (members t program may)
  | @access u trace a next before here busy taken ih =>
    have some_t : u.stage? a.thread = some a.stage := stage?_of_busy busy
    have member_t : M a.thread := before.member quiet members a.thread (by simp [some_t])
    have moved := takes a (here ▸ ih) some_t member_t taken
    rw [stage?_set]
    cases ending : a.progress with
    | ongoing stage => simpa [ending, Activity.after, Activity.stage?, Progress.stage?] using moved
    | finished reply =>
      simp only [ending, Progress.stage?] at moved
      have goes_on := begins a.thread (next reply) moved (Function.update_self ..) member_t
      rwa [Function.update_idem] at goes_on
  | elapse time _ ih => exact elapses time ih

end System

end Interlock

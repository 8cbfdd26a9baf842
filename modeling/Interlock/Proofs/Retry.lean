import Interlock.Proofs.Opening
import Mathlib.Algebra.Order.Group.Nat
import Mathlib.Order.Basic

/-!
# Retries are caused by progress

A loop on a shared object reads what is held, and exchanges it if the same is still held; if it is
not, the loop goes around once more. What such loops consist of is collected in `Retries`, and what
makes an exchange fail only because somebody has written in `Retries.Lawful`.

As the next attempt reads after the failure, no write explains two failures of one operation, so the
operation fails at most as often as others write while it is going on (`Charged`). Hence it ends,
unless others never stop writing (`EndsAlone`).
-/

namespace Interlock

variable {O : Shared} {β : Type}

/-- What loops on a shared object consist of. -/
structure Retries (O : Shared) where
  Held : Type
  /-- What exchanges compare. -/
  held : O.State → Held
  /-- What the exchange that a loop is about to make has to find. -/
  expected? : O.Stage → Option Held
  /-- The access reads what an attempt goes on from. -/
  reads : Turn O → Bool
  /-- The access writes. -/
  writes : Turn O → Bool

namespace Retries

variable (R : Retries O)

/-- The access is the exchange of a loop, which does not take place. -/
def fails (a : Turn O) : Bool :=
  (R.expected? a.stage).isSome && !R.writes a

def attemptsBy (t : Nat) (accesses : List (Turn O)) : Nat :=
  accesses.countP fun c => c.thread = t && R.reads c

def failuresBy (t : Nat) (accesses : List (Turn O)) : Nat :=
  accesses.countP fun c => c.thread = t && R.fails c

def writesBesides (t : Nat) (accesses : List (Turn O)) : Nat :=
  accesses.countP fun c => c.thread ≠ t && R.writes c

/-- The access does not retry without a reason: if it is an exchange that fails, another thread has
written since the attempt has read; and up to this access, its operation has failed at most as often
as others have written since the operation began, so it has made one attempt more at most. -/
structure Explained (a : Turn O) (older : List (Turn O)) : Prop where
  caused : R.fails a → ∃ between read before, older = between ++ read :: before ∧
    read.thread = a.thread ∧ R.reads read ∧ read.progress = .ongoing a.stage ∧
    (∀ c ∈ between, c.thread ≠ a.thread) ∧ ∃ c ∈ between, R.writes c
  failures : R.failuresBy a.thread (a.during older) ≤ R.writesBesides a.thread (a.during older)
  attempts : R.attemptsBy a.thread (a.during older) ≤ R.writesBesides a.thread (a.during older) + 1
  accesses : ((a.during older).countP fun c => c.thread = a.thread) ≤
    2 * R.writesBesides a.thread (a.during older) + 2

/-- How many attempts an operation is going to make if it does not fail any more. -/
def due : Option O.Stage → Nat
  | none => 0
  | some stage => if (R.expected? stage).isNone then 1 else 0

/-- What makes retries the work of others. `Steady` accesses do not fail for no reason. -/
structure Lawful (Steady : Turn O → Prop) : Prop where
  elapses : ∀ time state, R.held (O.elapse time state) = R.held state
  enters : ∀ call, R.expected? (O.enter call) = none
  keeps : ∀ {a : Turn O}, a.Taken → R.writes a = false → R.held a.after = R.held a.before
  refused : ∀ {a : Turn O} {h : R.Held}, a.Taken → Steady a → R.writes a = false →
    R.expected? a.stage = some h → h ≠ R.held a.before
  expects : ∀ {a : Turn O} {next : O.Stage} {h : R.Held}, a.Taken → a.progress = .ongoing next →
    R.expected? next = some h → R.reads a ∧ h = R.held a.after
  /-- Every attempt but the first comes after a failure. -/
  counted : ∀ {a : Turn O}, a.Taken →
    (R.reads a).toNat + R.due a.progress.stage? ≤ R.due (some a.stage) + (R.fails a).toNat
  /-- An operation goes on only to begin an attempt or to make up for a failure. -/
  goes_on : ∀ {a : Turn O}, a.Taken → a.ends = false → R.reads a ∨ R.fails a

/-! ## Counting -/

/-- What is known of a thread that is in the middle of an operation, about the accesses since its
first one. -/
structure Charged (t : Nat) (state : O.State) (stage : O.Stage) (accesses : List (Turn O)) :
    Prop where
  begun : accesses = [] → R.expected? stage = none
  attempts : R.attemptsBy t accesses + R.due (some stage) ≤ R.failuresBy t accesses + 1
  failures : R.failuresBy t accesses ≤ R.writesBesides t accesses
  /-- An exchange that is going to fail has a write of its own. -/
  expects : ∀ h, R.expected? stage = some h →
    h = R.held state ∨ R.failuresBy t accesses < R.writesBesides t accesses
  own : (accesses.countP fun c => c.thread = t) ≤ R.attemptsBy t accesses + R.failuresBy t accesses

variable {R} {a c : Turn O} {t : Nat} {state : O.State} {stage next : O.Stage}
  {accesses : List (Turn O)}

theorem attemptsBy_cons_self (a : Turn O) (accesses : List (Turn O)) :
    R.attemptsBy a.thread (a :: accesses) =
      R.attemptsBy a.thread accesses + (R.reads a).toNat := by
  cases reads : R.reads a <;> simp [attemptsBy, reads]

theorem failuresBy_cons_self (a : Turn O) (accesses : List (Turn O)) :
    R.failuresBy a.thread (a :: accesses) =
      R.failuresBy a.thread accesses + (R.fails a).toNat := by
  cases fails : R.fails a <;> simp [failuresBy, fails]

theorem writesBesides_cons_self (a : Turn O) (accesses : List (Turn O)) :
    R.writesBesides a.thread (a :: accesses) = R.writesBesides a.thread accesses := by
  simp [writesBesides]

theorem attemptsBy_cons_of_ne (other : c.thread ≠ t) :
    R.attemptsBy t (c :: accesses) = R.attemptsBy t accesses := by
  simp [attemptsBy, other]

theorem failuresBy_cons_of_ne (other : c.thread ≠ t) :
    R.failuresBy t (c :: accesses) = R.failuresBy t accesses := by
  simp [failuresBy, other]

theorem writesBesides_cons_of_ne (other : c.thread ≠ t) :
    R.writesBesides t (c :: accesses) = R.writesBesides t accesses + (R.writes c).toNat := by
  cases writes : R.writes c <;> simp [writesBesides, other, writes]

namespace Charged

variable {Steady : Turn O → Prop}

theorem start (lawful : R.Lawful Steady) (call : O.Call) : R.Charged t state (O.enter call) [] where
  begun _ := lawful.enters call
  attempts := by simp [attemptsBy, failuresBy, due, lawful.enters call]
  failures := Nat.le_refl _
  expects h expected := by
    rw [lawful.enters call] at expected
    cases expected
  own := Nat.le_refl _

/-- A further failure has a write of its own. -/
theorem failures_cons (charged : R.Charged a.thread a.before a.stage accesses)
    (lawful : R.Lawful Steady) (taken : a.Taken) (steady : Steady a) :
    R.failuresBy a.thread (a :: accesses) ≤ R.writesBesides a.thread (a :: accesses) := by
  rw [failuresBy_cons_self, writesBesides_cons_self]
  cases failing : R.fails a with
  | false => exact charged.failures
  | true =>
    obtain ⟨some_h, silent⟩ := Bool.and_eq_true_iff.mp failing
    obtain ⟨h, expected⟩ := Option.isSome_iff_exists.mp some_h
    have differs : h ≠ R.held a.before :=
      lawful.refused taken steady (Bool.not_eq_true' _ ▸ silent) expected
    rcases charged.expects h expected with same | spare
    · exact absurd same differs
    · exact spare

/-- One more attempt is begun, or one more failure made up for. -/
theorem attempts_cons (charged : R.Charged a.thread a.before a.stage accesses)
    (lawful : R.Lawful Steady) (taken : a.Taken) :
    R.attemptsBy a.thread (a :: accesses) + R.due a.progress.stage? ≤
      R.failuresBy a.thread (a :: accesses) + 1 := by
  rw [attemptsBy_cons_self, failuresBy_cons_self]
  have counted := lawful.counted taken
  have attempts := charged.attempts
  omega

/-- The operation does not go on without failing. -/
theorem own_le (charged : R.Charged t state stage accesses) :
    (accesses.countP fun c => c.thread = t) ≤ 2 * R.writesBesides t accesses + 1 := by
  have own := charged.own
  have attempts := charged.attempts
  have failures := charged.failures
  omega

/-- An access of the operation that does not end it. -/
theorem advance (charged : R.Charged a.thread a.before a.stage accesses)
    (lawful : R.Lawful Steady) (taken : a.Taken) (steady : Steady a)
    (goes_on : a.progress = .ongoing next) :
    R.Charged a.thread a.after next (a :: accesses) where
  begun none := by cases none
  attempts := by
    have counted := charged.attempts_cons lawful taken
    rwa [goes_on] at counted
  failures := charged.failures_cons lawful taken steady
  expects h expected := Or.inl (lawful.expects taken goes_on expected).2
  own := by
    have ongoing : a.ends = false := by simp [Turn.ends, goes_on, Progress.stage?]
    have own := charged.own
    rw [attemptsBy_cons_self, failuresBy_cons_self]
    rcases lawful.goes_on taken ongoing with reads | fails
    · simp only [List.countP_cons, reads, Bool.toNat_true, decide_true, if_true]
      omega
    · simp only [List.countP_cons, fails, Bool.toNat_true, decide_true, if_true]
      omega

/-- An access of another thread while the operation is going on. -/
theorem besides (charged : R.Charged t c.before stage accesses) (lawful : R.Lawful Steady)
    (taken : c.Taken) (other : c.thread ≠ t) :
    R.Charged t c.after stage (c :: accesses) where
  begun none := by cases none
  attempts := by
    rw [attemptsBy_cons_of_ne other, failuresBy_cons_of_ne other]
    exact charged.attempts
  failures := by
    rw [failuresBy_cons_of_ne other, writesBesides_cons_of_ne other]
    exact Nat.le_add_right_of_le charged.failures
  expects h expected := by
    rw [failuresBy_cons_of_ne other, writesBesides_cons_of_ne other]
    have failures := charged.failures
    cases writes : R.writes c with
    | true => exact Or.inr (Nat.lt_succ_of_le failures)
    | false =>
      rw [lawful.keeps taken writes]
      exact charged.expects h expected
  own := by
    rw [attemptsBy_cons_of_ne other, failuresBy_cons_of_ne other]
    simpa [List.countP_cons, other] using charged.own

/-- What changes before the first access of an operation does not matter to it. -/
theorem of_nil {state' : O.State} (charged : R.Charged t state stage []) :
    R.Charged t state' stage [] where
  begun := charged.begun
  attempts := charged.attempts
  failures := charged.failures
  expects h expected := by
    rw [charged.begun rfl] at expected
    cases expected
  own := charged.own

theorem elapse (charged : R.Charged t state stage accesses) (lawful : R.Lawful Steady)
    (time : Nat) : R.Charged t (O.elapse time state) stage accesses :=
  { charged with
    expects := fun h expected => by
      rw [lawful.elapses]
      exact charged.expects h expected }

end Charged

section Runs

variable {allowed : Nat → O.Action β → Prop} {s u : System O β} {trace older : List (Turn O)}
  {Steady : Turn O → Prop}

/-- In the middle of a run, the failures of every operation are charged to writes of others. -/
theorem charged_of_run (lawful : R.Lawful Steady) (quiet : ∀ t, s.stage? t = none)
    (run : System.Run allowed s u trace) (t : Nat) : (∀ c ∈ trace, Steady c) →
    (u.stage? t = none → during t trace = []) ∧
      ∀ stage, u.stage? t = some stage → R.Charged t u.state stage (during t trace) := by
  refine run.stages_induction (M := fun _ => True)
    (I := fun state stages trace => (∀ c ∈ trace, Steady c) →
      (stages t = none → during t trace = []) ∧
        ∀ stage, stages t = some stage → R.Charged t state stage (during t trace))
    quiet (fun _ _ _ => trivial) ?start ?enters ?takes ?elapses
  case start =>
    intro _
    refine ⟨fun _ => rfl, ?_⟩
    intro stage busy
    cases busy
  case enters =>
    intro state stages trace r call ih none_r _ steady
    by_cases same : t = r
    · subst same
      rw [Function.update_self]
      refine ⟨fun idle => absurd idle (Option.some_ne_none _), ?_⟩
      intro stage entered
      cases entered
      rw [(ih steady).1 none_r]
      exact .start lawful call
    · rw [Function.update_of_ne same]
      exact ih steady
  case takes =>
    intro stages trace a ih some_t _ taken steady
    obtain ⟨rests, charged⟩ := ih fun c member => steady c (List.mem_cons_of_mem a member)
    by_cases same : t = a.thread
    · subst same
      rw [Function.update_self]
      cases ending : a.progress with
      | finished reply =>
        have ends : a.ends := by simp [Turn.ends, ending, Progress.stage?]
        refine ⟨fun _ => during_of_ends ends, ?_⟩
        intro stage left
        cases left
      | ongoing next =>
        have goes_on : a.ends = false := by simp [Turn.ends, ending, Progress.stage?]
        refine ⟨fun idle => absurd idle (Option.some_ne_none _), ?_⟩
        intro stage left
        cases left
        rw [during_of_not_ends goes_on]
        have kept := steady a (List.mem_cons_self ..)
        exact (charged a.stage some_t).advance lawful taken kept ending
    · rw [Function.update_of_ne same]
      have other : a.thread ≠ t := Ne.symm same
      refine ⟨fun idle => during_cons_of_nil other (rests idle), ?_⟩
      intro stage busy
      have before := charged stage busy
      by_cases begun : during t trace = []
      · rw [during_cons_of_nil other begun]
        rw [begun] at before
        exact before.of_nil
      · rw [during_cons_of_ne other begun]
        exact before.besides lawful taken other
  case elapses =>
    intro state stages trace time ih steady
    refine ⟨(ih steady).1, ?_⟩
    intro stage busy
    exact ((ih steady).2 stage busy).elapse lawful time

/-- What is compared does not change after an access before somebody writes. -/
theorem held_of_silent (lawful : R.Lawful Steady) {between before : List (Turn O)} {read : Turn O}
    (run : System.Run allowed s u (between ++ read :: before))
    (silent : ∀ c ∈ between, R.writes c = false) : R.held u.state = R.held read.after := by
  generalize accesses : between ++ read :: before = trace at run
  refine run.accesses_induction
    (I := fun state trace => ∀ between, between ++ read :: before = trace →
      (∀ c ∈ between, R.writes c = false) → R.held state = R.held read.after)
    ?start ?takes ?elapses between accesses silent
  case start =>
    intro between accesses
    cases between <;> cases accesses
  case takes =>
    intro v older a _ _ _ taken ih between accesses silent
    cases between with
    | nil =>
      cases accesses
      rfl
    | cons c between =>
      cases accesses
      rw [lawful.keeps taken (silent a (List.mem_cons_self ..))]
      exact ih between rfl fun c member => silent c (List.mem_cons_of_mem a member)
  case elapses =>
    intro state trace time ih between accesses silent
    rw [lawful.elapses]
    exact ih between accesses silent

/-- Somebody has written between the read of an attempt and its failure. -/
theorem caused_of_run (lawful : R.Lawful Steady) (quiet : ∀ t, s.stage? t = none)
    (run : System.Run allowed s u (a :: older)) (steady : Steady a) (fails : R.fails a) :
    ∃ between read before, older = between ++ read :: before ∧ read.thread = a.thread ∧
      R.reads read ∧ read.progress = .ongoing a.stage ∧
      (∀ c ∈ between, c.thread ≠ a.thread) ∧ ∃ c ∈ between, R.writes c := by
  obtain ⟨some_h, silent⟩ := Bool.and_eq_true_iff.mp fails
  obtain ⟨h, expected⟩ := Option.isSome_iff_exists.mp some_h
  obtain ⟨v, run, here, busy, taken⟩ := run.at_access
  have later : ∀ call, a.stage ≠ O.enter call := by
    intro call entered
    rw [entered, lawful.enters] at expected
    cases expected
  obtain ⟨between, read, before, rfl, mine, others, ongoing⟩ :=
    exists_of_pending (run.pending_of_stage? quiet busy later)
  obtain ⟨w, first, -⟩ := run.split
  obtain ⟨_, -, -, -, read_taken⟩ := first.at_access
  obtain ⟨reads, found⟩ := lawful.expects read_taken ongoing expected
  refine ⟨between, read, before, rfl, mine, reads, ongoing, others, ?_⟩
  by_contra none_writes
  have silent_between : ∀ c ∈ between, R.writes c = false := by
    intro c member
    by_contra writes
    exact none_writes ⟨c, member, by simpa using writes⟩
  have kept : R.held a.before = R.held read.after := here ▸ held_of_silent lawful run silent_between
  exact lawful.refused taken steady (Bool.not_eq_true' _ ▸ silent) expected (found.trans kept.symm)

/-- Every access of a run is explained. -/
theorem explained_of_run (lawful : R.Lawful Steady) (quiet : ∀ t, s.stage? t = none)
    (run : System.Run allowed s u (a :: older)) (steady : ∀ c ∈ a :: older, Steady c) :
    R.Explained a older := by
  have steady_a : Steady a := steady a (List.mem_cons_self ..)
  obtain ⟨v, before, here, busy, taken⟩ := run.at_access
  have charged : R.Charged a.thread a.before a.stage (during a.thread older) := here ▸
    (charged_of_run lawful quiet before a.thread fun c member =>
      steady c (List.mem_cons_of_mem a member)).2 a.stage busy
  have failures := charged.failures_cons lawful taken steady_a
  have attempts := charged.attempts_cons lawful taken
  refine ⟨caused_of_run lawful quiet run steady_a, failures, ?_, ?_⟩
  · exact (Nat.le_of_add_right_le attempts).trans (Nat.succ_le_succ failures)
  · rw [Turn.during, writesBesides_cons_self]
    simp only [List.countP_cons, decide_true, if_true]
    exact Nat.succ_le_succ charged.own_le

end Runs

/-! ## Endless runs -/

/-- The first accesses of an endless sequence, the latest one first. -/
def firstAccesses (turn : Nat → Turn O) : Nat → List (Turn O)
  | 0 => []
  | k + 1 => turn k :: firstAccesses turn k

/-- The accesses are those of a run that never ends. -/
def Endless (allowed : Nat → O.Action β → Prop) (s : System O β) (turn : Nat → Turn O) : Prop :=
  ∀ k, ∃ u, System.Run allowed s u (firstAccesses turn k)

section Endless

variable {allowed : Nat → O.Action β → Prop} {s : System O β} {turn : Nat → Turn O}
  {Steady : Turn O → Prop}

theorem length_firstAccesses (turn : Nat → Turn O) (k : Nat) :
    (firstAccesses turn k).length = k := by
  induction k with
  | zero => rfl
  | succ k ih => simp [firstAccesses, ih]

theorem exists_of_mem_firstAccesses {k : Nat} (member : c ∈ firstAccesses turn k) :
    ∃ j, turn j = c := by
  induction k with
  | zero => cases member
  | succ k ih =>
    rcases List.mem_cons.mp member with rfl | member
    · exact ⟨k, rfl⟩
    · exact ih member

/-- If others stop writing, there is a bound on what they have written. -/
theorem writesBesides_le {k : Nat}
    (stops : ∀ j ≥ k, (turn j).thread ≠ t → R.writes (turn j) = false) (j : Nat) :
    R.writesBesides t (firstAccesses turn j) ≤ k := by
  rcases Nat.le_total j k with early | late
  · have most : R.writesBesides t (firstAccesses turn j) ≤ (firstAccesses turn j).length :=
      List.countP_le_length
    rw [length_firstAccesses] at most
    exact most.trans early
  · induction j, late using Nat.le_induction with
    | base =>
      have most : R.writesBesides t (firstAccesses turn k) ≤ (firstAccesses turn k).length :=
        List.countP_le_length
      rwa [length_firstAccesses] at most
    | succ j late ih =>
      have silent : ((turn j).thread ≠ t && R.writes (turn j)) = false := by
        by_cases mine : (turn j).thread = t
        · simp [mine]
        · simp [stops j late mine]
      rw [firstAccesses, writesBesides, List.countP_cons, silent]
      exact ih

/-- In a call that does not end, an access is one more of its own or leaves them as many. -/
theorem own_during_cons (never : c.thread = t → c.ends = false) (older : List (Turn O)) :
    ((during t (c :: older)).countP fun c => c.thread = t) =
      ((during t older).countP fun c => c.thread = t) + if c.thread = t then 1 else 0 := by
  by_cases mine : c.thread = t
  · subst mine
    rw [during_of_not_ends (never rfl)]
    simp [Turn.during]
  · by_cases begun : during t older = []
    · simp [during_cons_of_nil mine begun, begun, mine]
    · simp [during_cons_of_ne mine begun, mine]

/-- If the others write finitely often only, a thread that keeps moving ends every call that it is
in. -/
def EndsAlone (R : Retries O) (turn : Nat → Turn O) (t : Nat) : Prop :=
  (∃ k, ∀ j ≥ k, (turn j).thread ≠ t → R.writes (turn j) = false) →
    (∀ k, ∃ j ≥ k, (turn j).thread = t) → ∀ k, ∃ j ≥ k, (turn j).thread = t ∧ (turn j).ends

/-- A thread that never ends its call takes ever more accesses in it. -/
theorem many_accesses {k : Nat} (moves : ∀ k, ∃ j ≥ k, (turn j).thread = t)
    (never : ∀ j ≥ k, (turn j).thread = t → (turn j).ends = false) (n : Nat) :
    ∃ j ≥ k, n ≤ (during t (firstAccesses turn j)).countP fun c => c.thread = t := by
  induction n with
  | zero => exact ⟨k, Nat.le_refl k, Nat.zero_le _⟩
  | succ n ih =>
    obtain ⟨j, late, many⟩ := ih
    obtain ⟨i, later, mine⟩ := moves j
    have still_many : n ≤ (during t (firstAccesses turn i)).countP fun c => c.thread = t := by
      clear mine
      induction i, later using Nat.le_induction with
      | base => exact many
      | succ i later ih =>
        rw [firstAccesses, own_during_cons (never i (late.trans later))]
        exact Nat.le_add_right_of_le ih
    refine ⟨i + 1, late.trans (Nat.le_succ_of_le later), ?_⟩
    rw [firstAccesses, own_during_cons (never i (late.trans later)), if_pos mine]
    exact Nat.succ_le_succ still_many

theorem endsAlone_of_endless (lawful : R.Lawful Steady) (quiet : ∀ t, s.stage? t = none)
    (endless : Endless allowed s turn) (steady : ∀ j, Steady (turn j)) (t : Nat) :
    R.EndsAlone turn t := by
  intro stops moves k
  by_contra none_ends
  have never : ∀ j ≥ k, (turn j).thread = t → (turn j).ends = false := by
    intro j late mine
    by_contra ends
    exact none_ends ⟨j, late, mine, by simpa using ends⟩
  obtain ⟨w, stops⟩ := stops
  obtain ⟨j, -, many⟩ := many_accesses moves never (2 * w + 2)
  obtain ⟨u, run⟩ := endless j
  obtain ⟨rests, charged⟩ := charged_of_run lawful quiet run t fun c member => by
    obtain ⟨i, rfl⟩ := exists_of_mem_firstAccesses member
    exact steady i
  cases here : u.stage? t with
  | none =>
    rw [rests here] at many
    cases many
  | some stage =>
    have own := (charged stage here).own_le
    have written : R.writesBesides t (during t (firstAccesses turn j)) ≤ w :=
      ((during_sublist t _).countP_le).trans (writesBesides_le stops j)
    omega

end Endless

/-- A thread that begins one call after the other, each of which takes two accesses. -/
def rounds (t : Nat) (state : Nat → O.State) (first : O.Stage) (second : Nat → O.Stage)
    (reply : Nat → O.Reply) (j : Nat) : Turn O :=
  if j % 2 = 0 then
    ⟨t, {}, state (j / 2), first, state (j / 2), .ongoing (second (j / 2))⟩
  else ⟨t, {}, state (j / 2), second (j / 2), state (j / 2 + 1), .finished (reply (j / 2))⟩

section Rounds

variable {t : Nat} {state : Nat → O.State} {first : O.Stage} {second : Nat → O.Stage}
  {reply : Nat → O.Reply}

theorem rounds_even (k : Nat) : rounds t state first second reply (2 * k) =
    ⟨t, {}, state k, first, state k, .ongoing (second k)⟩ := by
  simp [rounds]

theorem rounds_odd (k : Nat) : rounds t state first second reply (2 * k + 1) =
    ⟨t, {}, state k, second k, state (k + 1), .finished (reply k)⟩ := by
  have half : (2 * k + 1) / 2 = k := by omega
  simp [rounds, half]

theorem thread_rounds (j : Nat) : (rounds t state first second reply j).thread = t := by
  unfold rounds
  split <;> rfl

/-- Rounds of calls that the object grants go on without end. -/
theorem endless_rounds (call : O.Call) (begins : O.enter call = first)
    (reads : ∀ k, O.advance t {} (state k) first = some (state k, .ongoing (second k)))
    (ends : ∀ k, O.advance t {} (state k) (second k) = some (state (k + 1), .finished (reply k))) :
    Endless (fun _ _ => True) ({ state := state 0 } : System O O.Reply)
      (rounds t state first second reply) := by
  -- a further read after whole rounds
  have read : ∀ {k : Nat} {u : System O O.Reply}, u.state = state k → (u.threads.get t).isIdle →
      System.Run (fun _ _ => True) { state := state 0 } u
        (firstAccesses (rounds t state first second reply) (2 * k)) →
      System.Run (fun _ _ => True) { state := state 0 }
        { state := state k
          threads := (u.assign t (.call call .done)).1.threads.set t (.busy (second k) .done) }
        (firstAccesses (rounds t state first second reply) (2 * k + 1)) := by
    intro k u here free run
    have begun := System.Run.assign t (.call call .done) run free trivial
    have busy : (u.assign t (.call call .done)).1.threads.get t = .busy first .done := by
      simp [System.assign, Activity.ofProgram, begins]
    rw [firstAccesses, rounds_even]
    exact .access ⟨t, {}, state k, first, state k, .ongoing (second k)⟩ .done begun here busy
      (reads k)
  have whole : ∀ k, ∃ u : System O O.Reply, u.state = state k ∧ (u.threads.get t).isIdle ∧
      System.Run (fun _ _ => True) { state := state 0 } u
        (firstAccesses (rounds t state first second reply) (2 * k)) := by
    intro k
    induction k with
    | zero => exact ⟨{ state := state 0 }, rfl, by simp [Activity.isIdle, default], .start⟩
    | succ k ih =>
      obtain ⟨u, here, free, run⟩ := ih
      have ended := System.Run.access ⟨t, {}, state k, second k, state (k + 1), .finished (reply k)⟩
        .done (read here free run) rfl (Table.get_set_same ..) (ends k)
      rw [← rounds_odd k] at ended
      refine ⟨_, ?_, ?_, ended⟩
      · simp [rounds_odd]
      · simp [rounds_odd, Activity.after, Activity.ofProgram, Activity.isIdle]
  intro k
  obtain ⟨i, rfl | rfl⟩ : ∃ i, k = 2 * i ∨ k = 2 * i + 1 := ⟨k / 2, by omega⟩
  · obtain ⟨u, -, -, run⟩ := whole i
    exact ⟨u, run⟩
  · obtain ⟨u, here, free, run⟩ := whole i
    exact ⟨_, read here free run⟩

end Rounds

end Retries

end Interlock

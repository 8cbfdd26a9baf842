import Interlock.Proofs.Run

/-!
# How the calls of a run began

A trace shows the accesses of all threads, but not the calls that they belong to. `pending` is the
stage at which the last access of a thread has left its call, `opening` the first access of this
call, with the accesses before it, and `during` the accesses of all threads from this one on. A run
can be cut at any access (`Run.split`, `Run.at_access`), so what holds at the end of all runs holds
at every access of a trace.
-/

namespace Interlock

variable {O : Shared} {β : Type}

/-- The stage at which the last access of a thread has left a call that goes on. -/
def pending (t : Nat) : List (Turn O) → Option O.Stage
  | [] => none
  | a :: older => if a.thread = t then a.progress.stage? else pending t older

/-- The first access of the call that a thread is in the middle of, and the accesses before it. -/
def opening (t : Nat) : List (Turn O) → Option (Turn O × List (Turn O))
  | [] => none
  | a :: older =>
    if a.thread = t then if a.ends then none else some ((opening t older).getD (a, older))
    else opening t older

/-- The first access of the call that an access belongs to, and the accesses before it. -/
def Turn.opening (a : Turn O) (older : List (Turn O)) : Turn O × List (Turn O) :=
  (Interlock.opening a.thread older).getD (a, older)

/-- The accesses of all threads since a thread has begun the call that it is in the middle of. -/
def during (t : Nat) : List (Turn O) → List (Turn O)
  | [] => []
  | a :: older =>
    if a.thread = t then if a.ends then [] else a :: during t older
    else if (during t older).isEmpty then [] else a :: during t older

/-- The accesses of all threads from the beginning of the call that an access belongs to, up to
this access. -/
def Turn.during (a : Turn O) (older : List (Turn O)) : List (Turn O) :=
  a :: Interlock.during a.thread older

/-- The accesses of a thread in the call that it is in the middle of. -/
def called (t : Nat) (trace : List (Turn O)) : List (Turn O) :=
  (during t trace).filter (·.thread = t)

section Trace

variable {t : Nat} {a b : Turn O} {trace older before : List (Turn O)}

theorem pending_cons_self : pending a.thread (a :: older) = a.progress.stage? := by
  simp [pending]

theorem pending_cons_of_ne (other : a.thread ≠ t) : pending t (a :: older) = pending t older := by
  simp [pending, other]

theorem pending_of_ends (ends : a.ends) : pending a.thread (a :: older) = none := by
  rw [pending_cons_self]
  exact Option.isNone_iff_eq_none.mp ends

theorem opening_cons_of_ne (other : a.thread ≠ t) : opening t (a :: older) = opening t older := by
  simp [opening, other]

theorem opening_of_ends (ends : a.ends) : opening a.thread (a :: older) = none := by
  simp [opening, ends]

theorem opening_of_not_ends (goes_on : a.ends = false) :
    opening a.thread (a :: older) = some (a.opening older) := by
  simp [opening, goes_on, Turn.opening]

/-- The access that has left a call where it is. -/
theorem exists_of_pending {stage : O.Stage} (left : pending t trace = some stage) :
    ∃ newer a older, trace = newer ++ a :: older ∧ a.thread = t ∧
      (∀ b ∈ newer, b.thread ≠ t) ∧ a.progress = .ongoing stage := by
  induction trace with
  | nil => cases left
  | cons a older ih =>
    by_cases same : a.thread = t
    · subst same
      rw [pending_cons_self] at left
      refine ⟨[], a, older, rfl, rfl, nofun, ?_⟩
      cases ending : a.progress with
      | ongoing next =>
        rw [ending] at left
        rw [Option.some.inj left]
      | finished reply =>
        rw [ending] at left
        cases left
    · rw [pending_cons_of_ne same] at left
      obtain ⟨newer, b, before, rfl, mine, others, ongoing⟩ := ih left
      refine ⟨a :: newer, b, before, rfl, mine, ?_, ongoing⟩
      intro c member
      rcases List.mem_cons.mp member with rfl | member
      · exact same
      · exact others c member

/-- An access is the first one of its call, or the call has begun before. -/
theorem Turn.opening_cases (a : Turn O) (older : List (Turn O)) :
    a.opening older = (a, older) ∨ Interlock.opening a.thread older = some (a.opening older) := by
  cases earlier : Interlock.opening a.thread older with
  | none => exact Or.inl (by simp [opening, earlier])
  | some first => exact Or.inr (by simp [opening, earlier])

/-- A call has begun with an access of its thread. -/
theorem exists_of_opening (began : opening t trace = some (b, before)) :
    b.thread = t ∧ ∃ newer, trace = newer ++ b :: before := by
  induction trace with
  | nil => cases began
  | cons a older ih =>
    by_cases same : a.thread = t
    · subst same
      cases ending : a.ends with
      | true =>
        rw [opening_of_ends ending] at began
        cases began
      | false =>
        rw [opening_of_not_ends ending] at began
        rcases a.opening_cases older with first | earlier
        · rw [first] at began
          cases began
          exact ⟨rfl, [], rfl⟩
        · obtain ⟨mine, newer, rfl⟩ := ih (earlier.trans began)
          exact ⟨mine, a :: newer, rfl⟩
    · rw [opening_cons_of_ne same] at began
      obtain ⟨mine, newer, rfl⟩ := ih began
      exact ⟨mine, a :: newer, rfl⟩

theorem Turn.exists_of_opening (began : a.opening older = (b, before)) :
    b.thread = a.thread ∧ ∃ newer, a :: older = newer ++ b :: before := by
  rcases a.opening_cases older with first | earlier
  · rw [first] at began
    cases began
    exact ⟨rfl, [], rfl⟩
  · obtain ⟨mine, newer, rfl⟩ := Interlock.exists_of_opening (earlier.trans (congrArg some began))
    exact ⟨mine, a :: newer, rfl⟩

theorem during_of_ends (ends : a.ends) : during a.thread (a :: older) = [] := by
  simp [during, ends]

theorem during_of_not_ends (goes_on : a.ends = false) :
    during a.thread (a :: older) = a.during older := by
  simp [during, goes_on, Turn.during]

theorem during_cons_of_ne (other : a.thread ≠ t) (begun : during t older ≠ []) :
    during t (a :: older) = a :: during t older := by
  simp [during, other, begun]

theorem during_cons_of_nil (other : a.thread ≠ t) (rests : during t older = []) :
    during t (a :: older) = [] := by
  simp [during, other, rests]

/-- The accesses since the beginning of a call are the latest ones, down to the one that has begun
it. -/
theorem during_append (t : Nat) (trace : List (Turn O)) :
    (opening t trace).elim (during t trace = []) fun first =>
      trace = during t trace ++ first.2 ∧ during t trace ≠ [] := by
  induction trace with
  | nil => rfl
  | cons a older ih =>
    by_cases same : a.thread = t
    · subst same
      cases ending : a.ends with
      | true => simp [opening_of_ends ending, during_of_ends ending]
      | false =>
        rw [opening_of_not_ends ending, during_of_not_ends ending]
        cases earlier : opening a.thread older with
        | none =>
          rw [earlier] at ih
          simp_all [Turn.opening, Turn.during]
        | some first =>
          rw [earlier] at ih
          obtain ⟨whole, -⟩ := ih
          refine ⟨?_, List.cons_ne_nil _ _⟩
          simp only [Turn.opening, earlier, Turn.during, Option.getD_some, List.cons_append]
          rw [← whole]
    · rw [opening_cons_of_ne same]
      cases earlier : opening t older with
      | none =>
        rw [earlier] at ih
        exact during_cons_of_nil same ih
      | some first =>
        rw [earlier] at ih
        obtain ⟨whole, begun⟩ := ih
        refine ⟨?_, ?_⟩
        · rw [during_cons_of_ne same begun, List.cons_append, ← whole]
        · rw [during_cons_of_ne same begun]
          exact List.cons_ne_nil _ _

theorem called_of_not_ends (goes_on : a.ends = false) :
    called a.thread (a :: older) = a :: called a.thread older := by
  rw [called, during_of_not_ends goes_on, Turn.during, List.filter_cons_of_pos (by simp), called]

theorem called_cons_of_ne (other : a.thread ≠ t) : called t (a :: older) = called t older := by
  by_cases rests : during t older = []
  · rw [called, called, during_cons_of_nil other rests, rests]
  · rw [called, during_cons_of_ne other rests, List.filter_cons_of_neg (by simpa using other),
      called]

/-- A thread is in the middle of the call that it has begun. -/
theorem isSome_opening (t : Nat) (trace : List (Turn O)) :
    (opening t trace).isSome = (pending t trace).isSome := by
  induction trace with
  | nil => rfl
  | cons a older ih =>
    by_cases same : a.thread = t
    · subst same
      rw [pending_cons_self]
      cases left : a.progress.stage? with
      | none =>
        rw [opening_of_ends (by rw [Turn.ends, left]; rfl)]
        rfl
      | some stage =>
        rw [opening_of_not_ends (by rw [Turn.ends, left]; rfl)]
        rfl
    · rw [opening_cons_of_ne same, pending_cons_of_ne same]
      exact ih

theorem called_of_opening (rests : opening t trace = none) : called t trace = [] := by
  have whole := during_append t trace
  rw [rests] at whole
  have empty : during t trace = [] := whole
  rw [called, empty, List.filter_nil]

/-- The accesses since the beginning of a call are accesses of the trace. -/
theorem during_sublist (t : Nat) (trace : List (Turn O)) : (during t trace).Sublist trace := by
  have whole := during_append t trace
  cases earlier : opening t trace with
  | none =>
    rw [earlier] at whole
    exact whole ▸ List.nil_sublist trace
  | some first =>
    rw [earlier] at whole
    exact List.IsPrefix.sublist ⟨first.2, whole.1.symm⟩

end Trace

namespace System

variable {allowed : Nat → O.Action β → Prop} {s u : System O β} {t : Nat} {a : Turn O}
  {trace newer older : List (Turn O)}

/-- A run passes through a state for each of the accesses before. -/
theorem Run.split (run : Run allowed s u (newer ++ older)) :
    ∃ v, Run allowed s v older ∧ Run allowed v u newer := by
  generalize accesses : newer ++ older = trace at run
  induction run generalizing newer with
  | start =>
    obtain ⟨rfl, rfl⟩ := List.append_eq_nil_iff.mp accesses
    exact ⟨s, .start, .start⟩
  | assign t program _ free may ih =>
    obtain ⟨v, first, second⟩ := ih accesses
    exact ⟨v, first, .assign t program second free may⟩
  | elapse time _ ih =>
    obtain ⟨v, first, second⟩ := ih accesses
    exact ⟨v, first, .elapse time second⟩
  | @access u trace a next before here busy taken ih =>
    cases newer with
    | nil =>
      obtain rfl : older = a :: trace := accesses
      exact ⟨_, .access a next before here busy taken, .start⟩
    | cons b newer =>
      obtain ⟨rfl, rest⟩ := List.cons.inj accesses
      obtain ⟨v, first, second⟩ := ih rest
      exact ⟨v, first, .access b next second here busy taken⟩

/-- The state in which the last access of a run was taken. -/
theorem Run.at_access (run : Run allowed s u (a :: older)) :
    ∃ v, Run allowed s v older ∧ v.state = a.before ∧ v.stage? a.thread = some a.stage ∧
      a.Taken := by
  generalize accesses : a :: older = trace at run
  induction run with
  | start => cases accesses
  | assign t program _ free may ih => exact ih accesses
  | elapse time _ ih => exact ih accesses
  | @access u trace b next before here busy taken ih =>
    obtain ⟨rfl, rfl⟩ := List.cons.inj accesses
    exact ⟨u, before, here, stage?_of_busy busy, taken⟩

/-- Every access of a run was granted. -/
theorem Run.taken_of_mem (run : Run allowed s u trace) (member : a ∈ trace) : a.Taken := by
  induction run with
  | start => cases member
  | assign t program _ free may ih => exact ih member
  | elapse time _ ih => exact ih member
  | access b next before here busy taken ih =>
    rcases List.mem_cons.mp member with rfl | earlier
    · exact taken
    · exact ih earlier

/-- The state that the last access of a run has left. -/
theorem Run.after_access (run : Run allowed s u (a :: older)) :
    ∃ v, Run allowed s v (a :: older) ∧ v.state = a.after := by
  generalize accesses : a :: older = trace at run
  induction run with
  | start => cases accesses
  | assign t program _ free may ih => exact ih accesses
  | elapse time _ ih => exact ih accesses
  | @access u trace b next before here busy taken ih =>
    obtain ⟨rfl, rfl⟩ := List.cons.inj accesses
    exact ⟨_, .access a next before here busy taken, rfl⟩

/-- The thread has no call in progress, or a call that has not taken an access. -/
def Rests (stage? : Option O.Stage) : Prop :=
  stage? = none ∨ ∃ call, stage? = some (O.enter call)

/-- A thread is where its last access has left it, and in no call or before its first access if
this access has ended a call. -/
theorem Run.stage?_eq (run : Run allowed s u trace) (quiet : ∀ t, s.stage? t = none) (t : Nat) :
    (∀ stage, pending t trace = some stage → u.stage? t = some stage) ∧
      (pending t trace = none → Rests (u.stage? t)) := by
  refine run.stages_induction (M := fun _ => True)
    (I := fun _ stages (trace : List (Turn O)) =>
      (∀ stage, pending t trace = some stage → stages t = some stage) ∧
        (pending t trace = none → Rests (stages t)))
    quiet (fun _ _ _ => trivial) ?start ?enters ?takes ?elapses
  case start => exact ⟨nofun, fun _ => Or.inl rfl⟩
  case enters =>
    intro state stages trace r call ih none_r _
    by_cases same : t = r
    · subst same
      rw [Function.update_self]
      refine ⟨?_, fun _ => Or.inr ⟨call, rfl⟩⟩
      intro stage left
      rw [ih.1 stage left] at none_r
      cases none_r
    · rwa [Function.update_of_ne same]
  case takes =>
    intro stages trace a ih _ _ _
    by_cases same : t = a.thread
    · subst same
      rw [Function.update_self, pending_cons_self]
      exact ⟨fun _ left => left, Or.inl⟩
    · rwa [Function.update_of_ne same, pending_cons_of_ne (Ne.symm same)]
  case elapses => exact fun _ ih => ih

/-- A thread is where its last access has left it, or at the beginning of a call. -/
theorem Run.pending_or_enters (run : Run allowed s u trace) (quiet : ∀ t, s.stage? t = none)
    {stage : O.Stage} (here : u.stage? t = some stage) :
    pending t trace = some stage ∨ pending t trace = none ∧ ∃ call, stage = O.enter call := by
  obtain ⟨goes_on, rests⟩ := run.stage?_eq quiet t
  cases left : pending t trace with
  | some stage' =>
    rw [goes_on stage' left] at here
    exact Or.inl here
  | none =>
    rcases rests left with none_t | ⟨call, entered⟩
    · rw [none_t] at here
      cases here
    · rw [here] at entered
      exact Or.inr ⟨rfl, call, Option.some.inj entered⟩

/-- A thread that is past the beginning of its call is where its last access has left it. -/
theorem Run.pending_of_stage? (run : Run allowed s u trace) (quiet : ∀ t, s.stage? t = none)
    {stage : O.Stage} (here : u.stage? t = some stage) (later : ∀ call, stage ≠ O.enter call) :
    pending t trace = some stage := by
  rcases run.pending_or_enters quiet here with left | ⟨-, call, entered⟩
  · exact left
  · exact absurd entered (later call)

/-- Induction over the accesses of a run. -/
theorem Run.accesses_induction {I : O.State → List (Turn O) → Prop}
    (run : Run allowed s u trace) (start : I s.state [])
    (takes : ∀ {v older} (a : Turn O), Run allowed s v older → v.state = a.before →
      v.stage? a.thread = some a.stage → a.Taken → I a.before older → I a.after (a :: older))
    (elapses : ∀ {state trace} time, I state trace → I (O.elapse time state) trace) :
    I u.state trace := by
  induction run with
  | start => exact start
  | assign t program _ free may ih => exact ih
  | access a next before here busy taken ih =>
    exact takes a before here (stage?_of_busy busy) taken (here ▸ ih)
  | elapse time _ ih => exact elapses time ih

/-- Every call goes through stages of its own, from those that it enters at. -/
theorem Run.call_of_stage {P : O.Call → O.Stage → Prop} (run : Run allowed s u trace)
    (quiet : ∀ t, s.stage? t = none) (enter : ∀ call, P call (O.enter call))
    (advance : ∀ {call next} {a : Turn O}, P call a.stage → a.Taken →
      a.progress = .ongoing next → P call next) (t : Nat) :
    (u.stage? t = none → opening t trace = none) ∧
      ∀ stage, u.stage? t = some stage → ∃ call, P call stage ∧
        (opening t trace).elim stage (fun first => first.1.stage) = O.enter call := by
  refine run.stages_induction (M := fun _ => True)
    (I := fun _ stages (trace : List (Turn O)) =>
      (stages t = none → opening t trace = none) ∧
        ∀ stage, stages t = some stage → ∃ call, P call stage ∧
          (opening t trace).elim stage (fun first => first.1.stage) = O.enter call)
    quiet (fun _ _ _ => trivial) ?start ?enters ?takes ?elapses
  case start =>
    refine ⟨fun _ => rfl, ?_⟩
    intro stage busy
    cases busy
  case enters =>
    intro state stages trace r call ih none_r _
    by_cases same : t = r
    · subst same
      rw [Function.update_self]
      refine ⟨fun idle => absurd idle (Option.some_ne_none _), ?_⟩
      intro stage entered
      cases entered
      rw [ih.1 none_r]
      exact ⟨call, enter call, rfl⟩
    · rwa [Function.update_of_ne same]
  case takes =>
    intro stages trace a ih some_t _ taken
    by_cases same : t = a.thread
    · subst same
      rw [Function.update_self]
      cases ending : a.progress with
      | finished reply =>
        have ends : a.ends := by simp [Turn.ends, ending, Progress.stage?]
        refine ⟨fun _ => opening_of_ends ends, ?_⟩
        intro stage left
        cases left
      | ongoing next =>
        have goes_on : a.ends = false := by simp [Turn.ends, ending, Progress.stage?]
        refine ⟨fun idle => absurd idle (Option.some_ne_none _), ?_⟩
        intro stage left
        cases left
        obtain ⟨call, of, first⟩ := ih.2 a.stage some_t
        refine ⟨call, advance of taken ending, ?_⟩
        rw [opening_of_not_ends goes_on, ← first]
        cases earlier : opening a.thread trace <;> simp [Turn.opening, earlier]
    · rwa [Function.update_of_ne same, opening_cons_of_ne (Ne.symm same)]
  case elapses => exact fun _ ih => ih

end System

end Interlock

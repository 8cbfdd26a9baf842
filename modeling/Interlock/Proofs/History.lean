import Interlock.Proofs.Run

/-!
# Threads that come and go

The threads of a `System.Run` are there from its start. In a `System.History` a thread is spawned,
lives and exits, and any number of others may take its place. Threads are numbered in the order in
which they are spawned, so that a number stands for the same thread in the whole history: one that
has exited is never spawned again.

A history is a run of as many threads as it has spawned (`History.run`), so that what holds of every
run holds of it; and a thread that has exited takes no access in what follows (`History.absent`).
-/

namespace Interlock

variable {O : Shared} {β : Type}

/-- The threads up to some moment. -/
structure Crew where
  /-- How many threads have been spawned. -/
  spawned : Nat := 0
  /-- The threads that have exited, the latest one first. -/
  exited : List Nat := []

namespace Crew

/-- The thread has been spawned and has not exited. -/
def Lives (c : Crew) (t : Nat) : Prop :=
  t < c.spawned ∧ t ∉ c.exited

instance (c : Crew) (t : Nat) : Decidable (c.Lives t) :=
  inferInstanceAs (Decidable (_ ∧ _))

/-- The crew after one more thread has been spawned. -/
def spawn (c : Crew) : Crew :=
  { c with spawned := c.spawned + 1 }

/-- The crew after a thread has exited. -/
def exit (c : Crew) (t : Nat) : Crew :=
  { c with exited := t :: c.exited }

end Crew

namespace System

/-- What some schedule does with threads that come and go: as `Run`, but a thread begins programs
only while it lives, and it exits where it has no call in progress. -/
inductive History (s : System O β) (crew : Crew) : System O β → Crew → List (Turn O) → Prop where
  | start : History s crew s crew []
  | spawn {u : System O β} {c : Crew} {trace : List (Turn O)} (before : History s crew u c trace) :
      History s crew u c.spawn trace
  | exit {u : System O β} {c : Crew} {trace : List (Turn O)} (t : Nat)
      (before : History s crew u c trace) (lives : c.Lives t) (free : (u.threads.get t).isIdle) :
      History s crew u (c.exit t) trace
  | assign {u : System O β} {c : Crew} {trace : List (Turn O)} (t : Nat) (program : O.Action β)
      (before : History s crew u c trace) (lives : c.Lives t) (free : (u.threads.get t).isIdle) :
      History s crew (u.assign t program).1 c trace
  | access {u : System O β} {c : Crew} {trace : List (Turn O)} (a : Turn O)
      (next : O.Reply → O.Action β) (before : History s crew u c trace) (here : u.state = a.before)
      (busy : u.threads.get a.thread = .busy a.stage next) (taken : a.Taken) :
      History s crew
        { state := a.after, threads := u.threads.set a.thread (Activity.after next a.progress).1 }
        c (a :: trace)
  | elapse {u : System O β} {c : Crew} {trace : List (Turn O)} (time : Nat)
      (before : History s crew u c trace) : History s crew (u.elapse time) c trace

namespace History

variable {s u v : System O β} {crew c d : Crew} {trace earlier later : List (Turn O)}

/-- A history continues where another one has ended. -/
theorem trans (before : History s crew u c earlier) (after : History u c v d later) :
    History s crew v d (later ++ earlier) := by
  induction after with
  | start => exact before
  | spawn _ ih => exact .spawn ih
  | exit t _ lives free ih => exact .exit t ih lives free
  | assign t program _ lives free ih => exact .assign t program ih lives free
  | access a next _ here busy taken ih => exact .access a next ih here busy taken
  | elapse time _ ih => exact .elapse time ih

/-- A history is a run of the threads that it has spawned in the end. -/
theorem run (history : History s crew u c trace) :
    Run (fun t _ => t < c.spawned) s u trace := by
  induction history with
  | start => exact .start
  | spawn _ ih => exact ih.mono fun t _ spawned => Nat.lt_succ_of_lt spawned
  | exit t _ _ _ ih => exact ih
  | assign t program _ lives free ih => exact .assign t program ih free lives.1
  | access a next _ here busy taken ih => exact .access a next ih here busy taken
  | elapse time _ ih => exact .elapse time ih

theorem spawned_mono (history : History s crew u c trace) : crew.spawned ≤ c.spawned := by
  induction history with
  | start => exact Nat.le_refl _
  | spawn _ ih => exact Nat.le_succ_of_le ih
  | exit _ _ _ _ ih => exact ih
  | assign _ _ _ _ _ ih => exact ih
  | access _ _ _ _ _ _ ih => exact ih
  | elapse _ _ ih => exact ih

/-- A thread that has exited stays so. -/
theorem exited_mono (history : History s crew u c trace) : crew.exited ⊆ c.exited := by
  induction history with
  | start => exact fun _ exited => exited
  | spawn _ ih => exact ih
  | exit t _ _ _ ih => exact fun _ exited => List.mem_cons_of_mem t (ih exited)
  | assign _ _ _ _ _ ih => exact ih
  | access _ _ _ _ _ _ ih => exact ih
  | elapse _ _ ih => exact ih

/-- A thread that has exited has no call in progress. -/
theorem quiet (history : History s crew u c trace)
    (at_start : ∀ t ∈ crew.exited, s.stage? t = none) : ∀ t ∈ c.exited, u.stage? t = none := by
  induction history with
  | start => exact at_start
  | spawn _ ih => exact ih
  | exit t _ _ free ih =>
    intro r exited
    rcases List.mem_cons.mp exited with rfl | before
    · exact (Activity.isIdle_iff_stage? _).mp free
    · exact ih r before
  | @assign u c trace t program _ lives _ ih =>
    intro r exited
    have other : r ≠ t := fun same => lives.2 (same ▸ exited)
    rw [System.assign, stage?_set, Function.update_of_ne other]
    exact ih r exited
  | @access u c trace a next _ _ busy _ ih =>
    intro r exited
    have other : r ≠ a.thread := by
      rintro rfl
      cases (ih a.thread exited).symm.trans (stage?_of_busy busy)
    rw [stage?_set, Function.update_of_ne other]
    exact ih r exited
  | elapse _ _ ih => exact ih

/-- A thread that has exited takes no access. -/
theorem absent (history : History s crew u c trace)
    (at_start : ∀ t ∈ crew.exited, s.stage? t = none) {t : Nat} (exited : t ∈ crew.exited) :
    ∀ a ∈ trace, a.thread ≠ t := by
  induction history with
  | start => exact nofun
  | spawn _ ih => exact ih
  | exit _ _ _ _ ih => exact ih
  | assign _ _ _ _ _ ih => exact ih
  | access a next before _ busy _ ih =>
    intro b inside
    rcases List.mem_cons.mp inside with rfl | older
    · rintro rfl
      have idle := before.quiet at_start b.thread (before.exited_mono exited)
      cases idle.symm.trans (stage?_of_busy busy)
    · exact ih b older
  | elapse _ _ ih => exact ih

/-- Following an order of threads continues a history. -/
theorem follow (history : History s crew u c trace) (order : List (Nat × Chance)) :
    History s crew (u.follow trace order).1 c (u.follow trace order).2 := by
  fun_induction System.follow u trace order with
  | case1 => exact history
  | case2 u trace t chance rest idle ih => exact ih history
  | case3 u trace t chance rest stage next busy blocked ih => exact ih history
  | case4 u trace t chance rest stage next busy state progress taken threads moved ih =>
    exact ih (.access ⟨t, chance, u.state, stage, state, progress⟩ next history rfl busy taken)

end History

end System

end Interlock

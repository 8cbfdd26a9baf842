import Interlock.Proofs.Monitor.Accounting
import Interlock.Proofs.Monitor.Guarded

/-!
# Threads that wait for a condition

A thread that waits for a condition tests it, joins the wait set if the test has failed, and tests
again when its wait has ended. Between the failed test and the wait it is `Broke`; from this test on
until its node has left the wait set it `Awaits` the condition. `Stage.Asks` lists the accesses that
lead to such a stage: a thread comes to await a condition only by a test that has failed
(`Stage.awaits_before`).
-/

namespace Interlock.Monitor

variable {V : Type}

namespace Stage

/-- The thread has found its condition false and has not yet joined the wait set. -/
def Broke : Stage V → Prop
  | timing _ _ _ met => met = false
  | pausing _ _ _ wait => wait.phase.node? = none
  | _ => False

/-- The condition that the thread has tested last. -/
def condition? : Stage V → Option (V → Bool × V)
  | timing _ condition _ _ | pausing _ condition _ _ => some condition
  | _ => none

/-- The thread has found the condition false, and its node is in the wait set or still to join
it. -/
def Awaits (s : WaitSet) (condition : V → Bool × V) (stage : Stage V) : Prop :=
  stage.condition? = some condition ∧ (stage.Broke ∨ ∃ n ∈ s.toList, stage.phase = .queued n)

theorem Broke.condition {stage : Stage V} (broke : stage.Broke) :
    ∃ condition, stage.condition? = some condition := by
  cases stage with
  | timing _ condition | pausing _ condition => exact ⟨condition, rfl⟩
  | _ => exact broke.elim

theorem position_of_broke {stage : Stage V} (broke : stage.Broke) :
    stage.position = .outside := by
  cases stage with
  | timing => rfl
  | pausing deadline condition tests wait =>
    cases wait with
    | entering | dating | joining => rfl
    | _ => cases broke
  | _ => exact broke.elim

theorem Of.needsGuard_of_broke {call : Call V} {stage : Stage V} (of : stage.Of call)
    (broke : stage.Broke) : call.NeedsGuard := by
  cases stage with
  | timing | pausing =>
    obtain ⟨timeout, rfl⟩ := of
    trivial
  | _ => exact broke.elim

/-- A call begins before any test. -/
theorem condition?_ofCall (call : Call V) : (ofCall call).condition? = none := by
  cases call with
  | waitUntil timeout condition => cases timeout <;> rfl
  | _ => rfl

/-- The accesses after which the thread has tested a condition last. -/
inductive Asks (t : Nat) (chance : Chance) (m : Monitor V) (condition : V → Bool × V) :
    Stage V → Monitor V → Stage V → Prop where
  | tests {deadline : Option Nat} {tests : Nat} {after : Stage V} (idle : after.phase = .idle)
    (failed : after.Broke → (condition m.value).1 = false) :
    Asks t chance m condition (testing deadline condition tests)
      { m with value := (condition m.value).2 } after
  | limits {deadline tests timeout : Nat} :
    Asks t chance m condition (timing deadline condition tests false) m
      (pausing (some deadline) condition tests (.entering (some timeout) .clearing))
  | waits {deadline : Option Nat} {tests : Nat} {wait wait' : Waiting} {m' : Monitor V}
    (moves : wait.advance t chance m = some (m', .ongoing wait')) :
    Asks t chance m condition (pausing deadline condition tests wait) m'
      (pausing deadline condition tests wait')

section Access

variable {t : Nat} {chance : Chance} {m m' : Monitor V} {stage after : Stage V} {call : Call V}
  {condition : V → Bool × V}

theorem asks_of_advance (of : stage.Of call)
    (moves : stage.advance t chance m = some (m', .ongoing after))
    (asks : after.condition? = some condition) : Asks t chance m condition stage m' after := by
  cases stage with
  | identifying begins =>
    cases moves
    rcases of with ⟨rfl, -⟩ | ⟨rfl, -⟩ | ⟨rfl, -⟩ <;> cases asks
  | testing deadline tested tests =>
    obtain rfl := advance_testing moves
    cases deadline with
    | some deadline =>
      cases moves
      cases asks
      exact .tests rfl id
    | none =>
      simp only [advance] at moves
      split at moves
      · cases moves
      · rename_i unmet
        cases moves
        cases asks
        exact .tests rfl fun _ => Bool.not_eq_true _ ▸ unmet
  | timing deadline tested tests met =>
    simp only [advance] at moves
    split at moves
    · cases moves
    · rename_i unmet
      cases moves
      cases asks
      obtain rfl : met = false := by simpa using fun found => unmet (Or.inl found)
      exact .limits
  | pausing deadline tested tests wait =>
    simp only [advance] at moves
    split at moves
    case h_2 moves_wait =>
      cases moves
      cases asks
      exact .waits moves_wait
    all_goals
      cases moves
      try cases asks
  | notifying all =>
    cases all <;> simp only [advance] at moves <;> split at moves <;> cases moves
    all_goals cases asks
  | waking threads reply =>
    rcases threads with _ | ⟨_, _ | _⟩
    all_goals cases moves
    cases asks
  | _ =>
    simp only [advance] at moves
    repeat' split at moves
    all_goals cases moves
    all_goals cases asks

/-- A thread that has found its condition false has just tested it, or had found it so before. -/
theorem broke_before (of : stage.Of call)
    (moves : stage.advance t chance m = some (m', .ongoing after)) (broke : after.Broke)
    (asks : after.condition? = some condition) :
    (∃ deadline tests, stage = testing deadline condition tests ∧ (condition m.value).1 = false) ∨
      stage.Broke ∧ stage.condition? = some condition ∧ m'.value = m.value := by
  cases asks_of_advance of moves asks with
  | @tests deadline tests _ idle failed => exact Or.inl ⟨deadline, tests, rfl, failed broke⟩
  | limits => exact Or.inr ⟨rfl, rfl, rfl⟩
  | @waits deadline tests wait wait' _ moves_wait =>
    refine Or.inr ⟨?_, rfl, (Waiting.advance_frame moves_wait).1⟩
    show wait.phase.node? = none
    cases mine : wait.phase.node? with
    | none => rfl
    | some n =>
      rcases (Waiting.advance_phases moves_wait).node_or_ended mine with keeps | ⟨-, r, ended⟩
      · cases keeps.symm.trans broke
      · cases ended

/-- A thread that awaits a condition has just tested it, or had awaited it before. -/
theorem awaits_before (of : stage.Of call)
    (moves : stage.advance t chance m = some (m', .ongoing after))
    (awaits : after.Awaits m'.waiters condition) :
    (∃ deadline tests, stage = testing deadline condition tests ∧ (condition m.value).1 = false) ∨
      stage.Awaits m.waiters condition ∧ m'.value = m.value := by
  obtain ⟨asks, broke | ⟨n, inside, queued⟩⟩ := awaits
  · refine (broke_before of moves broke asks).imp_right fun before => ?_
    exact ⟨⟨before.2.1, Or.inl before.1⟩, before.2.2⟩
  · cases asks_of_advance of moves asks with
    | tests idle => cases idle.symm.trans queued
    | limits => cases queued
    | @waits deadline tests wait wait' _ moves_wait =>
      refine Or.inr ⟨⟨rfl, ?_⟩, (Waiting.advance_frame moves_wait).1⟩
      have moves_phase := Waiting.advance_phases moves_wait
      have joined : waitPhase (.ongoing wait') = .queued n := queued
      show wait.phase.node? = none ∨ ∃ n ∈ m.waiters.toList, wait.phase = .queued n
      rw [joined] at moves_phase
      generalize wait.phase = p, m.waiters = s, m'.waiters = s', wait.entry _ _ = e
        at moves_phase inside ⊢
      cases moves_phase with
      | stays => exact Or.inr ⟨n, inside, rfl⟩
      | joins => exact Or.inl rfl

end Access

end Stage

end Interlock.Monitor

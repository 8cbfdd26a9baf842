import Interlock.Proofs.Monitor.Position
import Interlock.Proofs.WaitSet

/-!
# Where a wait stands with respect to the wait set

A wait joins the wait set with a node of its own, takes the node out again unless a notification
has popped it, returns to the lock, and may then notify another wait in its own place. `Phase`
names these stretches, and `Entry` what one access adds to the account of notifications: the nodes
it pops, the wait in whose place it notifies another one, the wait that is back on the lock, and
how a wait ends. `Stage.advance_phases` says which accesses there are; the invariants of the wait
set and of its history follow from it.
-/

namespace Interlock.Monitor

variable {V β : Type}

/-- Where a wait stands. -/
inductive Phase where
  /-- There is no wait, or it has not joined the wait set. -/
  | idle
  /-- It has joined the wait set and has not yet tried to take its node out. -/
  | queued (node : Nat)
  /-- It is returning to the lock; `queued` tells whether it took its node out itself. -/
  | returning (node : Nat) (queued : Bool)
  /-- It is back on the lock and takes the interrupt that it has seen. -/
  | deciding (node : Nat) (queued : Bool)
  | passing (node : Nat) (result : Except Fault Ending)
  /-- It has notified another wait and is about to wake its thread. -/
  | handing (node : Nat) (result : Except Fault Ending)

namespace Phase

/-- The node of the wait. -/
def node? : Phase → Option Nat
  | idle => none
  | queued node | returning node _ | deciding node _ | passing node _ | handing node _ => some node

end Phase

/-- What one access adds to the account of notifications. -/
structure Entry where
  popped : List Nat := []
  /-- The node of the wait in whose place another one is notified. -/
  passed : Option Nat := none
  /-- The node of the wait that is back on the lock. -/
  regained : Option Nat := none
  /-- The node and the result of the wait that ends; a wait that has not joined has no node. -/
  ended : Option (Option Nat × Except Fault Ending) := none

namespace Waiting

/-- The phase of a wait. -/
def phase : Waiting → Phase
  | entering _ _ | dating _ | joining _ => .idle
  | releasing node _ _ | watching node _ _ _ | withdrawing node _ _ => .queued node
  | returning node _ queued _ => .returning node queued
  | consuming node queued _ => .deciding node queued
  | passing node result => .passing node result
  | handing node _ result => .handing node result

/-- What an access of a wait adds to the account, given what becomes of the wait. -/
def entry (s : WaitSet) (wait : Waiting) (progress : Progress Waiting (Except Fault Ending)) :
    Entry where
  popped :=
    match wait with
    | passing _ _ => s.head.toList
    | _ => []
  passed :=
    match wait with
    | passing node _ => some node
    | _ => none
  regained :=
    match wait, progress with
    | returning _ _ _ _, .ongoing (returning _ _ _ _) => none
    | returning node _ _ _, _ => some node
    | _, _ => none
  ended :=
    match progress with
    | .ongoing _ => none
    | .finished result => some (wait.phase.node?, result)

end Waiting

namespace Stage

/-- The wait that a call is in. -/
def wait? : Stage V → Option Waiting
  | waiting wait | pausing _ _ _ wait => some wait
  | _ => none

/-- The phase of a thread at a stage. -/
def phase : Stage V → Phase
  | identifying next => next.phase
  | waiting wait | pausing _ _ _ wait => wait.phase
  | _ => .idle

/-- What the next access of thread `t` in a call adds to the account. -/
def entry (t : Nat) (chance : Chance) (m : Monitor V) : Stage V → Entry
  | notifying false => { popped := m.waiters.head.toList }
  | notifying true => { popped := m.waiters.toList }
  | waiting wait | pausing _ _ _ wait =>
    match wait.advance t chance m with
    | none => {}
    | some (_, progress) => wait.entry m.waiters progress
  | _ => {}

end Stage

/-- What an access adds to the account of notifications. -/
def entry (a : Turn (shared V)) : Entry :=
  a.stage.entry a.thread a.chance a.before

/-- The phase of a thread whose wait has come this far. -/
def waitPhase : Progress Waiting (Except Fault Ending) → Phase
  | .ongoing wait => wait.phase
  | .finished _ => .idle

/-- The phase of a thread that may have a call in progress. -/
def phaseOf (stage? : Option (Stage V)) : Phase :=
  stage?.elim .idle Stage.phase

/-- The phases of the threads at their stages. -/
def phases (stages : Nat → Option (Stage V)) (t : Nat) : Phase :=
  phaseOf (stages t)

theorem phases_update (stages : Nat → Option (Stage V)) (t : Nat) (stage? : Option (Stage V)) :
    phases (Function.update stages t stage?) =
      Function.update (phases stages) t (phaseOf stage?) := by
  funext s
  exact Function.apply_update (fun _ => phaseOf) stages t stage? s

theorem phases_of_none {stages : Nat → Option (Stage V)} {t : Nat} (none_t : stages t = none) :
    phases stages t = .idle := by
  simp [phases, none_t, phaseOf]

theorem phases_of_some {stages : Nat → Option (Stage V)} {t : Nat} {stage : Stage V}
    (some_t : stages t = some stage) : phases stages t = stage.phase := by
  simp [phases, some_t, phaseOf]

/-- A call begins without a wait that has joined the wait set. -/
theorem Stage.phase_ofCall (call : Call V) : (ofCall call).phase = .idle := by
  cases call with
  | waitUntil timeout condition => cases timeout <;> rfl
  | _ => rfl

theorem phases_enter {stages : Nat → Option (Stage V)} {t : Nat} (none_t : stages t = none)
    (call : Call V) :
    phases (Function.update stages t (some (Stage.ofCall call))) = phases stages := by
  have same : phaseOf (some (Stage.ofCall call)) = phases stages t :=
    (Stage.phase_ofCall call).trans (phases_of_none none_t).symm
  rw [phases_update, same, Function.update_eq_self]

/-- What one access of thread `t` can do to the wait set and to the phase of the thread, and what
it adds to the account. -/
inductive Phase.Moves (t : Nat) (s : WaitSet) : Phase → WaitSet → Phase → Entry → Prop where
  | stays {p : Phase} : Moves t s p s p {}
  | refuses {message : String} :
    Moves t s idle s idle { ended := some (none, .error (.cancelled message)) }
  | joins :
    Moves t s idle ((s.make t).2.push s.made) (queued s.made) {}
  | withdraws {node : Nat} :
    Moves t s (queued node) (s.remove node).1 (returning node (s.remove node).2) {}
  | regains {node : Nat} {queued : Bool} :
    Moves t s (returning node queued) s (deciding node queued) { regained := some node }
  | expires {node : Nat} :
    Moves t s (returning node true) s (passing node (.ok .expired)) { regained := some node }
  | succeeds {node : Nat} :
    Moves t s (returning node false) s idle
      { regained := some node, ended := some (some node, .ok .notified) }
  | cancels {node : Nat} {queued : Bool} {message : String} :
    Moves t s (deciding node queued) s (passing node (.error (.cancelled message))) {}
  | expiresLate {node : Nat} :
    Moves t s (deciding node true) s (passing node (.ok .expired)) {}
  | succeedsLate {node : Nat} :
    Moves t s (deciding node false) s idle { ended := some (some node, .ok .notified) }
  | passesNobody {node : Nat} {result : Except Fault Ending} (nobody : s.pop = none) :
    Moves t s (passing node result) s idle
      { popped := s.head.toList, passed := some node, ended := some (some node, result) }
  | passes {node thread : Nat} {result : Except Fault Ending} {s' : WaitSet}
    (pops : s.pop = some (s', thread)) :
    Moves t s (passing node result) s' (handing node result)
      { popped := s.head.toList, passed := some node }
  | hands {node : Nat} {result : Except Fault Ending} :
    Moves t s (handing node result) s idle { ended := some (some node, result) }
  | signalsNobody (nobody : s.pop = none) : Moves t s idle s idle { popped := s.head.toList }
  | signals {thread : Nat} {s' : WaitSet} (pops : s.pop = some (s', thread)) :
    Moves t s idle s' idle { popped := s.head.toList }
  | broadcasts : Moves t s idle s.popAll.1 idle { popped := s.toList }

/-- A wait that is about to end with a fault is cancelled. -/
def Phase.Told : Phase → Prop
  | passing _ result | handing _ result => ∀ fault, result = .error fault → fault.isCancelled
  | _ => True

/-- The only fault that a wait ends with is that it was cancelled. -/
theorem Phase.Moves.told {t : Nat} {s s' : WaitSet} {p p' : Phase} {e : Entry}
    (moves : p.Moves t s s' p' e) (told : p.Told) :
    p'.Told ∧ ∀ n fault, e.ended = some (n, .error fault) → fault.isCancelled := by
  cases moves with
  | stays => exact ⟨told, nofun⟩
  | refuses =>
    refine ⟨trivial, fun n fault ended => ?_⟩
    cases ended
    rfl
  | cancels =>
    refine ⟨fun fault same => ?_, nofun⟩
    cases same
    rfl
  | passes => exact ⟨told, nofun⟩
  | passesNobody | hands =>
    refine ⟨trivial, fun n fault ended => told fault ?_⟩
    cases ended
    rfl
  | succeeds | succeedsLate =>
    refine ⟨trivial, fun n fault ended => ?_⟩
    cases ended
  | expires | expiresLate => exact ⟨nofun, nofun⟩
  | joins | withdraws | regains | signalsNobody | signals | broadcasts => exact ⟨trivial, nofun⟩

theorem Stage.phase_of_wait? {stage : Stage V} {wait : Waiting}
    (here : stage.wait? = some wait) : stage.phase = wait.phase := by
  cases stage with
  | waiting | pausing =>
    cases here
    rfl
  | _ => cases here

/-- What an access in a wait does to the wait set. -/
theorem Waiting.advance_phases {t : Nat} {chance : Chance} {m m' : Monitor V} {wait : Waiting}
    {progress : Progress Waiting (Except Fault Ending)}
    (moves : wait.advance t chance m = some (m', progress)) :
    wait.phase.Moves t m.waiters m'.waiters (waitPhase progress)
      (wait.entry m.waiters progress) := by
  cases wait with
  | entering timeout taking =>
    simp only [advance] at moves
    repeat' split at moves
    all_goals cases moves
    · exact .stays
    · exact .refuses
    · exact .stays
    · exact .stays
  | dating timeout =>
    cases moves
    exact .stays
  | joining deadline =>
    cases moves
    exact .joins
  | releasing node deadline lock =>
    simp only [advance] at moves
    split at moves <;> cases moves <;> exact .stays
  | watching node deadline levels glance =>
    cases glance with
    | park =>
      simp only [advance, Option.map_eq_some_iff] at moves
      obtain ⟨parked, park, moved⟩ := moves
      cases moved
      obtain ⟨permits, rfl⟩ := park_eq_some park
      exact .stays
    | _ =>
      simp only [advance] at moves
      repeat' split at moves
      all_goals cases moves
      all_goals exact .stays
  | withdrawing node levels interrupted =>
    cases moves
    exact .withdraws
  | returning node interrupted queued lock =>
    simp only [advance] at moves
    split at moves
    · cases moves
    · cases moves
      exact .stays
    · split at moves
      · cases moves
        exact .regains
      · cases moves
        cases queued with
        | true => exact .expires
        | false => exact .succeeds
  | consuming node queued taking =>
    simp only [advance] at moves
    split at moves
    · cases moves
      exact .stays
    · cases moves
      exact .cancels
    · cases moves
      cases queued with
      | true => exact .expiresLate
      | false => exact .succeedsLate
  | passing node result =>
    simp only [advance] at moves
    split at moves
    · cases moves
      exact .passesNobody ‹_›
    · cases moves
      exact .passes ‹_›
  | handing node thread result =>
    cases moves
    exact .hands

/-- What one access does to the wait set. -/
theorem Stage.advance_phases {t : Nat} {chance : Chance} {m m' : Monitor V} {stage : Stage V}
    {progress : Progress (Stage V) (Reply V)}
    (moves : stage.advance t chance m = some (m', progress)) :
    stage.phase.Moves t m.waiters m'.waiters (phaseOf progress.stage?)
      (stage.entry t chance m) := by
  cases stage with
  | identifying next =>
    cases moves
    have same : (m.identify t).waiters = m.waiters := by
      unfold identify
      split <;> rfl
    rw [same]
    exact .stays
  | waiting wait =>
    simp only [advance] at moves
    split at moves
    · cases moves
    · rename_i moves_wait
      cases moves
      simp only [entry, moves_wait]
      exact Waiting.advance_phases moves_wait
    · rename_i moves_wait
      cases moves
      simp only [entry, moves_wait]
      exact Waiting.advance_phases moves_wait
  | pausing deadline condition tests wait =>
    simp only [advance] at moves
    split at moves
    · cases moves
    all_goals
      rename_i moves_wait
      cases moves
      simp only [entry, moves_wait]
      exact Waiting.advance_phases moves_wait
  | notifying all =>
    cases all with
    | false =>
      simp only [advance] at moves
      split at moves
      · cases moves
        exact .signalsNobody ‹_›
      · cases moves
        exact .signals ‹_›
    | true =>
      have pops_all : Phase.idle.Moves t m.waiters m.waiters.popAll.1 .idle
          { popped := m.waiters.toList } := .broadcasts
      simp only [advance] at moves
      split at moves
      · rename_i pops
        cases moves
        rw [pops] at pops_all
        exact pops_all
      · rename_i pops
        cases moves
        rw [pops] at pops_all
        exact pops_all
  | waking threads reply =>
    rcases threads with _ | ⟨_, _ | _⟩
    all_goals
      cases moves
      exact .stays
  | _ =>
    simp only [advance] at moves
    repeat' split at moves
    all_goals cases moves
    all_goals exact .stays

/-- An access of a call that is in a wait is one of the wait. -/
theorem Stage.advance_wait {t : Nat} {chance : Chance} {m m' : Monitor V} {stage : Stage V}
    {progress : Progress (Stage V) (Reply V)} {wait : Waiting} (here : stage.wait? = some wait)
    (moves : stage.advance t chance m = some (m', progress)) :
    ∃ after, wait.advance t chance m = some (m', after) ∧
      stage.entry t chance m = wait.entry m.waiters after ∧
      progress.stage?.bind wait? = after.stage? := by
  cases stage with
  | waiting waits | pausing deadline condition tests waits =>
    cases here
    simp only [advance] at moves
    split at moves
    · cases moves
    all_goals
      rename_i moved
      cases moves
      exact ⟨_, moved, by simp only [entry, moved], rfl⟩
  | _ => cases here

/-- A call that is a wait goes on with its wait and ends with it. -/
theorem Stage.advance_waiting {t : Nat} {chance : Chance} {m m' : Monitor V} {wait : Waiting}
    {progress : Progress (Stage V) (Reply V)}
    (moves : (waiting wait : Stage V).advance t chance m = some (m', progress)) :
    ∃ after, wait.advance t chance m = some (m', after) ∧
      progress = match after with
        | .ongoing wait' => .ongoing (waiting wait')
        | .finished result => .finished (.ended result) := by
  simp only [advance] at moves
  split at moves
  · cases moves
  all_goals
    rename_i moved
    cases moves
    exact ⟨_, moved, rfl⟩

/-- A call that waits for a condition goes on with its wait. When the wait ends, the call tests the
condition again or, if the wait was cancelled, ends. -/
theorem Stage.advance_pausing {t : Nat} {chance : Chance} {m m' : Monitor V}
    {deadline : Option Nat} {condition : V → Bool × V} {tests : Nat} {wait : Waiting}
    {progress : Progress (Stage V) (Reply V)}
    (moves : (pausing deadline condition tests wait).advance t chance m = some (m', progress)) :
    ∃ after, wait.advance t chance m = some (m', after) ∧
      (pausing deadline condition tests wait).entry t chance m = wait.entry m.waiters after ∧
      progress = match after with
        | .ongoing wait' => .ongoing (pausing deadline condition tests wait')
        | .finished (.ok _) => .ongoing (testing deadline condition tests)
        | .finished (.error fault) => .finished (.met (.error fault) tests) := by
  simp only [advance] at moves
  split at moves
  · cases moves
  all_goals
    rename_i moved
    cases moves
    exact ⟨_, moved, by simp only [entry, moved], rfl⟩

/-- The moves of the thread that takes a turn. -/
theorem phases_moves {stages : Nat → Option (Stage V)} {a : Turn (shared V)}
    (some_t : stages a.thread = some a.stage) (taken : a.Taken) :
    (phases stages a.thread).Moves a.thread a.before.waiters a.after.waiters
      (phaseOf a.progress.stage?) (entry a) := by
  rw [phases_of_some some_t]
  exact Stage.advance_phases taken

end Interlock.Monitor

import Interlock.Proofs.Monitor.Restoration
import Interlock.Proofs.Monitor.Testing

/-!
# Conditions and broadcasts

A thread that changes the value may make conditions true that other threads wait for. From then on
it owes them a broadcast (`Owes`). While a thread awaits a condition, the condition is false or
somebody owes a broadcast (`unmet_of_run`): a thread that tests the condition keeps the lock until
it has joined the wait set, and a broadcast leaves nobody in the wait set and is made by a thread
with a guard, so that nobody is on the way into the wait set either.

If threads change the value only with a guard, and broadcast before they give the lock up
(`Announced`), then only the owner of the lock ever owes a broadcast (`signed_of_owes`), and while
there is no owner the conditions of all waiting threads are false (`no_waiter_overlooked`).
-/

namespace Interlock.Monitor

variable {V β : Type}

namespace Stage

/-- The call is about to do what it can do only through a guard: test a condition, or take all
nodes out of the wait set. -/
def throughGuard : Stage V → Bool
  | testing _ _ _ | notifying true => true
  | _ => false

/-- About to take all nodes out of the wait set. -/
def broadcasts : Stage V → Bool
  | notifying true => true
  | _ => false

/-- About to give the lock up. -/
def disowns (stage : Stage V) : Bool :=
  match stage.position.lock? with
  | some (.disown _) => true
  | _ => false

end Stage

/-- Conditions are tested and waiting threads notified, all at once, by threads with a guard. -/
def Orderly : List (Turn (shared V)) → Prop
  | [] => True
  | a :: older => (a.stage.throughGuard → 0 < guards a.thread older) ∧ Orderly older

/-- The thread has not broadcast since it has taken an access that opens something for threads that
wait. -/
def Owes (Opens : Turn (shared V) → Prop) (t : Nat) : List (Turn (shared V)) → Prop
  | [] => False
  | a :: older =>
    if a.thread = t then Opens a ∨ ¬ a.stage.broadcasts ∧ Owes Opens t older
    else Owes Opens t older

/-- The access changes the value. -/
def Alters (a : Turn (shared V)) : Prop :=
  a.after.value ≠ a.before.value

/-- Threads change the value only with a guard, and they do not give the lock up between a change
and a broadcast. -/
def Announced : List (Turn (shared V)) → Prop
  | [] => True
  | a :: older =>
    (Alters a → 0 < guards a.thread older) ∧
      (a.stage.disowns → ¬ Owes Alters a.thread older) ∧ Announced older

instance decidableOrderly : ∀ trace : List (Turn (shared V)), Decidable (Orderly trace)
  | [] => inferInstanceAs (Decidable True)
  | _ :: older =>
    have : Decidable (Orderly older) := decidableOrderly older
    inferInstanceAs (Decidable ((_ → _ < _) ∧ _))

instance decidableOwes (Opens : Turn (shared V) → Prop) [DecidablePred Opens] (t : Nat) :
    ∀ trace, Decidable (Owes Opens t trace)
  | [] => inferInstanceAs (Decidable False)
  | a :: older =>
    have : Decidable (Owes Opens t older) := decidableOwes Opens t older
    inferInstanceAs (Decidable (if a.thread = t then _ ∨ ¬ _ ∧ _ else _))

instance [DecidableEq V] : DecidablePred (Alters : Turn (shared V) → Prop) :=
  fun a => inferInstanceAs (Decidable (a.after.value ≠ a.before.value))

instance decidableAnnounced [DecidableEq V] :
    ∀ trace : List (Turn (shared V)), Decidable (Announced trace)
  | [] => inferInstanceAs (Decidable True)
  | _ :: older =>
    have : Decidable (Announced older) := decidableAnnounced older
    inferInstanceAs (Decidable ((_ → _ < _) ∧ (_ → ¬ _) ∧ _))

section Owes

variable {Opens : Turn (shared V) → Prop} {a : Turn (shared V)} {older : List (Turn (shared V))}
  {t : Nat}

theorem owes_cons_self :
    Owes Opens a.thread (a :: older) ↔
      Opens a ∨ ¬ a.stage.broadcasts ∧ Owes Opens a.thread older := by
  simp [Owes]

theorem owes_cons_of_ne (other : a.thread ≠ t) :
    Owes Opens t (a :: older) ↔ Owes Opens t older := by
  simp [Owes, other]

/-- A thread owes a broadcast until it makes it. -/
theorem Owes.later (owes : Owes Opens t older) (keeps : a.thread = t → ¬ a.stage.broadcasts) :
    Owes Opens t (a :: older) := by
  by_cases same : a.thread = t
  · subst same
    exact owes_cons_self.mpr (Or.inr ⟨keeps rfl, owes⟩)
  · exact (owes_cons_of_ne same).mpr owes

end Owes

/-- A thread with the tenure of one that is about to clear the owner gives the lock up. -/
theorem Stage.disowns_of_vacating {stage : Stage V} {guards : Nat}
    (vacating : stage.position.tenure guards = .vacating) : stage.disowns := by
  obtain ⟨levels, disowning⟩ := Position.tenure_eq_vacating.mp vacating
  simp [disowns, disowning]

/-- The value changes outside the lock's procedures. -/
theorem position_of_alters {a : Turn (shared V)} (taken : a.Taken) (alters : Alters a) :
    a.stage.position = .outside := by
  rcases Stage.advance_value taken with same | ⟨deadline, condition, tests, testing, -⟩ |
    ⟨f, accessing, -⟩
  · exact absurd same alters
  · rw [testing]
    rfl
  · rw [accessing]
    rfl

theorem Stage.Of.needsGuard_of_throughGuard {call : Call V} {stage : Stage V} (of : stage.Of call)
    (through : stage.throughGuard) : call.NeedsGuard := by
  cases stage with
  | testing =>
    obtain ⟨timeout, rfl⟩ := of
    trivial
  | notifying all =>
    cases all with
    | true =>
      obtain rfl := of
      trivial
    | false => cases through
  | _ => cases through

theorem Stage.eq_notifying {stage : Stage V} (broadcasts : stage.broadcasts) :
    stage = .notifying true := by
  cases stage with
  | notifying all =>
    cases all with
    | true => rfl
    | false => cases broadcasts
  | _ => cases broadcasts

/-- A broadcast leaves nobody in the wait set. -/
theorem Stage.toList_of_broadcast {t : Nat} {chance : Chance} {m m' : Monitor V}
    {queue : List Nat} {progress : Progress (Stage V) (Reply V)}
    (represents : m.waiters.Represents queue)
    (moves : (Stage.notifying true).advance t chance m = some (m', progress)) :
    m'.waiters.toList = [] := by
  have emptied := represents.popAll.2.1.toList_eq
  simp only [advance] at moves
  split at moves
  all_goals
    rename_i pops
    cases moves
    rwa [pops] at emptied

section Run

variable {allowed : Nat → Action V β → Prop} {value : V} {settings : Settings}
  {u v : System (shared V) β} {a : Turn (shared V)} {trace older : List (Turn (shared V))}
  {stage : Stage V} {t : Nat} {condition : V → Bool × V}

/-- A thread that has tested a condition is past the beginning of its call. -/
theorem pending_of_condition
    (run : System.Run allowed { state := Monitor.new value settings } u trace)
    (here : u.stage? t = some stage) (asks : stage.condition? = some condition) :
    pending t trace = some stage := by
  refine run.pending_of_stage? (System.stage?_start _) here ?_
  rintro call rfl
  rw [Stage.condition?_ofCall] at asks
  cases asks

/-- A thread that has found its condition false keeps its guards until it has joined the wait
set. -/
theorem guard_of_broke
    (run : System.Run allowed { state := Monitor.new value settings } u trace)
    (orderly : Orderly trace) (left : pending t trace = some stage) (broke : stage.Broke) :
    0 < guards t trace := by
  refine run.accesses_induction
    (I := fun _ trace => Orderly trace → ∀ stage : Stage V, pending t trace = some stage →
      stage.Broke → 0 < guards t trace)
    ?start ?takes ?elapses orderly stage left broke
  case start =>
    intro _ stage left
    cases left
  case takes =>
    intro v older a run_v _ here taken ih orderly stage left broke
    by_cases mine : a.thread = t
    · subst mine
      rw [pending_cons_self] at left
      have ongoing := Progress.eq_ongoing left
      rw [guards_of_ongoing ongoing]
      obtain ⟨call, of⟩ := exists_call_of_run run_v (System.stage?_start _) here
      obtain ⟨condition, asks⟩ := broke.condition
      rcases Stage.broke_before of (taken.ongoing ongoing) broke asks with
        ⟨deadline, tests, testing, -⟩ | ⟨before, asked, -⟩
      · exact orderly.1 (by rw [testing]; rfl)
      · exact ih orderly.2 a.stage (pending_of_condition run_v here asked) before
    · rw [pending_cons_of_ne mine] at left
      rw [guards_cons_of_ne (Ne.symm mine)]
      exact ih orderly.2 stage left broke
  case elapses => exact fun _ ih => ih

/-- After a broadcast nobody awaits a condition: the wait set is empty, and nobody else has a guard
and could be on the way into it. -/
theorem not_awaits_of_broadcast {threads : Nat}
    (run : LawfulRun threads value settings v older) (orderly : Orderly (a :: older))
    (same : v.state = a.before) (here : v.stage? a.thread = some a.stage) (taken : a.Taken)
    (broadcasts : a.stage.broadcasts) (left : pending t (a :: older) = some stage) :
    ¬ stage.Awaits a.after.waiters condition := by
  intro awaits
  have notifies := Stage.eq_notifying broadcasts
  have guard : 0 < guards a.thread older := orderly.1 (by rw [notifies]; rfl)
  by_cases mine : a.thread = t
  · subst mine
    rw [pending_cons_self] at left
    obtain ⟨call, of⟩ := exists_call_of_run run.run (System.stage?_start _) here
    have asks := Stage.asks_of_advance of (taken.ongoing (Progress.eq_ongoing left)) awaits.1
    rw [notifies] at asks
    cases asks
  · rw [pending_cons_of_ne mine] at left
    obtain ⟨-, broke | ⟨n, inside, -⟩⟩ := awaits
    · have there := (run.run.stage?_eq (System.stage?_start _) t).1 stage left
      refine mine (run.held.alone ?_ guard ?_ (guard_of_broke run.run orderly.2 left broke))
      · rw [positions_of_some here, notifies]
        rfl
      · rw [positions_of_some there, Stage.position_of_broke broke]
    · have enrolled := enrolled_before run.run same
      have moves : a.stage.advance a.thread a.chance a.before = some (a.after, a.progress) := taken
      rw [notifies] at moves
      rw [Stage.toList_of_broadcast enrolled.represents moves] at inside
      cases inside

/-- Another thread that awaits a condition had awaited it before the access. -/
theorem awaits_of_other
    (run : System.Run allowed { state := Monitor.new value settings } v older)
    (same : v.state = a.before) (here : v.stage? a.thread = some a.stage) (taken : a.Taken)
    (other : a.thread ≠ t) (there : v.stage? t = some stage)
    (awaits : stage.Awaits a.after.waiters condition) :
    stage.Awaits a.before.waiters condition := by
  obtain ⟨asks, broke | ⟨n, inside, queued⟩⟩ := awaits
  · exact ⟨asks, Or.inl broke⟩
  · have enrolled := enrolled_before run same
    obtain ⟨queue', shifts, enrolled'⟩ := enrolled.access (phases_moves here taken)
    have node : (Function.update (phases v.stage?) a.thread (phaseOf a.progress.stage?) t).node? =
        some n := by
      rw [Function.update_of_ne (Ne.symm other), phases_of_some there, queued]
      rfl
    have apart : (phaseOf a.progress.stage?).node? ≠ some n := by
      intro mine
      refine other (enrolled'.unique ?_ node)
      rwa [Function.update_self]
    rw [enrolled'.represents.toList_eq, shifts.queued n apart] at inside
    exact ⟨asks, Or.inr ⟨n, inside.1, queued⟩⟩

/-- While a thread awaits a condition, the condition is false, or somebody owes a broadcast for
having made it true. -/
theorem unmet_of_run {threads : Nat} {Opens : Turn (shared V) → Prop}
    (run : LawfulRun threads value settings u trace) (orderly : Orderly trace)
    (opens : ∀ a ∈ trace, (condition a.before.value).1 = false →
      (condition a.after.value).1 = true → Opens a)
    (left : pending t trace = some stage) (awaits : stage.Awaits u.state.waiters condition) :
    (condition u.state.value).1 = false ∨ ∃ w, Owes Opens w trace := by
  refine run.run.accesses_induction
    (I := fun (m : Monitor V) trace => Lawful trace → Orderly trace →
      (∀ a ∈ trace, (condition a.before.value).1 = false →
        (condition a.after.value).1 = true → Opens a) →
      ∀ t (stage : Stage V), pending t trace = some stage → stage.Awaits m.waiters condition →
      (condition m.value).1 = false ∨ ∃ w, Owes Opens w trace)
    ?start ?takes ?elapses run.lawful orderly opens t stage left awaits
  case start =>
    intro _ _ _ t stage left
    cases left
  case takes =>
    intro v older a run_v same here taken ih lawful orderly opens t stage left awaits
    have earlier := ih lawful.2 orderly.2 fun c member => opens c (List.mem_cons_of_mem a member)
    -- a thread that has come to await the condition has just found it false
    have before : (condition a.before.value).1 = false ∨ ∃ w, Owes Opens w older := by
      by_cases mine : a.thread = t
      · subst mine
        rw [pending_cons_self] at left
        obtain ⟨call, of⟩ := exists_call_of_run run_v (System.stage?_start _) here
        rcases Stage.awaits_before of (taken.ongoing (Progress.eq_ongoing left)) awaits with
          ⟨deadline, tests, -, failed⟩ | ⟨awaited, -⟩
        · exact Or.inl failed
        · exact earlier a.thread a.stage (pending_of_condition run_v here awaited.1) awaited
      · rw [pending_cons_of_ne mine] at left
        have there := (run_v.stage?_eq (System.stage?_start _) t).1 stage left
        exact earlier t stage left (awaits_of_other run_v same here taken mine there awaits)
    rcases before with unmet | ⟨w, owes⟩
    · cases met : (condition a.after.value).1 with
      | false => exact Or.inl rfl
      | true =>
        have opened := opens a (List.mem_cons_self ..) unmet met
        exact Or.inr ⟨a.thread, owes_cons_self.mpr (Or.inl opened)⟩
    · -- the debt is not paid by this access, because after a broadcast nobody awaits anything
      refine Or.inr ⟨w, owes.later fun _ broadcasts => ?_⟩
      exact not_awaits_of_broadcast ⟨run.few, run_v, lawful.2⟩ orderly same here taken broadcasts
        left awaits
  case elapses => exact fun _ ih => ih

/-- Between two calls the tenure of a thread is that of a thread outside the lock's procedures. -/
theorem tenure_of_pending
    (run : System.Run allowed { state := Monitor.new value settings } u trace) (guards : Nat) :
    (positions u.stage? t).tenure guards = (positionOf (pending t trace)).tenure guards := by
  obtain ⟨goes_on, rests⟩ := run.stage?_eq (System.stage?_start _) t
  cases left : pending t trace with
  | some stage => rw [positions, goes_on stage left]
  | none => exact tenure_of_rests (rests left) guards

/-- A thread that owes a broadcast for a change is the owner of the lock. -/
theorem signed_of_owes {threads : Nat} (run : LawfulRun threads value settings u trace)
    (announced : Announced trace) (owes : Owes Alters t trace) :
    ((positions u.stage? t).tenure (guards t trace)).IsSigned := by
  rw [tenure_of_pending run.run]
  refine run.run.accesses_induction
    (I := fun _ trace => Lawful trace → Announced trace → Owes Alters t trace →
      ((positionOf (pending t trace)).tenure (guards t trace)).IsSigned)
    ?start ?takes ?elapses run.lawful announced owes
  case start => exact fun _ _ owes => owes.elim
  case takes =>
    intro v older a run_v same here taken ih lawful announced owes
    by_cases mine : a.thread = t
    · subst mine
      have held := held_of_run run.few run_v lawful.2
      rw [same] at held
      have member := run_v.member (System.stage?_start _) (fun _ _ member => member) a.thread
        (by simp [here])
      obtain ⟨changes, -⟩ :=
        held.changes run.few member (positions_of_some here) taken lawful
      rw [pending_cons_self]
      rcases owes_cons_self.mp owes with alters | ⟨-, owed⟩
      · have guard := announced.1 alters
        rw [position_of_alters taken alters] at changes
        refine (changes.signed (Tenure.isSigned_ofGuards.mpr guard)).resolve_right ?_
        rw [Position.tenure, Tenure.ofGuards_of_pos guard]
        intro vacating
        cases vacating
      · have before := ih lawful.2 announced.2.2 owed
        rw [← tenure_of_pending run_v, positions_of_some here] at before
        refine (changes.signed before).resolve_right fun vacating => ?_
        exact announced.2.1 (Stage.disowns_of_vacating vacating) owed
    · rw [pending_cons_of_ne mine, guards_cons_of_ne (Ne.symm mine)]
      exact ih lawful.2 announced.2.2 ((owes_cons_of_ne mine).mp owes)
  case elapses => exact fun _ ih => ih

/-- While nobody holds the lock, nobody owes a broadcast for a change. -/
theorem not_owes_of_free {threads : Nat} (run : LawfulRun threads value settings u trace)
    (announced : Announced trace)
    (free : u.state.lock.word = .unlocked ∨ u.state.lock.owner = 0) : ¬ Owes Alters t trace := by
  intro owes
  have signed := signed_of_owes run announced owes
  have has : (positions u.stage? t).tenure (guards t trace) ≠ .none := by
    intro nothing
    rw [nothing] at signed
    exact signed
  have named := (run.held.agrees t).named (run.held.named t) has
  rcases free with unlocked | no_owner
  · exact run.held.owned.taken has unlocked
  · have owner := (run.held.owned.owner_eq_iff run.held.ids.distinct named).mpr signed
    exact named (owner.symm.trans no_owner)

/-- No waiting thread is overlooked. Threads test conditions, notify all at once and change the
value only with a guard, and after changes they broadcast before they give the lock up. Then, in
every state of every run in which no thread holds the lock (the word is free, or nobody is the
owner), every node of the wait set belongs to a thread that has joined it and neither been popped
nor withdrawn, and if this thread waits for a condition, the condition is false on the value. -/
theorem no_waiter_overlooked {threads : Nat} (few : threads < 2 ^ 64)
    (run : System.Run (fun t _ => t < threads) { state := Monitor.new value settings } u trace)
    (lawful : Lawful trace) (orderly : Orderly trace) (announced : Announced trace)
    (free : u.state.lock.word = .unlocked ∨ u.state.lock.owner = 0) :
    ∀ n ∈ u.state.waiters.toList,
      ∃ stage, u.stage? (u.state.waiters.threadOf n) = some stage ∧ stage.phase = .queued n ∧
        ∀ condition, stage.condition? = some condition → (condition u.state.value).1 = false := by
  intro n inside
  obtain ⟨stage, here, queued⟩ := exists_stage_of_inside run inside
  refine ⟨stage, here, queued, ?_⟩
  intro condition asks
  have lawful_run : LawfulRun threads value settings u trace := ⟨few, run, lawful⟩
  have opens : ∀ a ∈ trace, (condition a.before.value).1 = false →
      (condition a.after.value).1 = true → Alters a := by
    intro a _ unmet met same
    rw [same, unmet] at met
    cases met
  rcases unmet_of_run lawful_run orderly opens (pending_of_condition run here asks)
    ⟨asks, Or.inr ⟨n, inside, queued⟩⟩ with unmet | ⟨w, owes⟩
  · exact unmet
  · exact absurd owes (not_owes_of_free lawful_run announced free)

end Run

/-- A number reaches a bound. -/
def reaches (bound number : Nat) : Bool × Nat :=
  (decide (bound ≤ number), number)

/-- Thread `0` waits until the number is two. Thread `1` makes it one on an inner level of the lock,
broadcasts and leaves, so that thread `0` tests its condition once more and waits again. -/
@[irreducible]
def gate : System (shared Nat) Unit × List (Turn (shared Nat)) :=
  let start : System (shared Nat) Unit := { state := Monitor.new 0 }
  let waiter : Action Nat Unit := Action.synchronized do
    let _ ← Action.waitUntil none (reaches 2)
  let changer : Action Nat Unit := Action.synchronized do
    let _ ← Action.synchronized (Action.access (· + 1))
    let _ ← Action.broadcast
  let turns := List.replicate 15 0 ++ List.replicate 24 1 ++ List.replicate 26 0
  ((start.assign 0 waiter).1.assign 1 changer).1.follow [] (turns.map fun t => (t, {}))

theorem no_waiter_overlooked_gate :
    gate.1.state.waiters.toList = [1] ∧ gate.1.state.lock.word = .unlocked ∧
      gate.1.state.value = 1 ∧ Orderly gate.2 ∧ Announced gate.2 ∧
      ∃ stage, gate.1.stage? 0 = some stage ∧ stage.phase = .queued 1 ∧
        ∀ condition, stage.condition? = some condition →
          (condition gate.1.state.value).1 = false := by
  have run : System.Run (fun t _ => t < 2) { state := Monitor.new 0 } gate.1 gate.2 := by
    unfold gate
    exact System.Run.follow (.assign 1 _ (.assign 0 _ .start rfl (by decide)) rfl (by decide)) _
  have lawful : Lawful gate.2 := by decide +kernel
  have orderly : Orderly gate.2 := by decide +kernel
  have announced : Announced gate.2 := by decide +kernel
  have queue : gate.1.state.waiters.toList = [1] := by decide +kernel
  have free : gate.1.state.lock.word = .unlocked := by decide +kernel
  have owner : gate.1.state.waiters.threadOf 1 = 0 := by decide +kernel
  have overlooked := no_waiter_overlooked (by decide) run lawful orderly announced (Or.inl free) 1
    (by rw [queue]; exact List.mem_singleton.mpr rfl)
  rw [owner] at overlooked
  exact ⟨queue, free, by decide +kernel, orderly, announced, overlooked⟩

end Interlock.Monitor

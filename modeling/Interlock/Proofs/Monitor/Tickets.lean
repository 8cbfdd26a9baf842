import Interlock.Proofs.Monitor.Testing
import Mathlib.Algebra.Order.BigOperators.Group.Finset

/-!
# Consumers and producers of tickets

The guarded value is a number of tickets. Consumers wait until they can take one; producers add
one and signal before they leave the lock. Whenever the lock is free and a wait is queued, there
are at least as many waits in progress whose nodes have been popped as there are tickets, so no
ticket is left to waits that have not been notified.

Each thread is worth as many tickets as it is bound to use or to pass on (`worth`): one if its wait
has been notified and has neither ended nor notified another wait, one if it is about to test the
condition, and one if it is about to signal. The tickets never exceed the worth of all threads while
a wait is queued (`Served`). A thread that has found no ticket keeps the lock until it has joined
the wait set, so that there still is none when it joins.
-/

namespace Interlock.Monitor

variable {V β γ : Type}

/-- Take a ticket if there is one. -/
def take (tickets : Nat) : Bool × Nat :=
  (decide (0 < tickets), tickets - 1)

/-- The program uses the tickets as consumers and producers do: it waits only for a ticket, and it
changes the number of tickets only by adding one and signalling next. -/
def Trading : Action Nat β → Prop
  | .done _ => True
  | .call (.wait _) _ => False
  | .call (.waitUntil _ condition) next => condition = take ∧ ∀ reply, Trading (next reply)
  | .call (.access f) next => f = (· + 1) ∧
      ∀ reply, Trading (next reply) ∧ ∃ rest, next reply = .call .signal rest
  | .call _ next => ∀ reply, Trading (next reply)

/-- A consumer: wait for a ticket and take it. -/
def consume (timeout : Option Nat) : Action Nat (Except Fault Bool × Nat) :=
  Action.synchronized (Action.waitUntil timeout take)

/-- A producer: add a ticket and notify a consumer. -/
def produce : Action Nat Bool :=
  Action.synchronized do
    let _ ← Action.access (· + 1)
    Action.signal

namespace Trading

theorem next {call : Call Nat} {next : Reply Nat → Action Nat β}
    (trading : Trading (.call call next)) (reply : Reply Nat) : Trading (next reply) := by
  cases call with
  | wait timeout => exact trading.elim
  | waitUntil timeout condition => exact trading.2 reply
  | access f => exact (trading.2 reply).1
  | _ => exact trading reply

theorem bind {program : Action Nat β} {f : β → Action Nat γ} (first : Trading program)
    (rest : ∀ b, Trading (f b)) : Trading (program.bind f) := by
  induction program with
  | done b => exact rest b
  | call call next ih =>
    have goes_on (reply : Reply Nat) := ih reply (first.next reply)
    cases call with
    | wait timeout => exact first.elim
    | waitUntil timeout condition => exact ⟨first.1, goes_on⟩
    | access g =>
      refine ⟨first.1, fun reply => ⟨goes_on reply, ?_⟩⟩
      obtain ⟨-, later, signals⟩ := first.2 reply
      exact ⟨fun reply => (later reply).bind f, congrArg (·.bind f) signals⟩
    | _ => exact goes_on

theorem synchronized {body : Action Nat β} (inner : Trading body) :
    Trading (Action.synchronized body) :=
  fun _ => inner.bind fun _ _ => trivial

theorem consume (timeout : Option Nat) : Trading (consume timeout) :=
  synchronized ⟨rfl, fun _ => trivial⟩

theorem produce : Trading produce :=
  synchronized ⟨rfl, fun _ => ⟨fun _ => trivial, _, rfl⟩⟩

end Trading

theorem guarded_consume (timeout : Option Nat) : Guarded 0 0 (consume timeout) :=
  Guarded.synchronized ⟨fun _ => Nat.one_pos, fun _ _ => rfl⟩

theorem guarded_produce : Guarded 0 0 produce :=
  Guarded.synchronized
    ⟨fun _ => Nat.one_pos, fun _ _ => ⟨fun _ => Nat.one_pos, fun _ _ => rfl⟩⟩

/-- What a wait is worth: a ticket if it has been notified and has neither ended nor notified
another wait. -/
def Phase.worth (s : WaitSet) : Phase → Nat
  | idle | handing _ _ => 0
  | queued n | returning n _ | deciding n _ | passing n _ => (s.isNotified n).toNat

/-- What a thread at a stage is worth. -/
def Stage.worth (s : WaitSet) : Stage V → Nat
  | identifying next => next.worth s
  | waiting wait | pausing _ _ _ wait => wait.phase.worth s
  | testing _ _ _ | notifying false => 1
  | _ => 0

/-- What a thread is worth. -/
def worth (s : WaitSet) (stage? : Option (Stage V)) : Nat :=
  stage?.elim 0 (Stage.worth s)

/-- While a wait is queued there are no more tickets than the threads are worth, and there is none
while a thread that has found none has not joined. -/
structure Served (threads : Nat) (m : Monitor Nat) (stages : Nat → Option (Stage Nat)) : Prop where
  balance : m.waiters.toList = [] ∨ m.value ≤ ∑ t ∈ Finset.range threads, worth m.waiters (stages t)
  broke : ∀ t stage, stages t = some stage → stage.Broke → m.value = 0

/-- What an access of a thread may do to the tickets, where the thread was worth `before` and is
then worth `after`: the queue becomes empty; no ticket is left; the tickets do not grow by more than
the thread's worth; or another wait is popped in place of one ticket of the thread's worth. -/
inductive Trade (s s' : WaitSet) (tickets tickets' : Nat) (popped : List Nat) (before after : Nat) :
    Prop where
  | empties (nobody : s'.toList = [])
  | sellsOut (none_left : tickets' = 0)
  | balances (queued : s'.toList ≠ [] → s.toList ≠ []) (count : tickets' + before ≤ tickets + after)
  | notifies (pops : popped ≠ []) (same : tickets' = tickets) (count : before ≤ after + 1)

section Worth

variable {s s' : WaitSet} {queue queue' popped : List Nat} {own : Option Nat} {p : Phase}
  {t n threads : Nat}

theorem Phase.worth_le_one : p.worth s ≤ 1 := by
  cases p <;> simp [worth, Bool.toNat_le]

theorem Phase.worth_mono (flags : ∀ n, s.isNotified n → s'.isNotified n) :
    p.worth s ≤ p.worth s' := by
  cases p with
  | idle | handing => exact Nat.le_refl _
  | queued n | returning n | deciding n | passing n =>
    simp only [worth]
    have flag := flags n
    cases notified : s.isNotified n
    · exact Nat.zero_le _
    · rw [flag notified]

theorem Stage.worth_mono (flags : ∀ n, s.isNotified n → s'.isNotified n) :
    ∀ stage : Stage V, stage.worth s ≤ stage.worth s'
  | identifying next => Stage.worth_mono flags next
  | waiting _ | pausing _ _ _ _ => Phase.worth_mono flags
  | testing _ _ _ | notifying false => Nat.le_refl _
  | notifying true | locking _ | comparing | limiting _ _ | timing _ _ _ _ | waking _ _ | probing
  | counting | accessing _ | raising _ _ | peeking _ | taking _ => Nat.le_refl _

theorem worth_mono (flags : ∀ n, s.isNotified n → s'.isNotified n) (stage? : Option (Stage V)) :
    worth s stage? ≤ worth s' stage? := by
  cases stage? with
  | none => exact Nat.le_refl _
  | some stage => exact Stage.worth_mono flags stage

/-- A thread in a wait with a node is worth what the wait is worth. -/
theorem Stage.worth_of_node : ∀ stage : Stage V, stage.phase.node? = some n →
    stage.worth s = stage.phase.worth s
  | identifying next, mine => Stage.worth_of_node next mine
  | waiting _, _ | pausing _ _ _ _, _ => rfl

/-- A thread in a queued wait is worth a ticket if the wait has been notified. -/
theorem worth_of_queued {stages : Nat → Option (Stage V)} (waits : phases stages t = .queued n) :
    worth s (stages t) = (s.isNotified n).toNat := by
  unfold phases at waits
  cases here : stages t with
  | none =>
    rw [here] at waits
    cases waits
  | some stage =>
    rw [here] at waits
    have phase : stage.phase = .queued n := waits
    have same := Stage.worth_of_node (s := s) stage (by rw [phase]; rfl)
    rw [phase] at same
    exact same

/-- A queued wait pops no node. -/
theorem Phase.Moves.popped_of_queued {p' : Phase} {e : Entry}
    (moves : (Phase.queued n).Moves t s s' p' e) : e.popped = [] := by
  cases moves <;> rfl

theorem sum_toNat (p : Nat → Bool) (n : Nat) :
    ∑ t ∈ Finset.range n, (p t).toNat = (List.range n).countP p := by
  induction n with
  | zero => rfl
  | succ n ih =>
    rw [Finset.sum_range_succ, ih, List.range_succ, List.countP_append, List.countP_singleton]
    cases p n <;> rfl

theorem Phase.worth_le : p.worth s ≤ (p.node?.any s.isNotified).toNat := by
  cases p with
  | idle | handing => exact Nat.zero_le _
  | queued | returning | deciding | passing => exact Nat.le_refl _

/-- If no other thread is worth less than before, only one thread's loss counts. -/
theorem sum_le_of_others {f g : Nat → Nat} (member : t < threads)
    (others : ∀ r, r ≠ t → f r ≤ g r) :
    ∑ r ∈ Finset.range threads, f r + g t ≤ ∑ r ∈ Finset.range threads, g r + f t := by
  have inside : t ∈ Finset.range threads := Finset.mem_range.mpr member
  have rest : ∑ r ∈ Finset.range threads \ {t}, f r ≤ ∑ r ∈ Finset.range threads \ {t}, g r :=
    Finset.sum_le_sum fun r away => others r (by simp at away; exact away.2)
  rw [Finset.sum_eq_add_sum_sdiff_singleton_of_mem inside f,
    Finset.sum_eq_add_sum_sdiff_singleton_of_mem inside g]
  omega

/-- If moreover one of the others is worth more, one more may be lost. -/
theorem sum_lt_of_others {f g : Nat → Nat} (member : t < threads)
    (others : ∀ r, r ≠ t → f r ≤ g r) {r : Nat} (other : r ≠ t) (member_r : r < threads)
    (more : f r < g r) :
    ∑ r ∈ Finset.range threads, f r + g t < ∑ r ∈ Finset.range threads, g r + f t := by
  have inside : t ∈ Finset.range threads := Finset.mem_range.mpr member
  have rest : ∑ r ∈ Finset.range threads \ {t}, f r < ∑ r ∈ Finset.range threads \ {t}, g r := by
    refine Finset.sum_lt_sum (fun r away => others r (by simp at away; exact away.2)) ⟨r, ?_, more⟩
    simp [other, member_r]
  rw [Finset.sum_eq_add_sum_sdiff_singleton_of_mem inside f,
    Finset.sum_eq_add_sum_sdiff_singleton_of_mem inside g]
  omega

/-- The thread of a node that is popped is worth a ticket more. -/
theorem Enrolled.worth_lt_of_popped {stages : Nat → Option (Stage V)}
    (enrolled : Enrolled s queue (phases stages)) (shifts : s.Shifts queue popped own s' queue')
    (inside : n ∈ popped) :
    worth s (stages (s.threadOf n)) < worth s' (stages (s.threadOf n)) := by
  have queued := shifts.before n inside
  have waits := enrolled.waiting n queued
  have fits := enrolled.fits (s.threadOf n)
  rw [waits] at fits
  rw [worth_of_queued waits, worth_of_queued waits, (shifts.notified n).mpr (Or.inl inside),
    Bool.eq_false_iff.mpr (fits.mp queued)]
  exact Nat.one_pos

/-- What an access of a wait means for the tickets, if the thread is then worth no less than the
wait is, and a ticket if the wait ends with its notification. -/
theorem Phase.Moves.trade {p' : Phase} {e : Entry} {tickets after : Nat}
    (represents : s.Represents queue) (moves : p.Moves t s s' p' e)
    (broke : p.node? = none → tickets = 0) (kept : p'.worth s' ≤ after)
    (used : ∀ n, e.ended = some (n, .ok .notified) → 1 ≤ after) :
    Trade s s' tickets tickets e.popped (p.worth s) after := by
  have at_most_one : p.worth s ≤ 1 := Phase.worth_le_one
  cases moves with
  | stays | refuses | regains | expires | cancels | expiresLate | hands =>
    exact .balances id (Nat.add_le_add_left kept tickets)
  | joins => exact .sellsOut (broke rfl)
  | @withdraws n =>
    have more : (Phase.queued n).worth s ≤ (Phase.queued n).worth (s.remove n).1 :=
      Phase.worth_mono fun k notified =>
        ((WaitSet.marks_remove s n).notified k).mpr (Or.inr notified)
    refine .balances (fun some_queued none_queued => some_queued ?_)
      (Nat.add_le_add_left (Nat.le_trans more kept) tickets)
    rw [represents.toList_eq] at none_queued
    subst none_queued
    exact (represents.remove n).1.toList_eq
  | succeeds | succeedsLate =>
    have enough := used _ rfl
    exact .balances id (by omega)
  | passesNobody nobody | signalsNobody nobody =>
    refine .empties ?_
    rw [represents.toList_eq]
    exact represents.eq_nil_of_pop nobody
  | passes pops | signals pops =>
    obtain ⟨n, rest, rfl, -⟩ := represents.eq_cons_of_pop pops
    refine .notifies ?_ rfl (by omega)
    rw [represents.head_eq]
    exact nofun
  | broadcasts => exact .empties represents.popAll.2.1.toList_eq

end Worth

section Access

variable {t : Nat} {chance : Chance} {m m' : Monitor Nat} {stage : Stage Nat} {call : Call Nat}
  {next : Reply Nat → Action Nat β} {progress : Progress (Stage Nat) (Reply Nat)}

/-- What a thread is worth after an access, when it has gone on with its program. -/
def worthAfter (s : WaitSet) (next : Reply Nat → Action Nat β)
    (progress : Progress (Stage Nat) (Reply Nat)) : Nat :=
  worth s (Activity.after next progress : Activity (shared Nat) β × Option β).1.stage?

theorem Waiting.advance_trade {wait : Waiting} {queue : List Nat} {after : Nat}
    {progress : Progress Waiting (Except Fault Ending)} (represents : m.waiters.Represents queue)
    (moves : wait.advance t chance m = some (m', progress))
    (broke : wait.phase.node? = none → m.value = 0)
    (kept : (waitPhase progress).worth m'.waiters ≤ after)
    (used : ∀ result, progress = .finished (.ok result) → 1 ≤ after) :
    Trade m.waiters m'.waiters m.value m'.value (wait.entry m.waiters progress).popped
      (wait.phase.worth m.waiters) after := by
  rw [(Waiting.advance_frame moves).1]
  refine (Waiting.advance_phases moves).trade represents broke kept fun n ended => ?_
  cases progress with
  | ongoing wait => cases ended
  | finished result =>
    cases ended
    exact used .notified rfl

/-- What an access means for the tickets. -/
theorem Stage.advance_trade (of : stage.Of call) (trading : Trading (.call call next))
    {queue : List Nat} (represents : m.waiters.Represents queue)
    (moves : stage.advance t chance m = some (m', progress)) (broke : stage.Broke → m.value = 0) :
    Trade m.waiters m'.waiters m.value m'.value (stage.entry t chance m).popped
      (stage.worth m.waiters) (worthAfter m'.waiters next progress) := by
  -- most accesses are of a thread that is worth nothing, and leave the wait set and the value alone
  have quiet (waiters : m'.waiters = m.waiters) (value : m'.value = m.value)
      (nothing : stage.worth m.waiters = 0) :
      Trade m.waiters m'.waiters m.value m'.value (stage.entry t chance m).popped
        (stage.worth m.waiters) (worthAfter m'.waiters next progress) := by
    rw [waiters, value, nothing]
    exact .balances id (Nat.le_add_right ..)
  cases stage with
  | identifying begins =>
    cases moves
    refine quiet ?_ ?_ ?_
    · unfold identify
      split <;> rfl
    · unfold identify
      split <;> rfl
    · rcases of with ⟨rfl, -⟩ | ⟨rfl, -⟩ | ⟨rfl, -⟩ <;> rfl
  | waiting wait =>
    obtain ⟨timeout, rfl⟩ := of
    exact trading.elim
  | testing deadline condition tests =>
    obtain ⟨timeout, rfl⟩ := of
    obtain rfl := trading.1
    obtain rfl := advance_testing moves
    by_cases sold_out : m.value = 0
    · exact .sellsOut (by simp [take, sold_out])
    · refine .balances id ?_
      simp only [take, worth]
      omega
  | accessing f =>
    obtain rfl := of
    obtain ⟨rfl, goes_on⟩ := trading
    cases moves
    obtain ⟨-, rest, signals⟩ := goes_on (.values m.value (m.value + 1))
    have one : worthAfter m.waiters next
        (.finished (.values m.value (m.value + 1)) : Progress (Stage Nat) (Reply Nat)) = 1 := by
      simp [worthAfter, Activity.after, signals]
      rfl
    refine .balances id ?_
    rw [one]
    exact Nat.le_refl _
  | pausing deadline condition tests wait =>
    simp only [advance] at moves
    split at moves
    · cases moves
    all_goals
      rename_i moves_wait
      cases moves
      simp only [entry, moves_wait]
      refine Waiting.advance_trade represents moves_wait broke ?_ ?_
    · exact Nat.le_refl _
    · intro _ ended
      cases ended
    · exact Nat.zero_le _
    · exact fun _ _ => Nat.le_refl _
    · exact Nat.zero_le _
    · intro _ ended
      cases ended
  | notifying all =>
    cases all with
    | false =>
      simp only [advance] at moves
      split at moves
      · rename_i nobody
        cases moves
        refine .empties ?_
        rw [represents.toList_eq]
        exact represents.eq_nil_of_pop nobody
      · rename_i pops
        cases moves
        obtain ⟨n, rest, rfl, -⟩ := represents.eq_cons_of_pop pops
        refine .notifies ?_ rfl (Nat.le_add_left ..)
        simp [entry, represents.head_eq]
    | true =>
      have none_queued := represents.popAll.2.1.toList_eq
      simp only [advance] at moves
      split at moves
      all_goals
        rename_i pops
        cases moves
        rw [pops] at none_queued
        exact .empties none_queued
  | waking threads reply =>
    rcases threads with _ | ⟨_, _ | _⟩
    all_goals
      cases moves
      exact quiet rfl rfl rfl
  | _ =>
    simp only [advance] at moves
    repeat' split at moves
    all_goals cases moves
    all_goals exact quiet rfl rfl rfl

/-- A thread that has found no ticket has just done so, or had done so before. -/
theorem Stage.advance_broke {after : Stage Nat} (of : stage.Of call)
    (trading : Trading (.call call next))
    (moves : stage.advance t chance m = some (m', .ongoing after)) (broke : after.Broke) :
    m'.value = 0 ∨ stage.Broke ∧ m'.value = m.value := by
  obtain ⟨condition, asks⟩ := broke.condition
  rcases Stage.broke_before of moves broke asks with
    ⟨deadline, tests, rfl, failed⟩ | ⟨before, -, same⟩
  · left
    obtain ⟨timeout, rfl⟩ := of
    obtain rfl := trading.1
    have none_left : m.value = 0 := by simpa [take] using failed
    rw [advance_testing moves]
    simp [take, none_left]
  · exact Or.inr ⟨before, same⟩

end Access

/-- A thread that begins a program or goes on to its next call has not just found no ticket. -/
theorem not_broke_of_begins {program : Action Nat β} {stage : Stage Nat}
    (begins : (Activity.ofProgram program : Activity (shared Nat) β × Option β).1.stage? =
      some stage) : ¬ stage.Broke := by
  rcases Activity.stage?_ofProgram (O := shared Nat) program with ends | ⟨call, enters⟩
  · rw [ends] at begins
    cases begins
  · rw [enters] at begins
    cases begins
    intro broke
    cases call with
    | waitUntil timeout condition => cases timeout <;> exact broke.elim
    | _ => exact broke.elim

namespace Served

variable {threads : Nat} {stages : Nat → Option (Stage Nat)} {a : Turn (shared Nat)}
  {call : Call Nat} {next : Reply Nat → Action Nat β} {trace : List (Turn (shared Nat))}

/-- After an access of a thread the threads are worth as many tickets as there are. -/
theorem balance_access {stage? : Option (Stage Nat)} (served : Served threads a.before stages)
    (accounted : Accounted threads a.before.waiters a.before.waiters.toList (phases stages) trace)
    (member : a.thread < threads) (here : stages a.thread = some a.stage) (taken : a.Taken)
    (trade : Trade a.before.waiters a.after.waiters a.before.value a.after.value (entry a).popped
      (a.stage.worth a.before.waiters) (worth a.after.waiters stage?)) :
    a.after.waiters.toList = [] ∨ a.after.value ≤
      ∑ t ∈ Finset.range threads, worth a.after.waiters
        (Function.update stages a.thread stage? t) := by
  have enrolled := accounted.enrolled
  have moves := phases_moves here taken
  obtain ⟨queue', shifts, -⟩ := enrolled.access moves
  have others : ∀ r, r ≠ a.thread → worth a.before.waiters (stages r) ≤
      worth a.after.waiters (Function.update stages a.thread stage? r) := by
    intro r other
    rw [Function.update_of_ne other]
    exact worth_mono (fun n notified => (shifts.notified n).mpr (Or.inr notified)) _
  have worth_t : worth a.before.waiters (stages a.thread) = a.stage.worth a.before.waiters := by
    rw [here]
    rfl
  cases trade with
  | empties nobody => exact Or.inl nobody
  | sellsOut none_left =>
    right
    rw [none_left]
    exact Nat.zero_le _
  | balances queued count =>
    refine or_iff_not_imp_left.mpr fun some_queued => ?_
    have before := served.balance.resolve_left (queued some_queued)
    have sum := sum_le_of_others member others
    rw [worth_t, Function.update_self] at sum
    omega
  | notifies pops same count =>
    right
    obtain ⟨n, popped⟩ := List.exists_mem_of_ne_nil _ pops
    have inside := shifts.before n popped
    have before := served.balance.resolve_left (List.ne_nil_of_mem inside)
    have waits := enrolled.waiting n inside
    -- the thread that pops is not the one that is popped, since a queued wait pops nothing
    have other : a.before.waiters.threadOf n ≠ a.thread := by
      intro same
      rw [same] at waits
      rw [waits] at moves
      exact pops moves.popped_of_queued
    have member_r := accounted.member _ n (by rw [waits]; rfl)
    have more : worth a.before.waiters (stages (a.before.waiters.threadOf n)) <
        worth a.after.waiters
          (Function.update stages a.thread stage? (a.before.waiters.threadOf n)) := by
      rw [Function.update_of_ne other]
      exact enrolled.worth_lt_of_popped shifts popped
    have sum := sum_lt_of_others member others other member_r more
    rw [worth_t, Function.update_self] at sum
    omega

/-- Every access keeps the threads worth as many tickets as there are. -/
theorem access (served : Served threads a.before stages)
    (accounted : Accounted threads a.before.waiters a.before.waiters.toList (phases stages) trace)
    (member : a.thread < threads) (here : stages a.thread = some a.stage) (taken : a.Taken)
    (of : a.stage.Of call) (trading : Trading (.call call next))
    (alone : ∀ f, a.stage = .accessing f → ∀ t stage, stages t = some stage → ¬ stage.Broke) :
    Served threads a.after (Function.update stages a.thread
      (Activity.after next a.progress : Activity (shared Nat) β × Option β).1.stage?) := by
  have trade := Stage.advance_trade of trading accounted.enrolled.represents taken
    (served.broke a.thread a.stage here)
  refine ⟨served.balance_access accounted member here taken trade, ?_⟩
  intro t stage at_stage broke
  by_cases same : t = a.thread
  · subst same
    rw [Function.update_self] at at_stage
    cases ending : a.progress with
    | ongoing after =>
      rw [ending] at at_stage
      cases at_stage
      have goes_on : a.stage.advance a.thread a.chance a.before =
          some (a.after, .ongoing stage) := ending ▸ taken
      rcases Stage.advance_broke of trading goes_on broke with none_left | ⟨before, same⟩
      · exact none_left
      · exact same.trans (served.broke a.thread a.stage here before)
    | finished reply =>
      rw [ending] at at_stage
      exact absurd broke (not_broke_of_begins at_stage)
  · rw [Function.update_of_ne same] at at_stage
    have none_left := served.broke t stage at_stage broke
    rcases Stage.advance_value taken with value | ⟨deadline, condition, tests, at_test, after⟩ |
      ⟨f, at_access, -⟩
    · exact value.trans none_left
    · rw [at_test] at of
      obtain ⟨timeout, rfl⟩ := of
      rw [after, trading.1]
      simp [take, none_left]
    · exact absurd broke (alone f at_access t stage at_stage)

/-- A thread begins a program or goes on to its next call. -/
theorem begin {m : Monitor Nat} (served : Served threads m stages) {t : Nat} (member : t < threads)
    (none_t : stages t = none) (program : Action Nat β) :
    Served threads m (Function.update stages t
      (Activity.ofProgram program : Activity (shared Nat) β × Option β).1.stage?) := by
  refine ⟨served.balance.imp_right fun before => ?_, ?_⟩
  · have sum := sum_le_of_others (f := fun r => worth m.waiters (stages r))
      (g := fun r => worth m.waiters (Function.update stages t
        (Activity.ofProgram program : Activity (shared Nat) β × Option β).1.stage? r)) member
      fun r other => by rw [Function.update_of_ne other]
    have nothing : worth m.waiters (stages t) = 0 := by rw [none_t]; rfl
    rw [nothing] at sum
    omega
  · intro r stage at_stage broke
    by_cases same : r = t
    · subst same
      rw [Function.update_self] at at_stage
      exact absurd broke (not_broke_of_begins at_stage)
    · rw [Function.update_of_ne same] at at_stage
      exact served.broke r stage at_stage broke

end Served

/-- The threads that follow the rules of consumers and producers. -/
def trades (threads : Nat) (t : Nat) (program : Action Nat β) : Prop :=
  t < threads ∧ Guarded 0 0 program ∧ Trading program

/-- A thread that has no guard where it would need one is worth no more than its wait. -/
theorem Stage.Of.worth_le {s : WaitSet} {call : Call V} {stage : Stage V} (of : stage.Of call)
    (unguarded : stage.position = .outside → ¬ call.NeedsGuard) :
    stage.worth s ≤ (stage.phase.node?.any s.isNotified).toNat := by
  cases stage with
  | identifying next => rcases of with ⟨rfl, -⟩ | ⟨rfl, -⟩ | ⟨rfl, -⟩ <;> exact Nat.zero_le _
  | waiting wait | pausing deadline condition tests wait => exact Phase.worth_le
  | testing deadline condition tests =>
    obtain ⟨timeout, rfl⟩ := of
    exact absurd trivial (unguarded rfl)
  | notifying all =>
    cases all with
    | false =>
      obtain rfl := of
      exact absurd trivial (unguarded rfl)
    | true => exact Nat.zero_le _
  | _ => exact Nat.zero_le _

section Run

variable {threads tickets : Nat} {settings : Settings} {u : System (shared Nat) β}
  {trace : List (Turn (shared Nat))}

theorem busy_of_stage? {t : Nat} {stage : Stage Nat} (here : u.stage? t = some stage) :
    ∃ next, u.threads.get t = .busy stage next := by
  unfold System.stage? at here
  cases doing : u.threads.get t with
  | idle =>
    rw [doing] at here
    cases here
  | busy stage' next =>
    rw [doing] at here
    cases here
    exact ⟨next, rfl⟩

/-- What each thread is doing in a run of consumers and producers. -/
theorem sound_of_trades
    (run : System.Run (trades threads) { state := Monitor.new tickets settings } u trace) :
    Lawful trace ∧ ∀ t, Sound Trading (guards t trace) (u.threads.get t) :=
  sound_of_run (fun _ _ reply trading _ => trading.next reply) (fun _ _ may => may.2) run
    fun t => by rw [Table.get_empty]; rfl

/-- A thread that is about to test a condition, to access the value or to signal, or that has found
no ticket, has a guard. -/
theorem guard_of_stage? {t : Nat} {stage : Stage Nat}
    (run : System.Run (trades threads) { state := Monitor.new tickets settings } u trace)
    (here : u.stage? t = some stage) (needs : ∀ call, stage.Of call → call.NeedsGuard) :
    0 < guards t trace := by
  obtain ⟨next, busy⟩ := busy_of_stage? here
  have sound := (sound_of_trades run).2 t
  rw [busy] at sound
  obtain ⟨call, of, guarded, -⟩ := sound
  exact guarded.1 (needs call of)

/-- In every state of a run of consumers and producers the threads are worth as many tickets as
there are, or no wait is queued. -/
theorem served_of_run (few : threads < 2 ^ 64)
    (run : System.Run (trades threads) { state := Monitor.new tickets settings } u trace) :
    Served threads u.state u.stage? := by
  induction run with
  | start =>
    refine ⟨Or.inl rfl, fun t stage here => ?_⟩
    rw [System.stage?_start] at here
    cases here
  | @assign u trace t program _ free may ih =>
    have none_t : u.stage? t = none := (Activity.isIdle_iff_stage? _).mp free
    have begins := ih.begin may.1 none_t program
    rwa [← System.stage?_set u u.state t] at begins
  | @access u trace a next before here busy taken ih =>
    have anyone : System.Run (fun t _ => t < threads) { state := Monitor.new tickets settings } u
        trace := before.mono fun _ _ may => may.1
    have held := held_of_run few anyone (sound_of_trades before).1
    have sound := (sound_of_trades before).2 a.thread
    rw [busy] at sound
    obtain ⟨call, of, -, trading⟩ := sound
    have at_stage : u.stage? a.thread = some a.stage := System.stage?_of_busy busy
    have member : a.thread < threads :=
      anyone.member (System.stage?_start _) (fun _ _ member => member) a.thread
        (by simp [at_stage])
    rw [System.stage?_set]
    refine Served.access (here ▸ ih) (here ▸ (accounted_of_run anyone).1) member at_stage taken of
      trading ?_
    intro f at_access t stage at_broke broke
    have guard_t := guard_of_stage? before at_broke fun call of => of.needsGuard_of_broke broke
    have guard_a := guard_of_stage? before at_stage fun call of => by
      rw [at_access] at of
      obtain rfl := of
      trivial
    have same := held.alone (s := t) (t := a.thread)
      (by rw [positions_of_some at_broke, Stage.position_of_broke broke]) guard_t
      (by rw [positions_of_some at_stage, at_access]; rfl) guard_a
    rw [same, at_stage] at at_broke
    cases at_broke
    rw [at_access] at broke
    exact broke
  | elapse time _ ih => exact ⟨ih.balance, ih.broke⟩

/-- In every state of a run of consumers and producers in which no thread holds the lock (the word
is free, or nobody is the owner): if a wait is queued, there are at least as many waits in progress
whose nodes have been popped as there are tickets. -/
theorem no_stranded_ticket (few : threads < 2 ^ 64)
    (run : System.Run (trades threads) { state := Monitor.new tickets settings } u trace)
    (free : u.state.lock.word = .unlocked ∨ u.state.lock.owner = 0)
    (waiting : u.state.waiters.toList ≠ []) :
    u.state.value ≤ (List.range threads).countP (waitsPopped u) := by
  have anyone : System.Run (fun t _ => t < threads) { state := Monitor.new tickets settings } u
      trace := run.mono fun _ _ may => may.1
  have held := held_of_run few anyone (sound_of_trades run).1
  have worth_le (t : Nat) : worth u.state.waiters (u.stage? t) ≤ (waitsPopped u t).toNat := by
    unfold waitsPopped
    cases here : u.stage? t with
    | none => exact Nat.zero_le _
    | some stage =>
      obtain ⟨next, busy⟩ := busy_of_stage? here
      have sound := (sound_of_trades run).2 t
      rw [busy] at sound
      obtain ⟨call, of, guarded, -⟩ := sound
      refine of.worth_le fun outside needs => ?_
      exact held.not_guarded ((positions_of_some here).trans outside) free (guarded.1 needs)
  calc u.state.value
      ≤ ∑ t ∈ Finset.range threads, worth u.state.waiters (u.stage? t) :=
        (served_of_run few run).balance.resolve_left waiting
    _ ≤ ∑ t ∈ Finset.range threads, (waitsPopped u t).toNat :=
        Finset.sum_le_sum fun t _ => worth_le t
    _ = (List.range threads).countP (waitsPopped u) := sum_toNat (waitsPopped u) threads

end Run

/-- Threads `1` and `2` wait for a ticket. Thread `0` interrupts thread `1` and then adds a ticket;
its signal reaches thread `1` after it has seen the interrupt. -/
def market : System (shared Nat) Unit × List (Turn (shared Nat)) :=
  let start : System (shared Nat) Unit := { state := Monitor.new 0 { spinLimit := 1 } }
  let consumer : Action Nat Unit := do
    let _ ← consume none
  let producer : Action Nat Unit := do
    Action.interrupt 1 none
    let _ ← produce
  let turns := List.replicate 13 1 ++ List.replicate 13 2 ++ List.replicate 3 0 ++
    List.replicate 3 1 ++ List.replicate 11 0 ++ [1]
  (((start.assign 0 producer).1.assign 1 consumer).1.assign 2 consumer).1.follow []
    (turns.map fun t => (t, {}))

theorem no_stranded_ticket_market :
    System.Run (trades 3) { state := Monitor.new 0 { spinLimit := 1 } } market.1 market.2 ∧
      market.1.state.lock.word = .unlocked ∧ market.1.state.waiters.toList = [1] ∧
      market.1.state.value = 1 ∧ 1 ≤ (List.range 3).countP (waitsPopped market.1) := by
  have consumer {t : Nat} (member : t < 3) :
      trades 3 t ((consume none).bind fun _ => .done () : Action Nat Unit) :=
    ⟨member, (guarded_consume none).bind fun _ => rfl,
      (Trading.consume none).bind fun _ => trivial⟩
  have producer : trades 3 0 ((Action.interrupt 1 none).bind fun _ =>
      produce.bind fun _ => .done () : Action Nat Unit) :=
    ⟨by decide, ⟨False.elim, fun _ _ => guarded_produce.bind fun _ => rfl⟩,
      fun _ => Trading.produce.bind fun _ => trivial⟩
  have run : System.Run (trades 3) { state := Monitor.new 0 { spinLimit := 1 } } market.1
      market.2 :=
    System.Run.follow (.assign 2 _ (.assign 1 _ (.assign 0 _ .start rfl producer)
      (by decide +kernel) (consumer (by decide))) (by decide +kernel) (consumer (by decide))) _
  have free : market.1.state.lock.word = .unlocked := by decide +kernel
  have queued : market.1.state.waiters.toList = [1] := by decide +kernel
  have one : market.1.state.value = 1 := by decide +kernel
  have served := no_stranded_ticket (by decide) run (Or.inl free) (by rw [queued]; exact nofun)
  rw [one] at served
  exact ⟨run, free, queued, one, served⟩

end Interlock.Monitor

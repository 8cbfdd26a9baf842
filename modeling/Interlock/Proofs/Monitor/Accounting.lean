import Interlock.Monitor.Action
import Interlock.Proofs.Monitor.Enrolment
import Mathlib.Algebra.BigOperators.Group.Finset.Piecewise
import Mathlib.Algebra.GroupWithZero.Nat

/-!
# The account of notifications

Every notification is accounted for: each node that has been popped is the node of a wait in
progress, or of one that has ended with the notification or was cancelled after it. A wait that
joined the wait set and ends in any other way than with its notification notifies one other wait
in its own place, once it is back on the lock.

The history of a wait is kept phase by phase in `Phase.Recorded` and, once it has ended, in
`Outcome`; `Accounted` holds of a state together with the accesses that have led to it.
-/

namespace Interlock.Monitor

variable {V β : Type}

/-- The nodes that some accesses have popped, the latest ones first. -/
def popped (trace : List (Turn (shared V))) : List Nat :=
  trace.flatMap fun a => (entry a).popped

/-- How often some accesses have notified a wait in the place of the wait with node `n`. -/
def passings (n : Nat) (trace : List (Turn (shared V))) : Nat :=
  trace.countP fun a => (entry a).passed = some n

/-- The wait with node `n` has come back to the lock. -/
def Regained (n : Nat) (trace : List (Turn (shared V))) : Prop :=
  ∃ a ∈ trace, (entry a).regained = some n

/-- The node of a wait that ends with an access. -/
def endedNode? (a : Turn (shared V)) : Option Nat :=
  (entry a).ended.bind Prod.fst

/-- The access ends a wait with its notification. -/
def endsNotified (a : Turn (shared V)) : Bool :=
  match (entry a).ended with
  | some (some _, .ok .notified) => true
  | _ => false

/-- The access ends a wait that is cancelled although its node has been popped. -/
def endsCancelled (a : Turn (shared V)) : Bool :=
  match (entry a).ended with
  | some (some n, .error (.cancelled _)) => a.before.waiters.isNotified n
  | _ => false

/-- The thread is in a wait whose node has been popped. -/
def waitsPopped (u : System (shared V) β) (t : Nat) : Bool :=
  (phaseOf (u.stage? t)).node?.any u.state.waiters.isNotified

/-- The number of threads that a notification reports. -/
def Reply.reported : Reply V → Nat
  | truth true => 1
  | count threads => threads
  | _ => 0

/-- What a notification in the place of a wait will report once it has popped a node. -/
def Phase.owed : Phase → Nat
  | handing _ _ => 1
  | _ => 0

/-- What a notification that has popped its nodes will report. -/
def Stage.owed : Stage V → Nat
  | identifying next => next.owed
  | waking _ reply => reply.reported
  | waiting wait | pausing _ _ _ wait => wait.phase.owed
  | _ => 0

/-- What a notification reports with an access that ends it. A wait that has notified another one
in its place wakes its thread with one access. -/
def Stage.reported : Stage V → Progress (Stage V) (Reply V) → Nat
  | waking _ _, .finished reply => reply.reported
  | waiting wait, _ | pausing _ _ _ wait, _ => wait.phase.owed
  | _, _ => 0

/-- What a thread's notification that has popped its nodes will report. -/
def owed (stage? : Option (Stage V)) : Nat :=
  stage?.elim 0 Stage.owed

/-- What the notifications that have ended have reported. -/
def reports (trace : List (Turn (shared V))) : Nat :=
  (trace.map fun a => a.stage.reported a.progress).sum

/-- What the accesses tell about a wait in progress. -/
def Phase.Recorded (trace : List (Turn (shared V))) : Phase → Prop
  | idle => True
  | queued n | returning n _ => passings n trace = 0
  | deciding n _ | passing n _ => Regained n trace ∧ passings n trace = 0
  | handing n _ => Regained n trace ∧ passings n trace = 1

/-- What is known of a wait that has ended with a result. -/
def Outcome (s : WaitSet) (n : Nat) (trace : List (Turn (shared V))) :
    Except Fault Ending → Prop
  | .ok .notified => s.isNotified n ∧ passings n trace = 0
  | .ok .expired => ¬ s.isNotified n ∧ passings n trace = 1
  | .error fault => (∃ message, fault = .cancelled message) ∧ passings n trace = 1

/-- What holds of the waits in progress, of those that have ended, and of the nodes that have been
popped, in every state of every run. -/
structure Accounted (threads : Nat) (s : WaitSet) (queue : List Nat) (P : Nat → Phase)
    (trace : List (Turn (shared V))) : Prop where
  enrolled : Enrolled s queue P
  member : ∀ t n, (P t).node? = some n → t < threads
  recorded : ∀ t, (P t).Recorded trace
  unmade : ∀ n, s.made ≤ n → passings n trace = 0
  once : (popped trace).Nodup
  flags : ∀ n, n ∈ popped trace ↔ s.isNotified n
  source : ∀ n ∈ popped trace, (∃ t, (P t).node? = some n) ∨ n ∈ trace.filterMap endedNode?
  refused : ∀ a ∈ trace, ∀ r, (entry a).ended = some (none, r) →
    ∃ message, r = .error (.cancelled message)
  ended : ∀ a ∈ trace, ∀ n r, (entry a).ended = some (some n, r) →
    n < s.made ∧ n ∉ queue ∧ (∀ t, (P t).node? ≠ some n) ∧ Outcome s n trace r ∧
      a.before.waiters.isNotified n = s.isNotified n
  endedOnce : (trace.filterMap endedNode?).Nodup
  order : ∀ newer a older, trace = newer ++ a :: older →
    (∀ n, (entry a).passed = some n → Regained n older) ∧
      ∀ n r, (entry a).ended = some (some n, r) → passings n newer = 0

section Moves

variable {s s' : WaitSet} {queue : List Nat} {P : Nat → Phase} {p p' : Phase} {t n : Nat}
  {e : Entry} {trace : List (Turn (shared V))}

theorem passings_cons (a : Turn (shared V)) :
    passings n (a :: trace) = passings n trace + if (entry a).passed = some n then 1 else 0 := by
  simp [passings, List.countP_cons]

theorem Regained.cons (regained : Regained n trace) (a : Turn (shared V)) :
    Regained n (a :: trace) := by
  obtain ⟨b, inside, back⟩ := regained
  exact ⟨b, List.mem_cons_of_mem a inside, back⟩

theorem endedNode?_eq_some {a : Turn (shared V)} :
    endedNode? a = some n ↔ ∃ r, (entry a).ended = some (some n, r) := by
  simp [endedNode?, Option.bind_eq_some_iff]

theorem mem_endedNodes : n ∈ trace.filterMap endedNode? ↔
    ∃ a ∈ trace, ∃ r, (entry a).ended = some (some n, r) := by
  simp [List.mem_filterMap, endedNode?_eq_some]

/-- What is known of a wait that has ended depends on its flag and on its accesses only. -/
theorem Outcome.congr {r : Except Fault Ending} {trace' : List (Turn (shared V))}
    (outcome : Outcome s n trace r) (flag : s'.isNotified n = s.isNotified n)
    (count : passings n trace' = passings n trace) : Outcome s' n trace' r := by
  unfold Outcome at outcome ⊢
  rw [flag, count]
  exact outcome

/-- An access that does not notify in the place of a wait tells nothing new about it. -/
theorem Phase.Recorded.cons (recorded : p.Recorded trace) (a : Turn (shared V))
    (same : ∀ n, p.node? = some n → passings n (a :: trace) = passings n trace) :
    p.Recorded (a :: trace) := by
  cases p with
  | idle => trivial
  | queued n | returning n => exact (same n rfl).trans recorded
  | deciding n | passing n | handing n => exact ⟨recorded.1.cons a, (same n rfl).trans recorded.2⟩

namespace Phase.Moves

/-- A wait keeps its node until it ends. -/
theorem node_or_ended (moves : p.Moves t s s' p' e) (mine : p.node? = some n) :
    p'.node? = some n ∨ p' = idle ∧ ∃ r, e.ended = some (some n, r) := by
  cases moves with
  | joins | refuses | signalsNobody | signals | broadcasts => cases mine
  | stays | withdraws | regains | expires | cancels | expiresLate | passes => exact Or.inl mine
  | succeeds | succeedsLate | passesNobody | hands =>
    cases mine
    exact Or.inr ⟨rfl, _, rfl⟩

/-- A wait that has a node had it before or joins with a new one. -/
theorem node_or_new (moves : p.Moves t s s' p' e) (mine : p'.node? = some n) :
    p.node? = some n ∨ n = s.made := by
  cases moves with
  | joins =>
    cases mine
    exact Or.inr rfl
  | stays | withdraws | regains | expires | cancels | expiresLate | passes => exact Or.inl mine
  | _ => cases mine

/-- A wait that ends had its node until then. -/
theorem of_ended {r : Except Fault Ending} (moves : p.Moves t s s' p' e)
    (ended : e.ended = some (some n, r)) : p.node? = some n ∧ p' = idle := by
  cases moves <;> cases ended <;> exact ⟨rfl, rfl⟩

/-- Only a wait that is about to do so notifies another one in its place. -/
theorem of_passed (moves : p.Moves t s s' p' e) (passed : e.passed = some n) :
    ∃ r, p = passing n r := by
  cases moves <;> cases passed <;> exact ⟨_, rfl⟩

/-- An access of another wait's thread does not notify in the place of a wait. -/
theorem passings_cons_of_ne {a : Turn (shared V)} (moves : p.Moves t s s' p' (entry a))
    (other : p.node? ≠ some n) : passings n (a :: trace) = passings n trace := by
  have not_passed : (entry a).passed ≠ some n := by
    intro passed
    obtain ⟨r, rfl⟩ := moves.of_passed passed
    exact other rfl
  rw [passings_cons, if_neg not_passed, Nat.add_zero]

/-- A popped node whose wait was in progress still has a wait in progress, or the wait has ended
now. -/
theorem source_cons {a : Turn (shared V)} {u : Nat}
    (moves : (P a.thread).Moves t s s' p' (entry a)) (mine : (P u).node? = some n) :
    (∃ u, (Function.update P a.thread p' u).node? = some n) ∨
      n ∈ (a :: trace).filterMap endedNode? := by
  by_cases same : u = a.thread
  · subst same
    rcases moves.node_or_ended mine with goes_on | ⟨-, r, closes⟩
    · exact Or.inl ⟨a.thread, by rwa [Function.update_self]⟩
    · exact Or.inr (mem_endedNodes.mpr ⟨a, List.mem_cons_self .., r, closes⟩)
  · exact Or.inl ⟨u, by rwa [Function.update_of_ne same]⟩

/-- A node without a wait gets none later. -/
theorem gone (moves : (P t).Moves t s s' p' e) (below : n < s.made)
    (gone : ∀ u, (P u).node? ≠ some n) (u : Nat) :
    (Function.update P t p' u).node? ≠ some n := by
  intro mine
  by_cases same : u = t
  · subst same
    rw [Function.update_self] at mine
    rcases moves.node_or_new mine with before | new
    · exact gone u before
    · exact Nat.ne_of_lt below new
  · rw [Function.update_of_ne same] at mine
    exact gone u mine

/-- A wait without a node ends only by being cancelled. -/
theorem of_refused {r : Except Fault Ending} (moves : p.Moves t s s' p' e)
    (ended : e.ended = some (none, r)) : ∃ message, r = .error (.cancelled message) := by
  cases moves <;> cases ended
  exact ⟨_, rfl⟩

/-- What the accesses tell about the wait after one more of them. -/
theorem recorded {a : Turn (shared V)} (moves : p.Moves t s s' p' (entry a))
    (unmade : passings s.made trace = 0) (recorded : p.Recorded trace) :
    p'.Recorded (a :: trace) := by
  have passed (n : Nat) : passings n (a :: trace) =
      passings n trace + if (entry a).passed = some n then 1 else 0 := passings_cons a
  have regains (n : Nat) (here : (entry a).regained = some n) : Regained n (a :: trace) :=
    ⟨a, List.mem_cons_self .., here⟩
  generalize entry a = e at moves passed regains
  cases moves with
  | stays => exact recorded.cons a fun n _ => passed n
  | joins => exact (passed s.made).trans unmade
  | withdraws => exact (passed _).trans recorded
  | regains | expires => exact ⟨regains _ rfl, (passed _).trans recorded⟩
  | cancels | expiresLate => exact ⟨recorded.1.cons a, (passed _).trans recorded.2⟩
  | passes =>
    refine ⟨recorded.1.cons a, ?_⟩
    rw [passed, recorded.2, if_pos rfl]
  | _ => trivial

/-- A wait that ends has the outcome that its result tells. -/
theorem outcome {a : Turn (shared V)} {r : Except Fault Ending}
    (moves : p.Moves t s s' p' (entry a)) (ended : (entry a).ended = some (some n, r))
    (recorded : p.Recorded trace) (fits : p.Fits s queue) : Outcome s n (a :: trace) r := by
  have passed : passings n (a :: trace) =
      passings n trace + if (entry a).passed = some n then 1 else 0 := passings_cons a
  generalize entry a = e at moves passed ended
  have in_place {r : Except Fault Ending} (once : passings n (a :: trace) = 1)
      (result : r = .ok .expired ∧ ¬ s.isNotified n ∨ ∃ message, r = .error (.cancelled message)) :
      Outcome s n (a :: trace) r := by
    rcases result with ⟨rfl, silent⟩ | ⟨message, rfl⟩
    · exact ⟨silent, once⟩
    · exact ⟨⟨message, rfl⟩, once⟩
  cases moves with
  | succeeds =>
    cases ended
    exact ⟨by simpa using fits.2, passed.trans recorded⟩
  | succeedsLate =>
    cases ended
    exact ⟨by simpa using fits.2, passed.trans recorded.2⟩
  | passesNobody =>
    cases ended
    refine in_place ?_ fits.2
    rw [passed, recorded.2, if_pos rfl]
  | hands =>
    cases ended
    exact in_place (passed.trans recorded.2) fits.2
  | _ => cases ended

end Phase.Moves

/-- A wait that has ended leaves its node without a wait. -/
theorem Enrolled.gone_of_ended {r : Except Fault Ending} (enrolled : Enrolled s queue P)
    (moves : (P t).Moves t s s' p' e) (ended : e.ended = some (some n, r)) (u : Nat) :
    (Function.update P t p' u).node? ≠ some n := by
  obtain ⟨mine, idle⟩ := moves.of_ended ended
  intro mine_u
  by_cases same : u = t
  · subst same
    rw [Function.update_self, idle] at mine_u
    cases mine_u
  · rw [Function.update_of_ne same] at mine_u
    exact same (enrolled.unique mine_u mine)

end Moves

namespace Accounted

variable {threads : Nat} {s s' : WaitSet} {queue : List Nat} {P : Nat → Phase} {p' : Phase}
  {trace : List (Turn (shared V))} {a : Turn (shared V)}

theorem start : Accounted threads {} [] (fun _ => .idle) ([] : List (Turn (shared V))) where
  enrolled := .start
  member _ _ mine := nomatch mine
  recorded _ := trivial
  unmade n _ := by simp [passings]
  once := by simp [popped]
  flags n := by
    have silent : WaitSet.isNotified {} n = false := rfl
    simp [popped, silent]
  source := by simp [popped]
  refused := by simp
  ended := by simp
  endedOnce := by simp
  order := by simp

/-- Every access keeps the account. -/
theorem access (accounted : Accounted threads s queue P trace)
    (moves : (P a.thread).Moves a.thread s s' p' (entry a)) (member : a.thread < threads)
    (here : a.before.waiters = s) :
    ∃ queue', Accounted threads s' queue' (Function.update P a.thread p') (a :: trace) := by
  obtain ⟨enrolled, members, recorded, unmade, once, flags, source, refused, ended, endedOnce,
    order⟩ := accounted
  obtain ⟨queue', shifts, enrolled'⟩ := enrolled.access moves
  have popped_cons : popped (a :: trace) = (entry a).popped ++ popped trace := List.flatMap_cons ..
  refine ⟨queue', enrolled', ?member, ?recorded, ?unmade, ?once, ?flags, ?source, ?refused,
    ?ended, ?endedOnce, ?order⟩
  case member =>
    intro t n mine
    by_cases same : t = a.thread
    · rwa [same]
    · rw [Function.update_of_ne same] at mine
      exact members t n mine
  case recorded =>
    intro t
    by_cases same : t = a.thread
    · subst same
      rw [Function.update_self]
      exact moves.recorded (unmade _ (Nat.le_refl _)) (recorded a.thread)
    · rw [Function.update_of_ne same]
      refine (recorded t).cons a fun n mine => moves.passings_cons_of_ne fun also => same ?_
      exact enrolled.unique mine also
  case unmade =>
    intro n above
    have above_before := Nat.le_trans shifts.made_le above
    rw [moves.passings_cons_of_ne]
    · exact unmade n above_before
    · intro mine
      exact Nat.not_lt.mpr above_before (enrolled.node a.thread n mine).1
  case once =>
    rw [popped_cons]
    refine List.nodup_append'.mpr ⟨shifts.once, once, fun n now before => ?_⟩
    have fits := enrolled.fits (s.threadOf n)
    rw [enrolled.waiting n (shifts.before n now)] at fits
    exact fits.mp (shifts.before n now) ((flags n).mp before)
  case flags =>
    intro n
    rw [popped_cons, List.mem_append, shifts.notified, flags]
  case source =>
    intro n inside
    rw [popped_cons, List.mem_append] at inside
    rcases inside with now | before
    · exact Or.inl ⟨s.threadOf n, enrolled.goes_on_of_popped shifts moves now⟩
    · rcases source n before with ⟨t, mine⟩ | closes
      · exact moves.source_cons mine
      · obtain ⟨b, inside, r, closes⟩ := mem_endedNodes.mp closes
        exact Or.inr (mem_endedNodes.mpr ⟨b, List.mem_cons_of_mem a inside, r, closes⟩)
  case refused =>
    intro b inside r closes
    rcases List.mem_cons.mp inside with rfl | inside
    · exact moves.of_refused closes
    · exact refused b inside r closes
  case ended =>
    intro b inside n r closes
    rcases List.mem_cons.mp inside with rfl | inside
    · have gone := enrolled.gone_of_ended moves closes
      obtain ⟨absent, flag⟩ := enrolled.flag_of_gone shifts moves enrolled' gone
      have below := (enrolled.node b.thread n (moves.of_ended closes).1).1
      have outcome := moves.outcome closes (recorded b.thread) (enrolled.fits b.thread)
      exact ⟨Nat.lt_of_lt_of_le below shifts.made_le, absent, gone, outcome.congr flag rfl,
        by rw [here, flag]⟩
    · obtain ⟨below, -, gone_before, outcome, late⟩ := ended b inside n r closes
      have gone := moves.gone below gone_before
      obtain ⟨absent, flag⟩ := enrolled.flag_of_gone shifts moves enrolled' gone
      exact ⟨Nat.lt_of_lt_of_le below shifts.made_le, absent, gone,
        outcome.congr flag (moves.passings_cons_of_ne (gone_before a.thread)),
        late.trans flag.symm⟩
  case endedOnce =>
    cases closes : endedNode? a with
    | none => rwa [List.filterMap_cons_none closes]
    | some n =>
      rw [List.filterMap_cons_some closes]
      refine List.nodup_cons.mpr ⟨fun before => ?_, endedOnce⟩
      obtain ⟨b, inside, r, closes_b⟩ := mem_endedNodes.mp before
      obtain ⟨r', closes_a⟩ := endedNode?_eq_some.mp closes
      exact (ended b inside n r closes_b).2.2.1 a.thread (moves.of_ended closes_a).1
  case order =>
    intro newer b older split
    rcases List.cons_eq_append_iff.mp split with ⟨rfl, here⟩ | ⟨newer, rfl, rfl⟩
    · cases here
      refine ⟨fun n passed => ?_, fun n r _ => rfl⟩
      obtain ⟨r, passing⟩ := moves.of_passed passed
      have recorded_t := recorded a.thread
      rw [passing] at recorded_t
      exact recorded_t.1
    · obtain ⟨regained, none_later⟩ := order newer b older rfl
      refine ⟨regained, fun n r closes => ?_⟩
      obtain ⟨-, -, gone, -⟩ := ended b (by simp) n r closes
      rw [moves.passings_cons_of_ne (gone a.thread)]
      exact none_later n r closes

end Accounted

section Reports

variable {t : Nat} {chance : Chance} {m m' : Monitor V} {queue : List Nat}

theorem head_length_of_pop {s s' : WaitSet} {thread : Nat} (represents : s.Represents queue)
    (pops : s.pop = some (s', thread)) : s.head.toList.length = 1 := by
  obtain ⟨n, rest, rfl, -⟩ := represents.eq_cons_of_pop pops
  rw [represents.head_eq]
  rfl

theorem head_length_of_nobody {s : WaitSet} (represents : s.Represents queue)
    (nobody : s.pop = none) : s.head.toList.length = 0 := by
  obtain rfl := represents.eq_nil_of_pop nobody
  rw [represents.head_eq]
  rfl

theorem Stage.owed_ofCall (call : Call V) : (ofCall call).owed = 0 := by
  cases call with
  | waitUntil timeout condition => cases timeout <;> rfl
  | _ => rfl

/-- A wait pops a node where it begins to owe a report. -/
theorem Waiting.advance_owed {wait : Waiting} {progress : Progress Waiting (Except Fault Ending)}
    (represents : m.waiters.Represents queue)
    (moves : wait.advance t chance m = some (m', progress)) :
    (wait.entry m.waiters progress).popped.length = (waitPhase progress).owed := by
  cases wait with
  | passing node result =>
    simp only [advance] at moves
    split at moves
    · cases moves
      exact head_length_of_nobody represents ‹_›
    · cases moves
      exact head_length_of_pop represents ‹_›
  | returning node interrupted queued lock =>
    cases queued <;> simp only [advance] at moves <;> repeat' split at moves
    all_goals cases moves
    all_goals rfl
  | consuming node queued taking =>
    cases queued <;> simp only [advance] at moves <;> repeat' split at moves
    all_goals cases moves
    all_goals rfl
  | watching node deadline levels glance =>
    cases glance with
    | park =>
      simp only [advance, Option.map_eq_some_iff] at moves
      obtain ⟨parked, park, moved⟩ := moves
      cases moved
      rfl
    | _ =>
      simp only [advance] at moves
      repeat' split at moves
      all_goals cases moves
      all_goals rfl
  | _ =>
    simp only [advance] at moves
    repeat' split at moves
    all_goals cases moves
    all_goals rfl

/-- What is popped is owed, and what is owed is reported in the end. -/
theorem Stage.advance_owed {stage : Stage V} {progress : Progress (Stage V) (Reply V)}
    (represents : m.waiters.Represents queue)
    (moves : stage.advance t chance m = some (m', progress)) :
    (stage.entry t chance m).popped.length + stage.owed =
      Monitor.owed progress.stage? + stage.reported progress := by
  cases stage with
  | identifying next =>
    cases moves
    exact Nat.add_comm ..
  | waiting wait | pausing deadline condition tests wait =>
    simp only [advance] at moves
    split at moves
    · cases moves
    all_goals
      rename_i moves_wait
      cases moves
      simp only [entry, moves_wait, Waiting.advance_owed represents moves_wait]
      rfl
  | notifying all =>
    cases all with
    | false =>
      simp only [advance] at moves
      split at moves
      · cases moves
        exact head_length_of_nobody represents ‹_›
      · cases moves
        exact head_length_of_pop represents ‹_›
    | true =>
      have threads : m.waiters.popAll.2.length = m.waiters.toList.length := by
        rw [represents.popAll.1, represents.toList_eq, List.length_map]
      simp only [advance] at moves
      split at moves
      · rename_i pops
        cases moves
        rw [pops] at threads
        exact threads.symm
      · rename_i pops
        cases moves
        rw [pops] at threads
        exact threads.symm
  | waking threads reply =>
    rcases threads with _ | ⟨_, _ | _⟩
    · cases moves
      rfl
    · cases moves
      rfl
    · cases moves
      exact Nat.add_comm ..
  | _ =>
    simp only [advance] at moves
    repeat' split at moves
    all_goals cases moves
    all_goals rfl

theorem owed_update (stages : Nat → Option (Stage V)) {threads : Nat} (member : t < threads)
    (stage? : Option (Stage V)) :
    ∑ s ∈ Finset.range threads, owed (Function.update stages t stage? s) + owed (stages t) =
      ∑ s ∈ Finset.range threads, owed (stages s) + owed stage? := by
  have inside : t ∈ Finset.range threads := Finset.mem_range.mpr member
  simp only [Function.apply_update (fun _ => owed)]
  rw [Finset.sum_update_of_mem inside,
    Finset.sum_eq_add_sum_sdiff_singleton_of_mem inside fun s => owed (stages s)]
  omega

end Reports

theorem countP_filterMap_any {α : Type} (p : Nat → Bool) (f : α → Option Nat) (l : List α) :
    (l.filterMap f).countP p = l.countP fun a => (f a).any p := by
  rw [List.countP_filterMap]
  refine List.countP_congr fun a _ => ?_
  cases f a <;> rfl

theorem not_endsNotified {a : Turn (shared V)} (cancelled : endsCancelled a = true) :
    endsNotified a = false := by
  unfold endsCancelled at cancelled
  unfold endsNotified
  split at cancelled
  · rename_i closes
    rw [closes]
  · cases cancelled

namespace Accounted

variable {threads : Nat} {s : WaitSet} {queue : List Nat} {P : Nat → Phase}
  {trace : List (Turn (shared V))} {a : Turn (shared V)}

/-- A wait that has ended with its node popped was notified or cancelled. -/
theorem endedNode?_any (accounted : Accounted threads s queue P trace) (inside : a ∈ trace) :
    (endedNode? a).any s.isNotified = (endsNotified a || endsCancelled a) := by
  cases closes : (entry a).ended with
  | none => simp [endedNode?, endsNotified, endsCancelled, closes]
  | some ending =>
    obtain ⟨n?, r⟩ := ending
    cases n? with
    | none => simp [endedNode?, endsNotified, endsCancelled, closes]
    | some n =>
      obtain ⟨-, -, -, outcome, flag⟩ := accounted.ended a inside n r closes
      simp only [endedNode?, endsNotified, endsCancelled, closes]
      rcases r with fault | _ | _
      · obtain ⟨⟨message, rfl⟩, -⟩ := outcome
        simp [flag]
      · simpa using outcome.1
      · simpa using outcome.1

/-- The waits with popped nodes are those that ended notified, those that were cancelled
afterwards, and those still in progress. -/
theorem popped_length (accounted : Accounted threads s queue P trace) :
    (popped trace).length = trace.countP endsNotified + trace.countP endsCancelled +
      (List.range threads).countP fun t => (P t).node?.any s.isNotified := by
  have live_nodup : ((List.range threads).filterMap fun t => (P t).node?).Nodup := by
    refine List.nodup_range.filterMap fun t u n mine also => ?_
    exact accounted.enrolled.unique mine also
  have nodup : (trace.filterMap endedNode? ++
      (List.range threads).filterMap fun t => (P t).node?).Nodup := by
    refine List.nodup_append'.mpr ⟨accounted.endedOnce, live_nodup, fun n closes live => ?_⟩
    obtain ⟨a, inside, r, closes⟩ := mem_endedNodes.mp closes
    obtain ⟨t, -, mine⟩ := List.mem_filterMap.mp live
    exact (accounted.ended a inside n r closes).2.2.1 t mine
  have same : (popped trace).Perm ((trace.filterMap endedNode? ++
      (List.range threads).filterMap fun t => (P t).node?).filter s.isNotified) := by
    refine (List.perm_ext_iff_of_nodup accounted.once (nodup.filter _)).mpr fun n => ?_
    rw [List.mem_filter, ← accounted.flags, List.mem_append]
    refine ⟨fun inside => ⟨?_, inside⟩, fun both => both.2⟩
    rcases accounted.source n inside with ⟨t, mine⟩ | closes
    · right
      exact List.mem_filterMap.mpr ⟨t, List.mem_range.mpr (accounted.member t n mine), mine⟩
    · exact Or.inl closes
  have closes : (trace.countP fun a => (endedNode? a).any s.isNotified) =
      trace.countP endsNotified + trace.countP endsCancelled := by
    rw [List.countP_eq_countP_filter_add trace _ endsNotified, List.countP_filter,
      List.countP_filter]
    congr 1
    · refine List.countP_congr fun a inside => ?_
      rw [accounted.endedNode?_any inside]
      cases endsNotified a <;> simp
    · refine List.countP_congr fun a inside => ?_
      rw [accounted.endedNode?_any inside]
      have apart : endsCancelled a = true → endsNotified a = false := not_endsNotified
      revert apart
      cases endsNotified a <;> cases endsCancelled a <;> simp
  rw [same.length_eq, ← List.countP_eq_length_filter, List.countP_append, countP_filterMap_any,
    countP_filterMap_any, closes]

end Accounted

variable {threads : Nat} {value : V} {settings : Settings} {u : System (shared V) β}
  {trace : List (Turn (shared V))}

/-- In every state of every run the notifications are accounted for. -/
theorem accounted_of_run
    (run : System.Run (fun t _ => t < threads) { state := Monitor.new value settings } u trace) :
    Accounted threads u.state.waiters u.state.waiters.toList (phases u.stage?) trace ∧
      (popped trace).length = reports trace + ∑ t ∈ Finset.range threads, owed (u.stage? t) := by
  refine run.stages_induction (M := fun t => t < threads)
    (I := fun (m : Monitor V) stages trace =>
      Accounted threads m.waiters m.waiters.toList (phases stages) trace ∧
        (popped trace).length = reports trace + ∑ t ∈ Finset.range threads, owed (stages t))
    (System.stage?_start _) (fun _ _ member => member)
    ?start ?enters ?takes ?elapses
  case start => exact ⟨.start, by simp [popped, reports, owed]⟩
  case enters =>
    rintro m stages trace t call ⟨accounted, count⟩ none_t member
    have sum := owed_update stages member (some (Stage.ofCall call))
    have nothing : owed (some (Stage.ofCall call)) = 0 := Stage.owed_ofCall call
    rw [none_t, nothing] at sum
    refine ⟨?_, count.trans (congrArg _ sum.symm)⟩
    rwa [phases_enter none_t]
  case takes =>
    rintro stages trace a ⟨accounted, count⟩ some_t member taken
    obtain ⟨queue', accounted'⟩ := accounted.access (phases_moves some_t taken) member rfl
    rw [phases_update]
    refine ⟨by rwa [accounted'.enrolled.represents.toList_eq], ?_⟩
    have sum := owed_update stages member a.progress.stage?
    have step := Stage.advance_owed accounted.enrolled.represents taken
    have owed_t : owed (stages a.thread) = a.stage.owed := by simp [owed, some_t]
    have popped_cons : (popped (a :: trace)).length =
        (entry a).popped.length + (popped trace).length := by simp [popped]
    have reports_cons : reports (a :: trace) = a.stage.reported a.progress + reports trace := by
      simp [reports]
    rw [owed_t] at sum
    unfold entry at popped_cons
    omega
  case elapses => exact fun _ accounted => accounted

/-- In every state of every run:
the nodes popped so far are as many as the notifications have reported, or will report once they
have woken the threads of the nodes that they have popped; they are as many as the waits that
ended notified, the waits that were cancelled with their nodes popped, and the waits in progress
whose nodes are popped; no node is popped twice, and the nodes popped are those with the flag; a
wait whose time ran out had a node that was not popped; a wait notifies another one in its place
only after it has come back to the lock; a wait that ends notified never does this, and any other
wait that had joined does it exactly once, before it ends. -/
theorem notification_accounting
    (run : System.Run (fun t _ => t < threads) { state := Monitor.new value settings } u trace) :
    (popped trace).length = reports trace + ∑ t ∈ Finset.range threads, owed (u.stage? t) ∧
    (popped trace).length = trace.countP endsNotified + trace.countP endsCancelled +
      (List.range threads).countP (waitsPopped u) ∧
    (popped trace).Nodup ∧ (∀ n, n ∈ popped trace ↔ u.state.waiters.isNotified n) ∧
    (∀ a ∈ trace, ∀ n?, (entry a).ended = some (n?, .ok .expired) →
      ∃ n, n? = some n ∧ n ∉ popped trace) ∧
    (∀ newer a older, trace = newer ++ a :: older →
      (∀ n, (entry a).passed = some n → Regained n older) ∧
      ∀ n r, (entry a).ended = some (some n, r) →
        (r = .ok .notified → passings n trace = 0) ∧
        (r ≠ .ok .notified → passings n (a :: older) = 1 ∧ passings n newer = 0)) := by
  obtain ⟨accounted, count⟩ := accounted_of_run run
  refine ⟨count, accounted.popped_length, accounted.once, accounted.flags, ?_, ?_⟩
  · intro a inside n? closes
    cases n? with
    | none =>
      obtain ⟨message, ends⟩ := accounted.refused a inside _ closes
      cases ends
    | some n =>
      obtain ⟨-, -, -, outcome, -⟩ := accounted.ended a inside n _ closes
      exact ⟨n, rfl, fun popped => outcome.1 ((accounted.flags n).mp popped)⟩
  · intro newer a older split
    obtain ⟨regained, later⟩ := accounted.order newer a older split
    refine ⟨regained, fun n r closes => ?_⟩
    obtain ⟨-, -, -, outcome, -⟩ := accounted.ended a (by simp [split]) n r closes
    have none_later := later n r closes
    have total : passings n trace = passings n newer + passings n (a :: older) := by
      rw [split]
      exact List.countP_append
    rw [none_later, Nat.zero_add] at total
    rcases r with fault | _ | _
    · exact ⟨nofun, fun _ => ⟨total.symm.trans outcome.2, none_later⟩⟩
    · exact ⟨fun _ => outcome.2, fun other => absurd rfl other⟩
    · exact ⟨nofun, fun _ => ⟨total.symm.trans outcome.2, none_later⟩⟩

/-- Threads `1` and `2` wait; thread `0` interrupts thread `1` and then signals. The signal reaches
thread `1` after it has seen the interrupt, so that thread `1` is cancelled and notifies thread `2`
in its place. -/
def relay : System (shared Unit) Unit × List (Turn (shared Unit)) :=
  let start : System (shared Unit) Unit := { state := Monitor.new () { spinLimit := 1 } }
  let waiter : Action Unit Unit := Action.synchronized do
    let _ ← Action.wait none
  let notifier : Action Unit Unit := do
    Action.interrupt 1 none
    Action.synchronized do
      let _ ← Action.signal
  let turns := List.replicate 12 1 ++ List.replicate 12 2 ++ List.replicate 3 0 ++
    List.replicate 3 1 ++ List.replicate 10 0 ++ List.replicate 11 1
  (((start.assign 0 notifier).1.assign 1 waiter).1.assign 2 waiter).1.follow []
    (turns.map fun t => (t, {}))

theorem notification_accounting_relay :
    System.Run (fun t _ => t < 3) { state := Monitor.new () { spinLimit := 1 } } relay.1 relay.2 ∧
      popped relay.2 = [1, 0] ∧ relay.2.countP endsNotified = 0 ∧
      relay.2.countP endsCancelled = 1 ∧ (List.range 3).countP (waitsPopped relay.1) = 1 := by
  have run : System.Run (fun t _ => t < 3) { state := Monitor.new () { spinLimit := 1 } }
      relay.1 relay.2 :=
    System.Run.follow (.assign 2 _ (.assign 1 _ (.assign 0 _ .start rfl (by decide))
      (by decide +kernel) (by decide)) (by decide +kernel) (by decide)) _
  have both : popped relay.2 = [1, 0] := by decide +kernel
  have nobody : relay.2.countP endsNotified = 0 := by decide +kernel
  have first : relay.2.countP endsCancelled = 1 := by decide +kernel
  obtain ⟨-, total, -⟩ := notification_accounting run
  rw [both, nobody, first] at total
  have one : (List.range 3).countP (waitsPopped relay.1) = 1 := by
    generalize (List.range 3).countP (waitsPopped relay.1) = waits at total
    have two : 2 = 1 + waits := total
    omega
  exact ⟨run, both, nobody, first, one⟩

end Interlock.Monitor

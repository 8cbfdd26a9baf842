import Interlock.Proofs.Footprint
import Interlock.Proofs.Monitor.Accounting
import Interlock.Proofs.Opening

/-!
# The nodes of waits that have returned

The node of a wait lives as long as the wait. The nodes that the wait set links are those of waits
that have joined it and have been neither popped nor withdrawn (`linked`), so that no link of the
wait set leads to the node of a wait that has returned. Whatever is in the place of such a node by
then, no access looks at it or changes it (`Overlooks`).
-/

namespace Interlock.Monitor

variable {V β : Type}

namespace Phase

/-- The node with which a wait joins the wait set when its phase changes. -/
def joined? : Phase → Phase → Option Nat
  | idle, queued n => some n
  | _, _ => none

/-- The node that a wait takes out of the wait set itself when its phase changes. -/
def withdrawn? : Phase → Phase → Option Nat
  | queued _, returning n true => some n
  | _, _ => none

end Phase

/-- The node with which a wait joins the wait set with an access. -/
def joined? (a : Turn (shared V)) : Option Nat :=
  a.stage.phase.joined? (phaseOf a.progress.stage?)

/-- The node that a wait itself takes out of the wait set with an access. -/
def withdrawn? (a : Turn (shared V)) : Option Nat :=
  a.stage.phase.withdrawn? (phaseOf a.progress.stage?)

/-- The nodes with which waits have joined the wait set, the latest ones first. -/
def joined (trace : List (Turn (shared V))) : List Nat :=
  trace.filterMap joined?

/-- The nodes that waits have taken out of the wait set themselves. -/
def withdrawn (trace : List (Turn (shared V))) : List Nat :=
  trace.filterMap withdrawn?

/-- The nodes of waits that have joined and have been neither popped nor withdrawn. -/
def linked (trace : List (Turn (shared V))) : List Nat :=
  (joined trace).filter fun n => n ∉ popped trace ∧ n ∉ withdrawn trace

/-- The nodes of waits that have returned. -/
def returned (trace : List (Turn (shared V))) : List Nat :=
  trace.filterMap endedNode?

/-- The access goes the same way whatever is in the cells of some nodes, and leaves it there. -/
def Overlooks (dead : Nat → Prop) (a : Turn (shared V)) : Prop :=
  ∀ r, a.before.waiters.SameBut dead r → ∃ r', WaitSet.Spares dead r a.after.waiters r' ∧
    a.stage.advance a.thread a.chance { a.before with waiters := r } =
      some ({ a.after with waiters := r' }, a.progress)

section Access

variable {dead : Nat → Prop} {t : Nat} {chance : Chance} {m m' : Monitor V} {queue : List Nat}
  {r : WaitSet}

/-- An access of a wait does not look at the cells of nodes that are neither queued nor its own. -/
theorem Waiting.advance_spares {wait : Waiting} {progress : Progress Waiting (Except Fault Ending)}
    (represents : m.waiters.Represents queue) (alive : ∀ n ∈ queue, ¬ dead n)
    (fresh : ¬ dead m.waiters.made) (own : ∀ n, wait.phase.node? = some n → ¬ dead n)
    (same : m.waiters.SameBut dead r) (moves : wait.advance t chance m = some (m', progress)) :
    ∃ r', WaitSet.Spares dead r m'.waiters r' ∧
      wait.advance t chance { m with waiters := r } = some ({ m' with waiters := r' }, progress) := by
  cases wait with
  | joining deadline =>
    cases moves
    exact ⟨_, same.join represents alive fresh t, by simp only [advance, WaitSet.make, same.made]⟩
  | releasing node deadline lock | returning node interrupted queued lock =>
    refine ⟨r, ?_, ?_⟩
    · simp only [advance] at moves
      repeat' split at moves
      all_goals cases moves
      all_goals exact same.spares
    · simp only [advance] at moves ⊢
      repeat' split at moves
      all_goals cases moves
      all_goals simp [*]
  | watching node deadline levels glance =>
    have flag : r.isNotified node = m.waiters.isNotified node := same.isNotified (own node rfl)
    cases glance with
    | park =>
      simp only [advance, Option.map_eq_some_iff] at moves ⊢
      obtain ⟨parked, park, moved⟩ := moves
      cases moved
      refine ⟨r, ?_, { m' with waiters := r }, ?_, rfl⟩
      · obtain ⟨permits, rfl⟩ := park_eq_some park
        exact same.spares
      · unfold Monitor.park at park ⊢
        repeat' split at park
        all_goals cases park
        all_goals simp_all
    | _ =>
      refine ⟨r, ?_, ?_⟩
      · simp only [advance] at moves
        repeat' split at moves
        all_goals cases moves
        all_goals exact same.spares
      · simp only [advance] at moves ⊢
        repeat' split at moves
        all_goals cases moves
        all_goals simp_all
  | withdrawing node levels interrupted =>
    simp only [advance, Option.some.injEq, Prod.mk.injEq] at moves
    obtain ⟨rfl, rfl⟩ := moves
    obtain ⟨found, spares⟩ := same.remove represents alive node
    exact ⟨_, spares, by simp only [advance, found]⟩
  | passing node result =>
    simp only [advance] at moves ⊢
    rcases same.pop represents alive with
      ⟨none_r, none_s⟩ | ⟨s', r', thread, pops, pops', spares⟩
    · rw [none_s] at moves
      cases moves
      exact ⟨r, same.spares, by rw [none_r]⟩
    · rw [pops] at moves
      cases moves
      exact ⟨r', spares, by rw [pops']⟩
  | _ =>
    refine ⟨r, ?_, ?_⟩
    · simp only [advance] at moves
      repeat' split at moves
      all_goals cases moves
      all_goals exact same.spares
    · simp only [advance] at moves ⊢
      repeat' split at moves
      all_goals cases moves
      all_goals simp_all [unpark]

/-- An access does not look at the cells of nodes that are neither queued nor its own wait's. -/
theorem Stage.advance_spares {stage : Stage V} {progress : Progress (Stage V) (Reply V)}
    (represents : m.waiters.Represents queue) (alive : ∀ n ∈ queue, ¬ dead n)
    (fresh : ¬ dead m.waiters.made) (own : ∀ n, stage.phase.node? = some n → ¬ dead n)
    (same : m.waiters.SameBut dead r) (moves : stage.advance t chance m = some (m', progress)) :
    ∃ r', WaitSet.Spares dead r m'.waiters r' ∧
      stage.advance t chance { m with waiters := r } =
        some ({ m' with waiters := r' }, progress) := by
  cases stage with
  | identifying next =>
    cases moves
    refine ⟨r, ?_, ?_⟩
    · unfold identify
      split <;> exact same.spares
    · simp only [advance, identify]
      split <;> rfl
  | waiting wait | pausing deadline condition tests wait =>
    simp only [advance] at moves ⊢
    split at moves
    · cases moves
    all_goals
      rename_i moved
      cases moves
      obtain ⟨r', spares, same_way⟩ :=
        Waiting.advance_spares represents alive fresh own same moved
      exact ⟨r', spares, by rw [same_way]⟩
  | notifying all =>
    cases all with
    | false =>
      simp only [advance] at moves ⊢
      rcases same.pop represents alive with
        ⟨none_r, none_s⟩ | ⟨s', r', thread, pops, pops', spares⟩
      · rw [none_s] at moves
        cases moves
        exact ⟨r, same.spares, by rw [none_r]⟩
      · rw [pops] at moves
        cases moves
        exact ⟨r', spares, by rw [pops']⟩
    | true =>
      obtain ⟨threads, spares⟩ := same.popAll represents alive
      refine ⟨r.popAll.1, ?_, ?_⟩
      · simp only [advance] at moves
        split at moves
        all_goals
          rename_i pops
          cases moves
          rwa [pops] at spares
      · have popped : r.popAll = (r.popAll.1, m.waiters.popAll.2) := by rw [← threads]
        simp only [advance] at moves ⊢
        rw [popped]
        split at moves
        all_goals
          rename_i pops
          cases moves
          simp only [pops]
  | probing =>
    cases moves
    exact ⟨r, same.spares, by simp only [advance, same.isEmpty]⟩
  | counting =>
    cases moves
    exact ⟨r, same.spares, by simp only [advance, same.count represents alive]⟩
  | waking threads reply =>
    rcases threads with _ | ⟨_, _ | _⟩
    all_goals
      cases moves
      exact ⟨r, same.spares, rfl⟩
  | _ =>
    refine ⟨r, ?_, ?_⟩
    · simp only [advance] at moves
      repeat' split at moves
      all_goals cases moves
      all_goals exact same.spares
    · simp only [advance] at moves ⊢
      repeat' split at moves
      all_goals cases moves
      all_goals simp_all

end Access

section Moves

variable {t n : Nat} {s s' : WaitSet} {queue queue' : List Nat} {p p' : Phase} {e : Entry}

/-- A node is made where a wait joins with it. -/
theorem Phase.Moves.made (moves : p.Moves t s s' p' e) (represents : s.Represents queue) :
    p.joined? p' = none ∧ s'.made = s.made ∨
      p.joined? p' = some s.made ∧ s'.made = s.made + 1 := by
  cases moves with
  | joins => exact Or.inr ⟨rfl, (s.join_nodes t).1⟩
  | stays =>
    left
    cases p <;> exact ⟨rfl, rfl⟩
  | @withdraws node => exact Or.inl ⟨rfl, (WaitSet.marks_remove s node).made⟩
  | passes pops | signals pops =>
    obtain ⟨k, rest, rfl, -, -, marks⟩ := represents.eq_cons_of_pop pops
    exact Or.inl ⟨rfl, marks.made⟩
  | broadcasts => exact Or.inl ⟨rfl, represents.popAll.2.2.made⟩
  | _ => exact Or.inl ⟨rfl, rfl⟩

/-- A node that has been made and is neither queued nor popped has been withdrawn, now or
before. -/
theorem Phase.Moves.withdrawn_iff (moves : p.Moves t s s' p' e) (represents : s.Represents queue)
    (represents' : s'.Represents queue') (fits : p.Fits s queue)
    (below : ∀ k, p.node? = some k → k < s.made) :
    n < s'.made ∧ n ∉ queue' ∧ ¬ s'.isNotified n ↔
      p.withdrawn? p' = some n ∨ n < s.made ∧ n ∉ queue ∧ ¬ s.isNotified n := by
  have still (same : s' = s) (nothing : p.withdrawn? p' = none) :
      n < s'.made ∧ n ∉ queue' ∧ ¬ s'.isNotified n ↔
        p.withdrawn? p' = some n ∨ n < s.made ∧ n ∉ queue ∧ ¬ s.isNotified n := by
    subst same
    rw [represents'.toList_eq.symm.trans represents.toList_eq, nothing]
    simp
  cases moves with
  | stays =>
    refine still rfl ?_
    cases p <;> rfl
  | joins =>
    obtain ⟨made, -, silent, others⟩ := s.join_nodes t
    have queue_eq : queue' = queue ++ [s.made] :=
      represents'.toList_eq.symm.trans (represents.join t).toList_eq
    subst queue_eq
    by_cases new : n = s.made
    · subst new
      simp [Phase.withdrawn?]
    · have below_iff : n < s.made + 1 ↔ n < s.made := by omega
      rw [made, below_iff, (others n new).2]
      simp [Phase.withdrawn?, new]
  | @withdraws k =>
    have marks := WaitSet.marks_remove s k
    obtain ⟨removed, found⟩ := represents.remove k
    have queue_eq : queue' = queue.erase k :=
      represents'.toList_eq.symm.trans removed.toList_eq
    subst queue_eq
    have fits_k : k ∈ queue ↔ ¬ s.isNotified k := fits
    have below_k : k < s.made := below k rfl
    rw [marks.made, marks.notified, found]
    by_cases same : n = k
    · subst same
      have gone : n ∉ queue.erase n := represents.nodup.not_mem_erase
      by_cases queued : n ∈ queue
      · simp [Phase.withdrawn?, queued, below_k, gone, fits_k.mp queued]
      · simp [Phase.withdrawn?, queued, gone]
    · have other : k ≠ n := Ne.symm same
      by_cases queued : k ∈ queue <;>
        simp [Phase.withdrawn?, queued, other, List.mem_erase_of_ne same]
  | passes pops | signals pops =>
    obtain ⟨k, rest, rfl, -, popped, marks⟩ := represents.eq_cons_of_pop pops
    rw [represents'.toList_eq.symm.trans popped.toList_eq, marks.made, marks.notified]
    simp only [Phase.withdrawn?, List.mem_cons, List.not_mem_nil, or_false, not_or]
    tauto
  | broadcasts =>
    obtain ⟨-, emptied, marks⟩ := represents.popAll
    rw [represents'.toList_eq.symm.trans emptied.toList_eq, marks.made, marks.notified]
    simp only [Phase.withdrawn?, List.not_mem_nil, not_or]
    tauto
  | _ => exact still rfl rfl

end Moves

/-- What the accesses tell about the nodes that have been made. -/
structure Registered (s : WaitSet) (queue : List Nat) (trace : List (Turn (shared V))) : Prop where
  joined : ∀ n, n ∈ joined trace ↔ n < s.made
  once : (Monitor.joined trace).Nodup
  withdrawn : ∀ n, n ∈ withdrawn trace ↔ n < s.made ∧ n ∉ queue ∧ ¬ s.isNotified n

namespace Registered

variable {s s' : WaitSet} {queue queue' : List Nat} {P : Nat → Phase}
  {trace : List (Turn (shared V))} {a : Turn (shared V)}

theorem start : Registered {} [] ([] : List (Turn (shared V))) := by
  constructor <;> simp [Monitor.joined, Monitor.withdrawn]

/-- Every access keeps the register. -/
theorem access (registered : Registered s queue trace) (enrolled : Enrolled s queue P)
    (represents' : s'.Represents queue') (here : P a.thread = a.stage.phase)
    (moves : (P a.thread).Moves a.thread s s' (phaseOf a.progress.stage?) (entry a)) :
    Registered s' queue' (a :: trace) := by
  have fits := enrolled.fits a.thread
  have below : ∀ k, a.stage.phase.node? = some k → k < s.made := fun k mine =>
    (enrolled.node a.thread k (here ▸ mine)).1
  rw [here] at moves fits
  have made := moves.made enrolled.represents
  refine ⟨?_, ?_, ?_⟩
  · intro n
    rw [Monitor.joined, List.filterMap_cons]
    rcases made with ⟨nothing, made⟩ | ⟨joins, made⟩
    · have none_a : joined? a = none := nothing
      rw [none_a, made]
      exact registered.joined n
    · have some_a : joined? a = some s.made := joins
      have before : n ∈ trace.filterMap joined? ↔ n < s.made := registered.joined n
      rw [some_a, made, List.mem_cons, before]
      omega
  · rw [Monitor.joined, List.filterMap_cons]
    rcases made with ⟨nothing, -⟩ | ⟨joins, -⟩
    · have none_a : joined? a = none := nothing
      rw [none_a]
      exact registered.once
    · have some_a : joined? a = some s.made := joins
      rw [some_a]
      refine List.nodup_cons.mpr ⟨fun before => ?_, registered.once⟩
      exact Nat.lt_irrefl _ ((registered.joined s.made).mp before)
  · intro n
    rw [moves.withdrawn_iff enrolled.represents represents' fits below, ← registered.withdrawn n]
    simp only [Monitor.withdrawn, List.mem_filterMap, List.mem_cons, exists_eq_or_imp]
    rfl

end Registered

variable {threads : Nat} {value : V} {settings : Settings} {u : System (shared V) β}
  {trace : List (Turn (shared V))}

theorem registered_of_run
    (run : System.Run (fun t _ => t < threads) { state := Monitor.new value settings } u trace) :
    Registered u.state.waiters u.state.waiters.toList trace := by
  have both : Enrolled u.state.waiters u.state.waiters.toList (phases u.stage?) ∧
      Registered u.state.waiters u.state.waiters.toList trace := by
    refine run.stages_induction (M := fun _ => True)
      (I := fun (m : Monitor V) stages trace =>
        Enrolled m.waiters m.waiters.toList (phases stages) ∧
          Registered m.waiters m.waiters.toList trace)
      (System.stage?_start _) (fun _ _ _ => trivial) ?start ?enters ?takes ?elapses
    case start => exact ⟨.start, .start⟩
    case enters =>
      rintro m stages trace t call ⟨enrolled, registered⟩ none_t -
      rw [phases_enter none_t]
      exact ⟨enrolled, registered⟩
    case takes =>
      rintro stages trace a ⟨enrolled, registered⟩ some_t - taken
      have moves := phases_moves some_t taken
      obtain ⟨queue', -, enrolled'⟩ := enrolled.access moves
      obtain rfl : a.after.waiters.toList = queue' := enrolled'.represents.toList_eq
      rw [phases_update]
      exact ⟨enrolled', registered.access enrolled enrolled'.represents (phases_of_some some_t)
        moves⟩
    case elapses => exact fun _ both => both
  exact both.2

/-- The queue of the wait set holds the nodes that are linked. -/
theorem toList_perm_linked
    (run : System.Run (fun t _ => t < threads) { state := Monitor.new value settings } u trace) :
    u.state.waiters.toList.Perm (linked trace) := by
  have enrolled := enrolled_of_run run
  have registered := registered_of_run run
  obtain ⟨accounted, -⟩ := accounted_of_run run
  refine (List.perm_ext_iff_of_nodup enrolled.represents.nodup (registered.once.filter _)).mpr ?_
  intro n
  have queued_iff : n ∈ u.state.waiters.toList → ¬ u.state.waiters.isNotified n := by
    intro queued
    have fits := enrolled.fits (u.state.waiters.threadOf n)
    rw [enrolled.waiting n queued] at fits
    exact fits.mp queued
  rw [List.mem_filter, decide_eq_true_iff, registered.joined, registered.withdrawn,
    accounted.flags]
  refine ⟨fun queued => ⟨enrolled.represents.made n queued, queued_iff queued, ?_⟩, ?_⟩
  · exact fun gone => gone.2.1 queued
  · rintro ⟨made, silent, still⟩
    by_contra absent
    exact still ⟨made, absent, silent⟩

/-- The node of a wait that has returned is neither queued nor that of a wait in progress. -/
theorem Accounted.of_returned {s : WaitSet} {queue : List Nat} {P : Nat → Phase} {n : Nat}
    (accounted : Accounted threads s queue P trace) (gone : n ∈ returned trace) :
    n < s.made ∧ n ∉ queue ∧ ∀ t, (P t).node? ≠ some n := by
  obtain ⟨a, inside, result, closes⟩ := mem_endedNodes.mp gone
  obtain ⟨made, absent, nobody, -⟩ := accounted.ended a inside n result closes
  exact ⟨made, absent, nobody⟩

/-- An access does not look at the nodes of waits that have returned before. -/
theorem overlooks_returned {a : Turn (shared V)} {older : List (Turn (shared V))}
    (run : System.Run (fun t _ => t < threads) { state := Monitor.new value settings } u
      (a :: older)) : Overlooks (· ∈ returned older) a := by
  obtain ⟨v, run_v, here, some_t, taken⟩ := run.at_access
  obtain ⟨accounted, -⟩ := accounted_of_run run_v
  rw [here] at accounted
  intro r same
  refine Stage.advance_spares accounted.enrolled.represents ?_ ?_ ?_ same taken
  · exact fun n queued gone => (accounted.of_returned gone).2.1 queued
  · exact fun gone => Nat.lt_irrefl _ (accounted.of_returned gone).1
  · intro n mine gone
    refine (accounted.of_returned gone).2.2 a.thread ?_
    rwa [phases_of_some some_t]

/-- What a thread is told about the wait set tells about the nodes that are linked. -/
theorem answer_of_linked {a : Turn (shared V)} {older : List (Turn (shared V))}
    (run : System.Run (fun t _ => t < threads) { state := Monitor.new value settings } u
      (a :: older)) :
    (a.stage = .counting → a.progress = .finished (.count (linked older).length)) ∧
      (a.stage = .probing → a.progress = .finished (.truth !(linked older).isEmpty)) := by
  obtain ⟨v, run_v, here, -, taken⟩ := run.at_access
  have same := toList_perm_linked run_v
  have moves : a.stage.advance a.thread a.chance a.before = some (a.after, a.progress) := taken
  rw [here] at same
  refine ⟨fun counting => ?_, fun probing => ?_⟩
  · rw [counting] at moves
    obtain ⟨-, answer⟩ := Prod.mk.inj (Option.some.inj moves)
    rw [← answer, WaitSet.count, same.length_eq]
  · have head := (enrolled_of_run run_v).represents.head_eq
    rw [here] at head
    have empty : a.before.waiters.isEmpty = (linked older).isEmpty := by
      rw [← same.isEmpty_eq, WaitSet.isEmpty, head]
      cases a.before.waiters.toList <;> rfl
    rw [probing] at moves
    obtain ⟨-, answer⟩ := Prod.mk.inj (Option.some.inj moves)
    rw [← answer, empty]

/-- The nodes in the wait set are those of live waits. In every state of every run:
the queue holds the nodes of the waits that have joined and have been neither popped nor withdrawn,
each once; each of them is the node of the wait that its thread is in the middle of, and no thread
has two; the node of a wait that has returned is not in the queue, nor does the first, the last or
any link of the queue lead to it; no access so far has looked at the node of a wait that had
returned; and the wait set has told its length and its emptiness as those of the linked nodes. -/
theorem linked_nodes_live
    (run : System.Run (fun t _ => t < threads) { state := Monitor.new value settings } u trace) :
    u.state.waiters.toList.Perm (linked trace) ∧ u.state.waiters.toList.Nodup ∧
    (∀ n ∈ u.state.waiters.toList, phaseOf (u.stage? (u.state.waiters.threadOf n)) = .queued n) ∧
    (∀ n ∈ u.state.waiters.toList, ∀ k ∈ u.state.waiters.toList,
      u.state.waiters.threadOf n = u.state.waiters.threadOf k → n = k) ∧
    (∀ n ∈ returned trace, n ∉ u.state.waiters.toList ∧ u.state.waiters.head ≠ some n ∧
      u.state.waiters.tail ≠ some n ∧
      ∀ k ∈ u.state.waiters.toList, u.state.waiters.next k ≠ some n) ∧
    (∀ newer a older, trace = newer ++ a :: older →
      Overlooks (· ∈ returned older) a ∧
      (a.stage = .counting → a.progress = .finished (.count (linked older).length)) ∧
      (a.stage = .probing → a.progress = .finished (.truth !(linked older).isEmpty))) := by
  have enrolled := enrolled_of_run run
  refine ⟨toList_perm_linked run, enrolled.represents.nodup, enrolled.waiting, ?_, ?_, ?_⟩
  · intro n queued k also same
    have waits := enrolled.waiting n queued
    rw [same, enrolled.waiting k also] at waits
    exact (Phase.queued.inj waits).symm
  · intro n gone
    obtain ⟨accounted, -⟩ := accounted_of_run run
    obtain ⟨-, absent, -⟩ := accounted.of_returned gone
    obtain ⟨first, last, links⟩ := enrolled.represents.linked_mem
    exact ⟨absent, fun head => absent (first n head), fun tail => absent (last n tail),
      fun k queued behind => absent (links k queued n behind)⟩
  · rintro newer a older rfl
    obtain ⟨v, run_v, -⟩ := run.split
    exact ⟨overlooks_returned run_v, answer_of_linked run_v⟩

/-- Threads `1`, `2` and `3` wait. The time of thread `2` runs out, so that it leaves the queue from
the middle; thread `0` counts those that are left and signals thread `1`, whose wait returns. -/
@[irreducible]
def crossing : System (shared Unit) Unit × List (Turn (shared Unit)) :=
  let start : System (shared Unit) Unit := { state := Monitor.new () }
  let waiter (timeout : Option Nat) : Action Unit Unit := Action.synchronized do
    let _ ← Action.wait timeout
  let notifier : Action Unit Unit := Action.synchronized do
    let _ ← Action.waiterCount
    let _ ← Action.signal
  let turns := List.replicate 12 1 ++ List.replicate 12 2 ++ List.replicate 12 3 ++
    List.replicate 3 2 ++ List.replicate 11 0 ++ List.replicate 9 1
  ((((start.assign 0 notifier).1.assign 1 (waiter none)).1.assign 2 (waiter (some 0))).1.assign 3
    (waiter none)).1.follow [] (turns.map fun t => (t, {}))

theorem linked_nodes_live_crossing :
    joined crossing.2 = [2, 1, 0] ∧ popped crossing.2 = [0] ∧ withdrawn crossing.2 = [1] ∧
      returned crossing.2 = [0] ∧ crossing.1.state.waiters.toList = [2] ∧
      crossing.1.state.waiters.head ≠ some 0 := by
  have run : System.Run (fun t _ => t < 4) { state := Monitor.new () } crossing.1 crossing.2 := by
    unfold crossing
    exact System.Run.follow (.assign 3 _ (.assign 2 _ (.assign 1 _ (.assign 0 _ .start
      (by decide +kernel) (by decide)) (by decide +kernel) (by decide)) (by decide +kernel)
      (by decide)) (by decide +kernel) (by decide)) _
  have gone : returned crossing.2 = [0] := by decide +kernel
  have left : linked crossing.2 = [2] := by decide +kernel
  obtain ⟨same, -, -, -, apart, -⟩ := linked_nodes_live run
  rw [left, List.perm_singleton] at same
  exact ⟨by decide +kernel, by decide +kernel, by decide +kernel, gone, same,
    (apart 0 (by simp [gone])).2.1⟩

end Interlock.Monitor

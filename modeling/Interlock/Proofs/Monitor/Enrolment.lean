import Interlock.Monitor.Settings
import Interlock.Proofs.Monitor.Phase

/-!
# The nodes of the wait set and the waits in progress

The nodes in the queue of a monitor are those of the waits that have joined it and have neither
been popped nor taken themselves out; each node belongs to one thread, and each wait in progress
has one node (`Enrolled`). What one access does to the queue is the same seen from every other
wait: some nodes are popped and notified, and nothing else happens to a node (`WaitSet.Shifts`).
-/

namespace Interlock

/-- From one wait set to the next one: the nodes of a list are popped, and nothing else happens to
any node but one. -/
structure WaitSet.Shifts (s : WaitSet) (queue popped : List Nat) (own : Option Nat) (s' : WaitSet)
    (queue' : List Nat) : Prop where
  represents : s'.Represents queue'
  made_le : s.made ≤ s'.made
  threadOf : ∀ n < s.made, s'.threadOf n = s.threadOf n
  once : popped.Nodup
  before : ∀ n ∈ popped, n ∈ queue
  notified : ∀ n, s'.isNotified n ↔ n ∈ popped ∨ s.isNotified n
  queued : ∀ n, own ≠ some n → (n ∈ queue' ↔ n ∈ queue ∧ n ∉ popped)

theorem WaitSet.Shifts.refl {s : WaitSet} {queue : List Nat} (own : Option Nat)
    (represents : s.Represents queue) : s.Shifts queue [] own s queue where
  represents := represents
  made_le := Nat.le_refl _
  threadOf _ _ := rfl
  once := List.nodup_nil
  before := nofun
  notified _ := by simp
  queued _ _ := by simp

theorem WaitSet.Shifts.of_pop {s s' : WaitSet} {n : Nat} {rest : List Nat} (own : Option Nat)
    (represents : s.Represents (n :: rest)) (represents' : s'.Represents rest)
    (marks : s.Marks [n] s') : s.Shifts (n :: rest) [n] own s' rest where
  represents := represents'
  made_le := Nat.le_of_eq marks.made.symm
  threadOf k _ := marks.threadOf k
  once := List.nodup_singleton n
  before k first := by simp_all
  notified := marks.notified
  queued k _ := by
    have absent : n ∉ rest := (List.nodup_cons.mp represents.nodup).1
    simp only [List.mem_cons, List.not_mem_nil, or_false]
    constructor
    · intro queued
      exact ⟨Or.inr queued, ne_of_mem_of_not_mem queued absent⟩
    · rintro ⟨first | queued, other⟩
      · exact absurd first other
      · exact queued

namespace Monitor

/-- What a phase says about the place of its node in the queue and about its flag. -/
def Phase.Fits (s : WaitSet) (queue : List Nat) : Phase → Prop
  | idle => True
  | queued node => node ∈ queue ↔ ¬ s.isNotified node
  | returning node still | deciding node still =>
    node ∉ queue ∧ (still = true ↔ ¬ s.isNotified node)
  | passing node result | handing node result =>
    node ∉ queue ∧ (result = .ok .expired ∧ ¬ s.isNotified node ∨
      ∃ message, result = .error (.cancelled message))

/-- The nodes of the wait set belong to the waits in progress. -/
structure Enrolled (s : WaitSet) (queue : List Nat) (P : Nat → Phase) : Prop where
  represents : s.Represents queue
  fresh : ∀ n, s.isNotified n → n < s.made
  waiting : ∀ n ∈ queue, P (s.threadOf n) = .queued n
  node : ∀ t n, (P t).node? = some n → n < s.made ∧ s.threadOf n = t
  fits : ∀ t, (P t).Fits s queue

variable {s s' : WaitSet} {queue queue' popped : List Nat} {P : Nat → Phase} {p p' : Phase}
  {t : Nat} {entry : Entry}

namespace Phase

/-- A wait whose node is in the queue has joined and nothing more. -/
theorem Fits.eq_queued {n : Nat} (fits : p.Fits s queue) (mine : p.node? = some n)
    (inside : n ∈ queue) : p = .queued n ∧ ¬ s.isNotified n := by
  cases p with
  | idle => cases mine
  | queued node =>
    cases mine
    exact ⟨rfl, fits.mp inside⟩
  | _ =>
    cases mine
    exact absurd inside fits.1

/-- What happens to the nodes of others does not change what a phase says. -/
theorem Fits.shift {own : Option Nat} (fits : p.Fits s queue)
    (shifts : s.Shifts queue popped own s' queue') (other : ∀ n, p.node? = some n → own ≠ some n) :
    p.Fits s' queue' := by
  cases p with
  | idle => trivial
  | queued node =>
    have queued := shifts.queued node (other node rfl)
    have notified := shifts.notified node
    have fits_node : node ∈ queue ↔ ¬ s.isNotified node := fits
    show node ∈ queue' ↔ ¬ s'.isNotified node
    rw [queued, notified, fits_node]
    tauto
  | returning node still | deciding node still | passing node result | handing node result =>
    have absent : node ∉ popped := fun inside => fits.1 (shifts.before node inside)
    refine ⟨fun inside => fits.1 ((shifts.queued node (other node rfl)).mp inside).1, ?_⟩
    have notified : s'.isNotified node ↔ s.isNotified node := by
      rw [shifts.notified node]
      tauto
    rw [notified]
    exact fits.2

/-- A wait whose phase fits the queue has been cancelled if it is about to end with a fault. -/
theorem Fits.told (fits : p.Fits s queue) : p.Told := by
  cases p with
  | passing node result | handing node result =>
    intro fault failed
    rcases fits.2 with ⟨expired, -⟩ | ⟨message, cancelled⟩
    · cases expired.symm.trans failed
    · cases cancelled.symm.trans failed
      rfl
  | _ => trivial

end Phase

/-- A wait that is queued keeps its node. -/
theorem Phase.Moves.keeps_node {n : Nat} (moves : (Phase.queued n).Moves t s s' p' entry) :
    p'.node? = some n := by
  cases moves <;> rfl

namespace Enrolled

theorem start : Enrolled {} [] fun _ => .idle where
  represents := WaitSet.represents_empty
  fresh _ notified := Bool.noConfusion notified
  waiting := nofun
  node := nofun
  fits _ := trivial

theorem unique {n u : Nat} (enrolled : Enrolled s queue P) (mine : (P t).node? = some n)
    (also : (P u).node? = some n) : t = u :=
  (enrolled.node t n mine).2.symm.trans (enrolled.node u n also).2

/-- One access of a thread: what happens to the queue, and what the new phase of the thread says. -/
theorem shifts (enrolled : Enrolled s queue P) (moves : (P t).Moves t s s' p' entry) :
    ∃ queue', s.Shifts queue entry.popped p'.node? s' queue' ∧ p'.Fits s' queue' ∧
      ∀ n, p'.node? = some n → n < s'.made ∧ s'.threadOf n = t := by
  have fits := enrolled.fits t
  have node := enrolled.node t
  generalize P t = p at moves fits node
  have still : s.Shifts queue [] p'.node? s queue := .refl p'.node? enrolled.represents
  cases moves with
  | stays => exact ⟨queue, still, fits, node⟩
  | refuses => exact ⟨queue, still, trivial, nofun⟩
  | joins =>
    obtain ⟨made, thread, silent, others⟩ := s.join_nodes t
    have notified : ∀ n, ((s.make t).2.push s.made).isNotified n ↔ s.isNotified n := by
      intro n
      by_cases same : n = s.made
      · subst same
        simpa [silent] using fun before => Nat.lt_irrefl _ (enrolled.fresh _ before)
      · rw [(others n same).2]
    refine ⟨queue ++ [s.made], ?_, ?_, ?_⟩
    · refine ⟨enrolled.represents.join t, by omega, ?_, List.nodup_nil, nofun, ?_, ?_⟩
      · exact fun n below => (others n (Nat.ne_of_lt below)).1
      · simpa using notified
      · intro n other
        have not_new : n ≠ s.made := fun same => other (by rw [same]; rfl)
        simp [not_new]
    · exact ⟨fun _ => by simp [silent], fun _ => by simp⟩
    · intro n mine
      cases mine
      exact ⟨by omega, thread⟩
  | @withdraws n =>
    have marks := WaitSet.marks_remove s n
    obtain ⟨represents, found⟩ := enrolled.represents.remove n
    have absent : n ∉ queue.erase n := enrolled.represents.nodup.not_mem_erase
    refine ⟨queue.erase n, ?_, ⟨absent, ?_⟩, ?_⟩
    · refine ⟨represents, Nat.le_of_eq marks.made.symm, fun k _ => marks.threadOf k,
        List.nodup_nil, nofun, marks.notified, ?_⟩
      intro k other
      have not_mine : k ≠ n := fun same => other (by rw [same]; rfl)
      simp [List.mem_erase_of_ne not_mine]
    · have fits_n : n ∈ queue ↔ ¬ s.isNotified n := fits
      have same : (s.remove n).1.isNotified n ↔ s.isNotified n := by simp [marks.notified]
      rw [found, decide_eq_true_iff, fits_n, same]
    · intro k mine
      obtain ⟨made, thread⟩ := node k mine
      rw [marks.made, marks.threadOf]
      exact ⟨made, thread⟩
  | regains => exact ⟨queue, still, fits, node⟩
  | @expires n => exact ⟨queue, still, ⟨fits.1, Or.inl ⟨rfl, fits.2.mp rfl⟩⟩, node⟩
  | succeeds => exact ⟨queue, still, trivial, nofun⟩
  | cancels => exact ⟨queue, still, ⟨fits.1, Or.inr ⟨_, rfl⟩⟩, node⟩
  | expiresLate => exact ⟨queue, still, ⟨fits.1, Or.inl ⟨rfl, fits.2.mp rfl⟩⟩, node⟩
  | succeedsLate => exact ⟨queue, still, trivial, nofun⟩
  | passesNobody nobody | signalsNobody nobody =>
    obtain rfl := enrolled.represents.eq_nil_of_pop nobody
    rw [enrolled.represents.head_eq]
    exact ⟨[], still, trivial, nofun⟩
  | passes pops =>
    obtain ⟨n, rest, rfl, -, represents, marks⟩ := enrolled.represents.eq_cons_of_pop pops
    rw [enrolled.represents.head_eq]
    have shifts (own : Option Nat) := WaitSet.Shifts.of_pop own enrolled.represents represents marks
    refine ⟨rest, shifts _, ?_, ?_⟩
    · -- the node that is popped is another one, since the wait's own node is not in the queue
      exact Phase.Fits.shift fits (shifts none) nofun
    · intro k mine
      obtain ⟨made, thread⟩ := node k mine
      rw [marks.made, marks.threadOf]
      exact ⟨made, thread⟩
  | hands => exact ⟨queue, still, trivial, nofun⟩
  | signals pops =>
    obtain ⟨n, rest, rfl, -, represents, marks⟩ := enrolled.represents.eq_cons_of_pop pops
    rw [enrolled.represents.head_eq]
    exact ⟨rest, .of_pop none enrolled.represents represents marks, trivial, nofun⟩
  | broadcasts =>
    obtain ⟨-, represents, marks⟩ := enrolled.represents.popAll
    rw [enrolled.represents.toList_eq]
    refine ⟨[], ⟨represents, Nat.le_of_eq marks.made.symm, fun k _ => marks.threadOf k,
      enrolled.represents.nodup, fun _ inside => inside, marks.notified, ?_⟩, trivial, nofun⟩
    simp

/-- One access keeps the nodes of the wait set those of the waits in progress. -/
theorem access (enrolled : Enrolled s queue P) (moves : (P t).Moves t s s' p' entry) :
    ∃ queue', s.Shifts queue entry.popped p'.node? s' queue' ∧
      Enrolled s' queue' (Function.update P t p') := by
  obtain ⟨queue', shifts, fits_t, node_t⟩ := enrolled.shifts moves
  have apart {u n : Nat} (other : u ≠ t) (mine : (P u).node? = some n) : p'.node? ≠ some n := by
    intro same
    obtain ⟨below, thread⟩ := enrolled.node u n mine
    have mover := (node_t n same).2
    rw [shifts.threadOf n below] at mover
    exact other (thread.symm.trans mover)
  refine ⟨queue', shifts, shifts.represents, ?_, ?_, ?_, ?_⟩
  · intro n notified
    refine Nat.lt_of_lt_of_le ?_ shifts.made_le
    rcases (shifts.notified n).mp notified with popped | before
    · exact enrolled.represents.made n (shifts.before n popped)
    · exact enrolled.fresh n before
  · intro n inside
    by_cases own : p'.node? = some n
    · rw [(node_t n own).2, Function.update_self]
      exact (fits_t.eq_queued own inside).1
    · have queued := ((shifts.queued n own).mp inside).1
      have waits := enrolled.waiting n queued
      have other : s.threadOf n ≠ t := by
        rintro rfl
        rw [waits] at moves
        exact own moves.keeps_node
      rw [shifts.threadOf n (enrolled.represents.made n queued), Function.update_of_ne other]
      exact waits
  · intro u n mine
    by_cases same : u = t
    · subst same
      rw [Function.update_self] at mine
      exact node_t n mine
    · rw [Function.update_of_ne same] at mine
      obtain ⟨below, thread⟩ := enrolled.node u n mine
      rw [shifts.threadOf n below]
      exact ⟨Nat.lt_of_lt_of_le below shifts.made_le, thread⟩
  · intro u
    by_cases same : u = t
    · subst same
      rwa [Function.update_self]
    · rw [Function.update_of_ne same]
      exact (enrolled.fits u).shift shifts fun n mine => apart same mine

/-- A node that is popped was queued, so its wait goes on. -/
theorem goes_on_of_popped {own : Option Nat} {n : Nat} (enrolled : Enrolled s queue P)
    (shifts : s.Shifts queue popped own s' queue') (moves : (P t).Moves t s s' p' entry)
    (inside : n ∈ popped) : (Function.update P t p' (s.threadOf n)).node? = some n := by
  have waits := enrolled.waiting n (shifts.before n inside)
  by_cases same : s.threadOf n = t
  · rw [same] at waits ⊢
    rw [waits] at moves
    rw [Function.update_self]
    exact moves.keeps_node
  · rw [Function.update_of_ne same, waits]
    rfl

/-- A node without a wait is not in the queue and is not popped either. -/
theorem flag_of_gone {own : Option Nat} {n : Nat} (enrolled : Enrolled s queue P)
    (shifts : s.Shifts queue popped own s' queue') (moves : (P t).Moves t s s' p' entry)
    (enrolled' : Enrolled s' queue' (Function.update P t p'))
    (gone : ∀ u, (Function.update P t p' u).node? ≠ some n) :
    n ∉ queue' ∧ s'.isNotified n = s.isNotified n := by
  refine ⟨fun queued => gone (s'.threadOf n) (by rw [enrolled'.waiting n queued]; rfl), ?_⟩
  rw [Bool.eq_iff_iff, shifts.notified]
  refine ⟨fun notified => notified.resolve_left fun now => ?_, Or.inr⟩
  exact gone _ (enrolled.goes_on_of_popped shifts moves now)

end Enrolled

variable {V β : Type} {allowed : Nat → (shared V).Action β → Prop} {value : V} {settings : Settings}
  {u : System (shared V) β} {trace : List (Turn (shared V))}

/-- In every state of every run the nodes of the wait set belong to the waits in progress. -/
theorem enrolled_of_run
    (run : System.Run allowed { state := Monitor.new value settings } u trace) :
    Enrolled u.state.waiters u.state.waiters.toList (phases u.stage?) := by
  refine run.stages_induction (M := fun _ => True)
    (I := fun (m : Monitor V) stages _ => Enrolled m.waiters m.waiters.toList (phases stages))
    (System.stage?_start _) (fun _ _ _ => trivial)
    ?start ?enters ?takes ?elapses
  case start => exact .start
  case enters =>
    intro m stages trace t call enrolled none_t _
    rwa [phases_enter none_t]
  case takes =>
    intro stages trace a enrolled some_t _ taken
    rw [phases_update]
    obtain ⟨queue', -, enrolled'⟩ := enrolled.access (phases_moves some_t taken)
    rwa [enrolled'.represents.toList_eq]
  case elapses => exact fun _ enrolled => enrolled

/-- The nodes of the wait set that an access finds belong to the waits in progress. -/
theorem enrolled_before {a : Turn (shared V)}
    (run : System.Run allowed { state := Monitor.new value settings } u trace)
    (same : u.state = a.before) :
    Enrolled a.before.waiters a.before.waiters.toList (phases u.stage?) :=
  same ▸ enrolled_of_run run

/-- A node of the wait set belongs to a thread that has joined it and not left. -/
theorem exists_stage_of_inside
    (run : System.Run allowed { state := Monitor.new value settings } u trace) {n : Nat}
    (inside : n ∈ u.state.waiters.toList) :
    ∃ stage, u.stage? (u.state.waiters.threadOf n) = some stage ∧ stage.phase = .queued n := by
  have queued := (enrolled_of_run run).waiting n inside
  cases here : u.stage? (u.state.waiters.threadOf n) with
  | none =>
    rw [phases_of_none here] at queued
    cases queued
  | some stage =>
    rw [phases_of_some here] at queued
    exact ⟨stage, rfl, queued⟩

end Monitor

end Interlock

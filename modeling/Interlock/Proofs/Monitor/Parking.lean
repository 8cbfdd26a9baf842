import Interlock.Proofs.Monitor.Accounting
import Interlock.Proofs.Monitor.Interrupts

/-!
# Parked threads and those who wake them

A waiting thread reads whether its node is notified, whether an interrupt is pending, and parks. In
between a notifier may pop its node, or another thread interrupt it; both wake the thread only after
that. A permit that is left from a wake-up lets the thread go on, so it cannot park for good once
one of the two has happened: it has a permit, or somebody is about to give it one (`WakeDue`).
Permits may also be left from wake-ups that came late. They make a thread look around, but a wait
ends as notified or cancelled for reasons of its own only.
-/

namespace Interlock.Monitor

variable {V β : Type}

/-- The threads that a wait is about to wake. -/
def Waiting.toWake : Waiting → List Nat
  | handing _ thread _ => [thread]
  | _ => []

/-- The threads that a call is about to wake, one with each access. -/
def Stage.toWake : Stage V → List Nat
  | waking threads _ => threads
  | waiting wait | pausing _ _ _ wait => wait.toWake
  | _ => []

/-- The node of the wait in which a thread is parked, or about to park. -/
def Stage.parked? : Stage V → Option Nat
  | waiting (.watching node _ _ .park) | pausing _ _ _ (.watching node _ _ .park) => some node
  | _ => none

/-- The thread that an access wakes. -/
def wakes? (a : Turn (shared V)) : Option Nat :=
  a.stage.toWake.head?

/-- There was an access of some kind after which its thread has woken threads other than `t` only,
and is about to wake thread `t`. -/
def WakeDue (kind : Turn (shared V) → Prop) (t : Nat) (trace : List (Turn (shared V))) : Prop :=
  ∃ newer a older, trace = newer ++ a :: older ∧ kind a ∧
    (∀ b ∈ newer, b.thread = a.thread → ∃ r, wakes? b = some r ∧ r ≠ t) ∧
    ∃ stage, pending a.thread trace = some stage ∧ t ∈ stage.toWake

section Access

variable {t r n : Nat} {chance : Chance} {m m' : Monitor V} {queue : List Nat}

theorem Waiting.permits_of_wakes {wait : Waiting}
    {progress : Progress Waiting (Except Fault Ending)}
    (moves : wait.advance t chance m = some (m', progress)) (inside : r ∈ wait.toWake) :
    m'.permits = m.permits.set r true := by
  cases wait with
  | handing node thread result =>
    cases moves
    obtain rfl := List.mem_singleton.mp inside
    rfl
  | _ => cases inside

theorem Waiting.permits_of_still {wait : Waiting}
    {progress : Progress Waiting (Except Fault Ending)}
    (moves : wait.advance t chance m = some (m', progress)) (still : wait.toWake = []) :
    m'.permits = m.permits ∨ m'.permits = m.permits.set t false ∧
      ∃ node deadline levels, wait = watching node deadline levels .park := by
  cases wait with
  | watching node deadline levels glance =>
    cases glance with
    | park =>
      simp only [advance, Option.map_eq_some_iff] at moves
      obtain ⟨parked, park, moved⟩ := moves
      cases moved
      unfold Monitor.park at park
      repeat' split at park
      all_goals cases park
      · exact Or.inr ⟨rfl, node, deadline, levels, rfl⟩
      all_goals exact Or.inl rfl
    | _ =>
      simp only [advance] at moves
      repeat' split at moves
      all_goals cases moves
      all_goals exact Or.inl rfl
  | handing node thread result => cases still
  | _ =>
    simp only [advance] at moves
    repeat' split at moves
    all_goals cases moves
    all_goals exact Or.inl rfl

/-- An access gives a permit to the first thread that its call is about to wake. -/
theorem Stage.permits_of_wakes {stage : Stage V} {progress : Progress (Stage V) (Reply V)}
    (moves : stage.advance t chance m = some (m', progress))
    (first : stage.toWake.head? = some r) : m'.permits = m.permits.set r true := by
  cases stage with
  | waiting wait | pausing deadline condition tests wait =>
    obtain ⟨after, moved, -⟩ := Stage.advance_wait rfl moves
    exact Waiting.permits_of_wakes moved (List.mem_of_head? first)
  | waking threads reply =>
    rcases threads with _ | ⟨_, _ | _⟩ <;> cases first <;> cases moves <;> rfl
  | _ => cases first

/-- An access that wakes nobody changes no permit but that of a thread that parks. -/
theorem Stage.permits_of_still {stage : Stage V} {progress : Progress (Stage V) (Reply V)}
    (moves : stage.advance t chance m = some (m', progress)) (still : stage.toWake = []) :
    m'.permits = m.permits ∨ m'.permits = m.permits.set t false ∧
      ∃ node deadline levels, stage.wait? = some (.watching node deadline levels .park) := by
  cases stage with
  | identifying next =>
    cases moves
    left
    unfold identify
    split <;> rfl
  | waiting wait | pausing deadline condition tests wait =>
    obtain ⟨after, moved, -⟩ := Stage.advance_wait rfl moves
    refine (Waiting.permits_of_still moved still).imp_right ?_
    rintro ⟨used, node, deadline, levels, parks⟩
    exact ⟨used, node, deadline, levels, congrArg some parks⟩
  | notifying all =>
    left
    cases all <;> simp only [advance] at moves <;> split at moves <;> cases moves <;> rfl
  | waking threads reply =>
    obtain rfl : threads = [] := still
    cases moves
    exact Or.inl rfl
  | _ =>
    simp only [advance] at moves
    repeat' split at moves
    all_goals cases moves
    all_goals exact Or.inl rfl

/-- A thread that is to be woken is woken now, or still to be woken. -/
theorem Stage.wakes_or_toWake {stage : Stage V} {progress : Progress (Stage V) (Reply V)}
    (moves : stage.advance t chance m = some (m', progress)) (inside : r ∈ stage.toWake) :
    stage.toWake.head? = some r ∨ ∃ next, progress.stage? = some next ∧ r ∈ next.toWake := by
  cases stage with
  | waking threads reply =>
    rcases threads with _ | ⟨first, _ | ⟨second, rest⟩⟩ <;> cases moves
    · cases inside
    · exact Or.inl (congrArg some (List.mem_singleton.mp inside).symm)
    · rcases List.mem_cons.mp inside with same | later
      · exact Or.inl (congrArg some same.symm)
      · exact Or.inr ⟨_, rfl, later⟩
  | waiting wait | pausing deadline condition tests wait =>
    cases wait with
    | handing node thread result =>
      exact Or.inl (congrArg some (List.mem_singleton.mp inside).symm)
    | _ => cases inside
  | _ => cases inside

theorem pop_of_mem_head (represents : m.waiters.Represents queue)
    (inside : n ∈ m.waiters.head.toList) :
    ∃ s', m.waiters.pop = some (s', m.waiters.threadOf n) := by
  rw [represents.head_eq] at inside
  cases queue with
  | nil => cases inside
  | cons k rest =>
    obtain rfl : n = k := List.mem_singleton.mp inside
    obtain ⟨s', pops, -⟩ := represents.pop
    exact ⟨s', pops⟩

theorem Waiting.toWake_of_popped {wait : Waiting} {progress : Progress Waiting (Except Fault Ending)}
    (represents : m.waiters.Represents queue)
    (moves : wait.advance t chance m = some (m', progress))
    (inside : n ∈ (wait.entry m.waiters progress).popped) :
    ∃ next, progress.stage? = some next ∧ m.waiters.threadOf n ∈ next.toWake := by
  cases wait with
  | passing node result =>
    obtain ⟨s', pops⟩ := pop_of_mem_head represents inside
    rw [advance, pops] at moves
    cases moves
    exact ⟨_, rfl, List.mem_singleton.mpr rfl⟩
  | _ => cases inside

/-- Whoever pops a node is about to wake the thread of the node. -/
theorem Stage.toWake_of_popped {stage : Stage V} {progress : Progress (Stage V) (Reply V)}
    (represents : m.waiters.Represents queue)
    (moves : stage.advance t chance m = some (m', progress))
    (inside : n ∈ (stage.entry t chance m).popped) :
    ∃ next, progress.stage? = some next ∧ m.waiters.threadOf n ∈ next.toWake := by
  cases stage with
  | waiting wait | pausing deadline condition tests wait =>
    obtain ⟨after, moved, enters, -⟩ := Stage.advance_wait rfl moves
    rw [enters] at inside
    obtain ⟨next, goes_on, wakes⟩ := Waiting.toWake_of_popped represents moved inside
    rw [Progress.eq_ongoing goes_on] at moved
    rw [Stage.advance, moved] at moves
    cases moves
    exact ⟨_, rfl, wakes⟩
  | notifying all =>
    cases all with
    | false =>
      obtain ⟨s', pops⟩ := pop_of_mem_head represents inside
      rw [advance, pops] at moves
      cases moves
      exact ⟨_, rfl, List.mem_singleton.mpr rfl⟩
    | true =>
      have queued : n ∈ queue := by rwa [← represents.toList_eq]
      have threads : m.waiters.threadOf n ∈ m.waiters.popAll.2 := by
        rw [represents.popAll.1]
        exact List.mem_map_of_mem queued
      simp only [advance] at moves
      split at moves
      · rename_i pops
        rw [pops] at threads
        cases threads
      · rename_i pops
        rw [pops] at threads
        cases moves
        exact ⟨_, rfl, threads⟩
  | _ => cases inside

/-- A wait that goes on watching has looked at one thing and found nothing. -/
theorem Waiting.watching_of {wait : Waiting} {node levels : Nat} {deadline : Option Nat}
    {glance : Glance}
    (moves : wait.advance t chance m = some (m', .ongoing (watching node deadline levels glance)))
    (late : glance ≠ .node) :
    ∃ before, wait = watching node deadline levels before ∧ m' = m ∧
      (before = .node → glance = .interrupt ∧ ¬ m.waiters.isNotified node) ∧
      (before = .interrupt → ¬ (m.mailboxes.get t).pending) := by
  cases wait with
  | watching node' deadline' levels' before =>
    cases before with
    | park =>
      simp only [advance, Option.map_eq_some_iff] at moves
      obtain ⟨parked, -, moved⟩ := moves
      cases moved
      exact absurd rfl late
    | node =>
      simp only [advance] at moves
      split at moves <;> cases moves
      exact ⟨.node, rfl, rfl, fun _ => ⟨rfl, ‹_›⟩, fun wrong => absurd wrong (by decide)⟩
    | interrupt =>
      simp only [advance] at moves
      split at moves
      · cases moves
      · split at moves <;> cases moves <;>
          exact ⟨.interrupt, rfl, rfl, fun wrong => absurd wrong (by decide), fun _ => ‹_›⟩
    | clock =>
      simp only [advance] at moves
      split at moves <;> cases moves
      refine ⟨.clock, rfl, rfl, ?_, ?_⟩ <;> exact fun wrong => absurd wrong (by decide)
  | releasing node' deadline' lock =>
    simp only [advance] at moves
    split at moves <;> cases moves <;> exact absurd rfl late
  | _ =>
    simp only [advance, conclude] at moves
    repeat' split at moves
    all_goals cases moves

/-- A thread comes to watch in a wait only. -/
theorem Stage.watching_of {stage next : Stage V} {node levels : Nat} {deadline : Option Nat}
    {glance : Glance} (plain : stage.Plain)
    (moves : stage.advance t chance m = some (m', .ongoing next))
    (watches : next.wait? = some (.watching node deadline levels glance)) :
    ∃ wait, stage.wait? = some wait ∧
      wait.advance t chance m = some (m', .ongoing (.watching node deadline levels glance)) := by
  cases waits : stage.wait? with
  | none =>
    obtain ⟨outside, -⟩ := Stage.advance_outside plain waits moves
    change next.wait?.elim .outside Waiting.heed = .outside at outside
    rw [watches] at outside
    cases outside
  | some wait =>
    obtain ⟨after, moved, -, next_wait⟩ := Stage.advance_wait waits moves
    have goes_on : after.stage? = some (.watching node deadline levels glance) :=
      next_wait.symm.trans watches
    rw [Progress.eq_ongoing goes_on] at moved
    exact ⟨wait, rfl, moved⟩

end Access

variable {allowed : Nat → (shared V).Action β → Prop} {value : V} {settings : Settings}
  {u v : System (shared V) β} {t : Nat} {a : Turn (shared V)}
  {trace newer older : List (Turn (shared V))} {kind : Turn (shared V) → Prop}

theorem WakeDue.now (now : kind a)
    (wakes : ∃ next, a.progress.stage? = some next ∧ t ∈ next.toWake) :
    WakeDue kind t (a :: older) := by
  obtain ⟨next, goes_on, inside⟩ := wakes
  exact ⟨[], a, older, rfl, now, fun b member => absurd member List.not_mem_nil, next,
    by rwa [pending_cons_self], inside⟩

section Step

variable (run : System.Run allowed { state := Monitor.new value settings } v older)
  (here : v.stage? a.thread = some a.stage) (taken : a.Taken)
include taken

/-- A permit stays, unless its thread parks. -/
theorem permit_kept (permit : a.before.permits.get t)
    (awake : a.thread = t → ∀ node deadline levels,
      a.stage.wait? ≠ some (.watching node deadline levels .park)) :
    a.after.permits.get t := by
  cases first : a.stage.toWake.head? with
  | some r =>
    rw [Stage.permits_of_wakes taken first, Table.get_set]
    split
    · rfl
    · exact permit
  | none =>
    rcases Stage.permits_of_still taken (List.head?_eq_none_iff.mp first) with
      same | ⟨used, node, deadline, levels, parks⟩
    · rwa [same]
    · have other : t ≠ a.thread := by
        rintro rfl
        exact awake rfl node deadline levels parks
      rwa [used, Table.get_set_other _ _ other]

include run here

/-- A wake-up that is due has come with the access, or is due still. -/
theorem WakeDue.later (due : WakeDue kind t older) :
    a.after.permits.get t ∨ WakeDue kind t (a :: older) := by
  obtain ⟨newer, b, before, rfl, past, others, stage, left, inside⟩ := due
  by_cases mine : a.thread = b.thread
  · obtain rfl : stage = a.stage := by
      rw [← mine] at left
      have there := (run.stage?_eq (System.stage?_start _) a.thread).1 stage left
      exact Option.some.inj (there.symm.trans here)
    by_cases first : a.stage.toWake.head? = some t
    · left
      rw [Stage.permits_of_wakes taken first, Table.get_set_same]
    · right
      obtain ⟨next, goes_on, later⟩ := (Stage.wakes_or_toWake taken inside).resolve_left first
      refine ⟨a :: newer, b, before, rfl, past, ?_, next, ?_, later⟩
      · intro c member
        rcases List.mem_cons.mp member with rfl | member
        · intro _
          obtain ⟨r, head⟩ := Option.ne_none_iff_exists'.mp
            (mt List.head?_eq_none_iff.mp (List.ne_nil_of_mem inside))
          exact ⟨r, head, fun same => first (same ▸ head)⟩
        · exact others c member
      · rw [← mine, pending_cons_self, goes_on]
  · right
    refine ⟨a :: newer, b, before, rfl, past, ?_, stage, ?_, inside⟩
    · intro c member
      rcases List.mem_cons.mp member with rfl | member
      · exact fun same => absurd same mine
      · exact others c member
    · rwa [pending_cons_of_ne mine]

end Step

/-- What holds of thread `t` while it watches its node in a wait: once the node is notified, or an
interrupt is pending, after the thread has looked for it, the thread has a permit or is about to get
one. -/
structure Vigilant (t node : Nat) (glance : Glance) (m : Monitor V)
    (trace : List (Turn (shared V))) : Prop where
  notified : glance ≠ .node → m.waiters.isNotified node →
    m.permits.get t ∨ WakeDue (fun a => node ∈ (entry a).popped) t trace
  interrupted : glance = .clock ∨ glance = .park → (m.mailboxes.get t).pending →
    m.permits.get t ∨ WakeDue (fun a => raises t a) t trace

theorem Stage.node_of_watching {stage : Stage V} {node levels : Nat} {deadline : Option Nat}
    {glance : Glance} (watches : stage.wait? = some (.watching node deadline levels glance)) :
    stage.phase.node? = some node := by
  cases stage with
  | waiting | pausing =>
    cases watches
    rfl
  | _ => cases watches

theorem Stage.ne_ofCall_of_watching {stage : Stage V} {node levels : Nat} {deadline : Option Nat}
    {glance : Glance} (watches : stage.wait? = some (.watching node deadline levels glance))
    (call : Call V) : stage ≠ .ofCall call := by
  rintro rfl
  have outside := Stage.heed_ofCall call
  rw [Stage.heed, watches] at outside
  cases outside

section Step

variable {node levels : Nat} {deadline : Option Nat} {glance : Glance}
  (run : System.Run allowed { state := Monitor.new value settings } v older)
  (here : v.stage? a.thread = some a.stage) (taken : a.Taken)
include run here taken

/-- The thread itself looks at one thing after the other. -/
theorem Vigilant.own {wait : Waiting}
    (moved : wait.advance a.thread a.chance a.before =
      some (a.after, .ongoing (.watching node deadline levels glance)))
    (before : ∀ glance, wait = .watching node deadline levels glance →
      Vigilant a.thread node glance a.before older) :
    Vigilant a.thread node glance a.after (a :: older) := by
  by_cases early : glance = .node
  · subst early
    exact ⟨fun late => absurd rfl late, by simp⟩
  obtain ⟨earlier, watched, unchanged, node_seen, flag_seen⟩ := Waiting.watching_of moved early
  have vigilant := before earlier watched
  refine ⟨fun _ notified => ?_, fun late flag => ?_⟩
  · rw [unchanged] at notified
    have looked : earlier ≠ .node := fun first => (node_seen first).2 notified
    rcases vigilant.notified looked notified with permit | due
    · exact Or.inl (unchanged ▸ permit)
    · exact due.later run here taken
  · rw [unchanged] at flag
    have looked : earlier = .clock ∨ earlier = .park := by
      cases earlier with
      | node =>
        rw [(node_seen rfl).1] at late
        rcases late with late | late <;> cases late
      | interrupt => exact absurd flag (flag_seen rfl)
      | clock => exact Or.inl rfl
      | park => exact Or.inr rfl
    rcases vigilant.interrupted looked flag with permit | due
    · exact Or.inl (unchanged ▸ permit)
    · exact due.later run here taken

/-- Whoever notifies the node, or interrupts the thread, is about to wake it. -/
theorem Vigilant.other {stage : Stage V} (same : v.state = a.before) (other : a.thread ≠ t)
    (there : v.stage? t = some stage)
    (watches : stage.wait? = some (.watching node deadline levels glance))
    (vigilant : Vigilant t node glance a.before older) :
    Vigilant t node glance a.after (a :: older) := by
  have enrolled := enrolled_before run same
  have kept {kind : Turn (shared V) → Prop}
      (holds : a.before.permits.get t ∨ WakeDue kind t older) :
      a.after.permits.get t ∨ WakeDue kind t (a :: older) := by
    rcases holds with permit | due
    · exact Or.inl (permit_kept taken permit fun mine => absurd mine other)
    · exact due.later run here taken
  refine ⟨fun late notified => ?_, fun late flag => ?_⟩
  · obtain ⟨queue', shifts, -⟩ := enrolled.shifts (phases_moves here taken)
    rcases (shifts.notified node).mp notified with pops | before
    · have owner : a.before.waiters.threadOf node = t := by
        refine (enrolled.node t node ?_).2
        rw [phases_of_some there]
        exact Stage.node_of_watching watches
      have wakes := Stage.toWake_of_popped enrolled.represents taken pops
      rw [owner] at wakes
      exact Or.inr (.now pops wakes)
    · exact kept (vigilant.notified late before)
  · rw [pending_after taken, Bool.or_eq_true] at flag
    rcases flag with raise | before
    · have flags : a.stage = .raising t .flagging := Stage.eq_raising (of_decide_eq_true raise)
      have moves : a.stage.advance a.thread a.chance a.before = some (a.after, a.progress) := taken
      rw [flags] at moves
      obtain ⟨-, goes_on⟩ := Prod.mk.inj (Option.some.inj moves)
      refine Or.inr (.now raise ⟨.waking [t] .done, ?_, List.mem_singleton.mpr rfl⟩)
      rw [← goes_on]
      rfl
    · exact kept (vigilant.interrupted late (Bool.and_eq_true_iff.mp before).1)

end Step

theorem vigilant_of_run
    (run : System.Run allowed { state := Monitor.new value settings } u trace) :
    ∀ t stage node deadline levels glance, pending t trace = some stage →
      stage.wait? = some (.watching node deadline levels glance) →
      Vigilant t node glance u.state trace := by
  refine run.accesses_induction
    (I := fun (m : Monitor V) trace => ∀ t (stage : Stage V) node deadline levels glance,
      pending t trace = some stage → stage.wait? = some (.watching node deadline levels glance) →
      Vigilant t node glance m trace)
    ?start ?takes ?elapses
  case start =>
    intro t stage node deadline levels glance left
    cases left
  case takes =>
    intro v older a run_v same here taken ih t stage node deadline levels glance left watches
    by_cases mine : a.thread = t
    · subst mine
      rw [pending_cons_self] at left
      obtain ⟨wait, waits, moved⟩ := Stage.watching_of (plain_of_run run_v here)
        (taken.ongoing (Progress.eq_ongoing left)) watches
      refine Vigilant.own run_v here taken moved fun glance watched => ?_
      rw [watched] at waits
      have left := run_v.pending_of_stage? (System.stage?_start _) here
        (Stage.ne_ofCall_of_watching waits)
      exact ih a.thread a.stage node deadline levels glance left waits
    · rw [pending_cons_of_ne mine] at left
      have there := (run_v.stage?_eq (System.stage?_start _) t).1 stage left
      exact (ih t stage node deadline levels glance left watches).other run_v here taken same mine
        there watches
  case elapses =>
    intro m trace time ih t stage node deadline levels glance left watches
    have vigilant := ih t stage node deadline levels glance left watches
    exact ⟨vigilant.notified, vigilant.interrupted⟩

/-- A node is notified if and only if it has been popped. -/
theorem notified_iff_popped
    (run : System.Run allowed { state := Monitor.new value settings } u trace) (n : Nat) :
    u.state.waiters.isNotified n ↔ n ∈ popped trace := by
  refine run.accesses_induction
    (I := fun (m : Monitor V) trace => m.waiters.isNotified n ↔ n ∈ popped trace)
    ?start ?takes ?elapses
  case start => exact ⟨fun flag => Bool.noConfusion flag, fun inside => nomatch inside⟩
  case takes =>
    intro v older a run_v same here taken ih
    have enrolled := enrolled_before run_v same
    obtain ⟨queue', shifts, -⟩ := enrolled.shifts (phases_moves here taken)
    rw [shifts.notified, ih, popped, popped, List.flatMap_cons, List.mem_append]
  case elapses => exact fun _ ih => ih

/-- A wait that ends as notified has a node of its own, which is notified. -/
theorem Phase.Moves.notified_of_ended {t : Nat} {s s' : WaitSet} {queue : List Nat} {p p' : Phase}
    {e : Entry} {node? : Option Nat} (moves : p.Moves t s s' p' e) (fits : p.Fits s queue)
    (ended : e.ended = some (node?, .ok .notified)) : ∃ n, node? = some n ∧ s.isNotified n := by
  cases moves with
  | @succeeds n | @succeedsLate n =>
    cases ended
    refine ⟨n, rfl, ?_⟩
    by_contra silent
    exact Bool.noConfusion (fits.2.mpr silent)
  | passesNobody | hands =>
    cases ended
    rcases fits.2 with ⟨expired, -⟩ | ⟨message, cancelled⟩
    · cases expired
    · cases cancelled
  | _ => cases ended

theorem Stage.watching_of_parked {stage : Stage V} {node : Nat} (parked : stage.parked? = some node) :
    ∃ deadline levels, stage.wait? = some (.watching node deadline levels .park) := by
  cases stage with
  | waiting wait | pausing deadline condition tests wait =>
    cases wait with
    | watching node' deadline' levels glance =>
      cases glance with
      | park =>
        cases parked
        exact ⟨deadline', levels, rfl⟩
      | _ => cases parked
    | _ => cases parked
  | _ => cases parked

/-- A parked thread has joined the wait set and not left it itself. -/
theorem Stage.queued_of_parked {stage : Stage V} {node : Nat} (parked : stage.parked? = some node) :
    stage.phase = .queued node := by
  unfold Stage.parked? at parked
  split at parked <;> cases parked <;> rfl

/-- A wait that has taken an interrupt has cleared the flag itself. -/
theorem exists_consumes (some_text : consumed t trace ≠ []) :
    ∃ newer a older, trace = newer ++ a :: older ∧ (∀ b ∈ newer, b.thread = t → ¬ begins b) ∧
      consumes t a := by
  induction trace with
  | nil => exact absurd rfl some_text
  | cons a older ih =>
    by_cases clears : consumes t a
    · exact ⟨[], a, older, rfl, fun b member => absurd member List.not_mem_nil, clears⟩
    rw [consumed, if_neg clears, List.nil_append] at some_text
    have earlier : consumed t older ≠ [] ∧ (a.thread = t → ¬ begins a) := by
      by_cases mine : a.thread = t
      · rw [if_pos mine] at some_text
        by_cases first : begins a
        · rw [if_pos first] at some_text
          exact absurd rfl some_text
        · rw [if_neg first] at some_text
          exact ⟨some_text, fun _ => first⟩
      · rw [if_neg mine] at some_text
        exact ⟨some_text, fun same => absurd same mine⟩
    obtain ⟨newer, b, before, rfl, last, clears_b⟩ := ih earlier.1
    refine ⟨a :: newer, b, before, rfl, fun c member => ?_, clears_b⟩
    rcases List.mem_cons.mp member with rfl | member
    · exact earlier.2
    · exact last c member

/-- No waiting thread sleeps through its wake-up. In every state of every run:
if a thread without a permit is parked in a wait whose node is notified, then the thread that has
popped the node has only woken others since and is about to wake it; and if an interrupt of the
thread is pending, then the same holds of a thread that has set the flag. Permits decide nothing
else: a wait has ended as notified only if its own node was popped, and as cancelled only if its
thread has cleared its flag within the wait, after having been interrupted. -/
theorem no_wakeup_missed
    (run : System.Run allowed { state := Monitor.new value settings } u trace) :
    (∀ t node, (u.stage? t).bind Stage.parked? = some node → u.state.permits.get t = false →
      (u.state.waiters.isNotified node → WakeDue (fun a => node ∈ (entry a).popped) t trace) ∧
      ((u.state.mailboxes.get t).pending → WakeDue (fun a => raises t a) t trace)) ∧
    ∀ newer a older, trace = newer ++ a :: older →
      ∀ node? result, (entry a).ended = some (node?, result) →
        (result = .ok .notified → ∃ node, node? = some node ∧ ∃ b ∈ older, node ∈ (entry b).popped) ∧
        ∀ text, result = .error (.cancelled text) →
          ∃ between b before, a :: older = between ++ b :: before ∧
            (∀ c ∈ between, c.thread = a.thread → ¬ begins c) ∧ consumes a.thread b ∧
            raised a.thread before := by
  constructor
  · intro t node parks unpermitted
    obtain ⟨stage, here, parked⟩ := Option.bind_eq_some_iff.mp parks
    obtain ⟨deadline, levels, watches⟩ := Stage.watching_of_parked parked
    have left := run.pending_of_stage? (System.stage?_start _) here
      (Stage.ne_ofCall_of_watching watches)
    have vigilant := vigilant_of_run run t stage node deadline levels .park left watches
    have asleep : ¬ u.state.permits.get t := by simp [unpermitted]
    exact ⟨fun notified => (vigilant.notified nofun notified).resolve_left asleep,
      fun flag => (vigilant.interrupted (Or.inr rfl) flag).resolve_left asleep⟩
  · rintro newer a older rfl node? result ended
    obtain ⟨w, run_w, -⟩ := run.split
    obtain ⟨v, run_v, same, here, taken⟩ := run_w.at_access
    constructor
    · rintro rfl
      have moves := phases_moves here taken
      have fits := (enrolled_of_run run_v).fits a.thread
      rw [same] at fits
      obtain ⟨node, mine, notified⟩ := moves.notified_of_ended fits ended
      rw [← same, notified_iff_popped run_v, popped, List.mem_flatMap] at notified
      exact ⟨node, mine, notified⟩
    · rintro text rfl
      have some_text : consumed a.thread (a :: older) ≠ [] :=
        List.ne_nil_of_length_eq_add_one (reports_of_ended run_w ended).1
      obtain ⟨between, b, before, split, last, clears⟩ := exists_consumes some_text
      refine ⟨between, b, before, split, last, clears, ?_⟩
      rw [split] at run_w
      obtain ⟨x, run_x, -⟩ := run_w.split
      obtain ⟨y, run_y, same_y, -⟩ := run_x.at_access
      rw [← pending_eq_raised run_y, same_y]
      exact (consumes_iff.mp clears).2.2

/-- Thread `0` is parked in a wait. Thread `1` has popped its node and thread `2` has interrupted it;
neither has woken it yet. -/
@[irreducible]
def asleep : System (shared Unit) Unit × List (Turn (shared Unit)) :=
  let start : System (shared Unit) Unit := { state := Monitor.new () }
  let waiter : Action Unit Unit := Action.synchronized do
    let _ ← Action.wait none
  let notifier : Action Unit Unit := Action.synchronized do
    let _ ← Action.signal
  let turns := List.replicate 12 0 ++ List.replicate 6 1 ++ List.replicate 2 2
  (((start.assign 0 waiter).1.assign 1 notifier).1.assign 2 (Action.interrupt 0 none)).1.follow []
    (turns.map fun t => (t, {}))

theorem no_wakeup_missed_asleep :
    (asleep.1.stage? 0).bind Stage.parked? = some 0 ∧ asleep.1.state.permits.get 0 = false ∧
      WakeDue (fun a => 0 ∈ (entry a).popped) 0 asleep.2 ∧
      WakeDue (fun a => raises 0 a) 0 asleep.2 := by
  have run : System.Run (fun _ _ => True) { state := Monitor.new () } asleep.1 asleep.2 := by
    unfold asleep
    exact System.Run.follow (.assign 2 _ (.assign 1 _ (.assign 0 _ .start (by decide +kernel) trivial)
      (by decide +kernel) trivial) (by decide +kernel) trivial) _
  have parks : (asleep.1.stage? 0).bind Stage.parked? = some 0 := by decide +kernel
  have unpermitted : asleep.1.state.permits.get 0 = false := by decide +kernel
  obtain ⟨due, -⟩ := no_wakeup_missed run
  obtain ⟨notified, interrupted⟩ := due 0 0 parks unpermitted
  exact ⟨parks, unpermitted, notified (by decide +kernel), interrupted (by decide +kernel)⟩

end Interlock.Monitor

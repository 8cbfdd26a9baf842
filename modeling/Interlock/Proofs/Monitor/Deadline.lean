import Interlock.Proofs.Monitor.Parking

/-!
# Waits that run out of time

A wait computes its deadline when it begins, from its timeout and the clock, and compares the clock
with it in each round in which it finds neither a notification nor an interrupt. `Waiting.Keeps`
follows what is known of these times through a wait, whatever it is: a wait ends as expired only if
its node is still in the wait set when the thread leaves, and the thread leaves then because it has
found the time to be over. The other ways to leave are excluded: a node that is notified is not in
the wait set, and a wait that has seen an interrupt takes one.

`Times.of` is what the accesses of the wait itself tell of its times. With it the invariant says
that a wait which ends as expired `Expires`: it has looked at the clock at its own deadline or past
it.
-/

namespace Interlock.Monitor

variable {V β : Type}

/-- What is known of the times of a wait. -/
structure Times where
  /-- The timeouts with which it may have begun. -/
  begun : Option Nat → Prop
  /-- The deadlines that it may have. -/
  dated : Nat → Prop
  /-- Its deadline has passed. -/
  passed : Prop

/-- What is known of a wait that has come this far. -/
def Waiting.Keeps (times : Times) (s : WaitSet) : Waiting → Prop
  | entering timeout _ => times.begun timeout
  | dating timeout => times.begun (some timeout)
  | joining deadline | releasing _ deadline _ | watching _ deadline _ _ =>
    ∀ moment ∈ deadline, times.dated moment
  | withdrawing node _ interrupted => interrupted ∨ s.isNotified node ∨ times.passed
  | returning _ interrupted queued _ => interrupted ∨ (queued → times.passed)
  | consuming _ _ _ => True
  | passing _ result | handing _ _ result => result = .ok .expired → times.passed

/-- What is known of a wait after an access, or of how it has ended. -/
def Waiting.Kept (times : Times) (s : WaitSet) : Progress Waiting (Except Fault Ending) → Prop
  | .ongoing wait => wait.Keeps times s
  | .finished result => result = .ok .expired → times.passed

/-- More is known of the times of a wait. -/
structure Times.Weaker (times more : Times) : Prop where
  begun : ∀ timeout, times.begun timeout → more.begun timeout
  dated : ∀ moment, times.dated moment → more.dated moment
  passed : times.passed → more.passed

theorem Times.Weaker.refl (times : Times) : times.Weaker times :=
  ⟨fun _ => id, fun _ => id, id⟩

section Wait

variable {times more : Times} {s s' : WaitSet} {queue : List Nat} {wait : Waiting}

/-- What is known stays known while nodes are notified and time passes. -/
theorem Waiting.Keeps.mono (keeps : wait.Keeps times s) (weaker : times.Weaker more)
    (notified : ∀ n, s.isNotified n → s'.isNotified n) : wait.Keeps more s' := by
  cases wait with
  | entering timeout taking => exact weaker.begun timeout keeps
  | dating timeout => exact weaker.begun (some timeout) keeps
  | joining deadline | releasing _ deadline _ | watching _ deadline _ _ =>
    exact fun moment inside => weaker.dated moment (keeps moment inside)
  | withdrawing node levels interrupted =>
    exact Or.imp_right (Or.imp (notified node) weaker.passed) keeps
  | returning node interrupted queued lock =>
    exact Or.imp_right (fun passed still => weaker.passed (passed still)) keeps
  | consuming => trivial
  | passing | handing => exact fun expired => weaker.passed (keeps expired)

/-- What an access of a wait makes of what is known. The wait computes its deadline with one access,
and finds with another one that the time is over. -/
theorem Waiting.Keeps.advance {t : Nat} {chance : Chance} {m m' : Monitor V}
    {progress : Progress Waiting (Except Fault Ending)} (keeps : wait.Keeps times m.waiters)
    (moves : wait.advance t chance m = some (m', progress))
    (represents : m.waiters.Represents queue) (fits : wait.phase.Fits m.waiters queue)
    (alert : wait.heed = .alert → (m.mailboxes.get t).pending)
    (dates : ∀ timeout moment, wait = .dating timeout → times.begun (some timeout) →
      deadline? m.clock timeout = some moment → times.dated moment)
    (passes : ∀ node moment levels, wait = .watching node (some moment) levels .clock →
      times.dated moment → moment ≤ m.clock → times.passed) :
    Kept times m'.waiters progress := by
  cases wait with
  | entering timeout way =>
    cases way with
    | clearing =>
      by_cases flag : (m.mailboxes.get t).pending
      · rw [Waiting.advance, Mailbox.Taking.advance, if_pos flag] at moves
        cases moves
        exact keeps
      · rw [Waiting.advance, Mailbox.Taking.advance, if_neg flag] at moves
        cases timeout with
        | none =>
          cases moves
          intro moment inside
          cases inside
        | some timeout =>
          cases moves
          exact keeps
    | fetching =>
      cases moves
      intro expired
      cases expired
  | dating timeout =>
    cases moves
    exact fun moment computed => dates timeout moment rfl keeps computed
  | joining deadline =>
    cases moves
    exact keeps
  | releasing node deadline lock =>
    simp only [Waiting.advance] at moves
    split at moves <;> cases moves <;> exact keeps
  | watching node deadline levels glance =>
    cases glance with
    | node =>
      simp only [Waiting.advance] at moves
      split at moves <;> cases moves
      · exact Or.inr (Or.inl ‹_›)
      · exact keeps
    | interrupt =>
      simp only [Waiting.advance] at moves
      repeat' split at moves
      all_goals cases moves
      · exact Or.inl rfl
      · exact keeps
      · exact keeps
    | clock =>
      simp only [Waiting.advance] at moves
      split at moves <;> cases moves
      · rename_i passed
        cases deadline with
        | none => cases passed
        | some moment =>
          have late : moment ≤ m.clock := by simpa using passed
          exact Or.inr (Or.inr (passes node moment levels rfl (keeps moment rfl) late))
      · exact keeps
    | park =>
      simp only [Waiting.advance, Option.map_eq_some_iff] at moves
      obtain ⟨parked, -, moved⟩ := moves
      cases moved
      exact keeps
  | withdrawing node levels interrupted =>
    cases moves
    rcases keeps with interrupted | notified | passed
    · exact Or.inl interrupted
    · -- whoever notified the node has popped it, so the wait does not find it in the queue
      have absent : node ∉ queue := fun queued => (fits.mp queued) notified
      have removed : (m.waiters.remove node).2 = decide (node ∈ queue) :=
        (represents.remove node).2
      exact Or.inr fun still => absurd (of_decide_eq_true (removed.symm.trans still)) absent
    · exact Or.inr fun _ => passed
  | returning node interrupted queued lock =>
    simp only [Waiting.advance] at moves
    split at moves
    · cases moves
    · cases moves
      exact keeps
    · cases interrupted with
      | true =>
        cases moves
        trivial
      | false =>
        have passed : queued → times.passed := keeps.resolve_left Bool.false_ne_true
        cases queued with
        | true =>
          cases moves
          exact fun _ => passed rfl
        | false =>
          cases moves
          intro expired
          cases expired
  | consuming node queued way =>
    cases way with
    | clearing =>
      rw [Waiting.advance, Mailbox.Taking.advance, if_pos (alert rfl)] at moves
      cases moves
      trivial
    | fetching =>
      cases moves
      intro expired
      cases expired
  | passing node result =>
    simp only [Waiting.advance] at moves
    split at moves <;> cases moves <;> exact keeps
  | handing node thread result =>
    cases moves
    exact keeps

end Wait

/-- The timeout with which an access begins a wait. -/
def begun? (a : Turn (shared V)) : Option (Option Nat) :=
  match a.stage.wait? with
  | some (.entering timeout .clearing) => some timeout
  | _ => none

/-- The accesses of thread `t` since it began its last wait. -/
def waited (t : Nat) : List (Turn (shared V)) → List (Turn (shared V))
  | [] => []
  | a :: older =>
    if a.thread = t then a :: if begins a then [] else waited t older
    else waited t older

/-- The accesses are those of a wait with a timeout, and `moment` is this time after the clock that
the wait has read for its deadline. -/
def Dated (accesses : List (Turn (shared V))) (moment : Nat) : Prop :=
  ∃ limit, accesses.findSome? begun? = some (some limit) ∧ ∃ d ∈ accesses,
    d.stage.wait? = some (.dating limit) ∧ deadline? d.before.clock limit = some moment

/-- The accesses are those of a wait that has found the clock at its deadline or past it. -/
def Expires (accesses : List (Turn (shared V))) : Prop :=
  ∃ moment, Dated accesses moment ∧ ∃ c ∈ accesses,
    (∃ node levels, c.stage.wait? = some (.watching node (some moment) levels .clock)) ∧
      moment ≤ c.before.clock

/-- What the accesses of a wait tell of its times. -/
def Times.of (accesses : List (Turn (shared V))) : Times where
  begun timeout := accesses.findSome? begun? = some timeout
  dated := Dated accesses
  passed := Expires accesses

section Access

variable {a : Turn (shared V)} {older accesses : List (Turn (shared V))}

theorem begun?_eq_some {timeout : Option Nat} :
    begun? a = some timeout ↔ a.stage.wait? = some (.entering timeout .clearing) := by
  unfold begun?
  split
  · rename_i entering
    rw [entering]
    simp
  · rename_i other
    exact ⟨nofun, fun entering => absurd entering (other timeout)⟩

theorem begun?_eq_none (goes_on : begins a = false) : begun? a = none := by
  cases enters : begun? a with
  | none => rfl
  | some timeout =>
    rw [begins, begun?_eq_some.mp enters] at goes_on
    cases goes_on

theorem waited_cons_of_ne {t : Nat} (other : a.thread ≠ t) :
    waited t (a :: older) = waited t older := by
  rw [waited, if_neg other]

theorem waited_cons_self :
    waited a.thread (a :: older) = a :: if begins a then [] else waited a.thread older := by
  rw [waited, if_pos rfl]

/-- A wait tells more of its times with each access that it takes. -/
theorem Times.weaker_cons (goes_on : begins a = false) :
    (Times.of accesses).Weaker (.of (a :: accesses)) := by
  have begun : (a :: accesses).findSome? begun? = accesses.findSome? begun? := by
    rw [List.findSome?_cons, begun?_eq_none goes_on]
  have dated : ∀ moment, Dated accesses moment → Dated (a :: accesses) moment := by
    rintro moment ⟨limit, limited, d, member, dates⟩
    exact ⟨limit, begun.trans limited, d, List.mem_cons_of_mem a member, dates⟩
  refine ⟨fun timeout enters => begun.trans enters, dated, ?_⟩
  rintro ⟨moment, dates, c, member, late⟩
  exact ⟨moment, dated moment dates, c, List.mem_cons_of_mem a member, late⟩

variable {allowed : Nat → (shared V).Action β → Prop} {value : V} {settings : Settings}
  {v : System (shared V) β} {wait : Waiting}

/-- What an access of a wait makes of what is known of its times. -/
theorem keeps_of_access
    (run : System.Run allowed { state := Monitor.new value settings } v older)
    (same : v.state = a.before) (here : v.stage? a.thread = some a.stage) (taken : a.Taken)
    (waits : a.stage.wait? = some wait) {times : Times}
    (keeps : wait.Keeps times a.before.waiters)
    (dates : ∀ timeout moment, wait = .dating timeout → times.begun (some timeout) →
      deadline? a.before.clock timeout = some moment → times.dated moment)
    (passes : ∀ node moment levels, wait = .watching node (some moment) levels .clock →
      times.dated moment → moment ≤ a.before.clock → times.passed) :
    (∀ wait', a.progress.stage?.bind Stage.wait? = some wait' →
      wait'.Keeps times a.after.waiters) ∧
    ∀ node?, (entry a).ended = some (node?, .ok .expired) → times.passed := by
  obtain ⟨after, moves, enters, next⟩ := Stage.advance_wait waits taken
  have enrolled := enrolled_before run same
  have fits : wait.phase.Fits a.before.waiters a.before.waiters.toList := by
    rw [← Stage.phase_of_wait? waits, ← phases_of_some here]
    exact enrolled.fits a.thread
  have tells : Tells a.thread a.before older := same ▸ tells_of_run run
  have alert : wait.heed = .alert → (a.before.mailboxes.get a.thread).pending := by
    intro alert
    rw [Tells, standing_of_wait run here waits, alert] at tells
    exact tells.2
  have kept := keeps.advance moves enrolled.represents fits alert dates passes
  have ended : (entry a).ended = (wait.entry a.before.waiters after).ended :=
    congrArg Entry.ended enters
  rw [next, ended]
  cases after with
  | ongoing wait' =>
    refine ⟨?_, ?_⟩
    · intro wait'' goes_on
      cases goes_on
      exact kept
    · intro node? expired
      cases expired
  | finished result =>
    refine ⟨?_, ?_⟩
    · intro wait'' goes_on
      cases goes_on
    · intro node? expired
      cases expired
      exact kept rfl

/-- What is known of the times of a wait before it takes another access. -/
theorem keeps_before (waits : a.stage.wait? = some wait)
    (keeps : wait.heed ≠ .outside → wait.Keeps (.of (waited a.thread older)) a.before.waiters) :
    wait.Keeps (.of (waited a.thread (a :: older))) a.before.waiters := by
  rw [waited_cons_self]
  cases entering : begins a with
  | false =>
    refine (keeps ?_).mono (Times.weaker_cons entering) fun _ => id
    intro outside
    rw [begins_iff.mpr ⟨wait, waits, outside⟩] at entering
    cases entering
  | true =>
    obtain ⟨wait', waits', outside⟩ := begins_iff.mp entering
    cases waits.symm.trans waits'
    obtain ⟨timeout, rfl⟩ := Waiting.heed_eq_outside.mp outside
    show [a].findSome? begun? = some timeout
    rw [List.findSome?_cons, begun?_eq_some.mpr waits]

/-- What a wait knows of its times by its own accesses. -/
theorem keeps_of_own
    (run : System.Run allowed { state := Monitor.new value settings } v older)
    (same : v.state = a.before) (here : v.stage? a.thread = some a.stage) (taken : a.Taken)
    (waits : a.stage.wait? = some wait)
    (keeps : wait.heed ≠ .outside → wait.Keeps (.of (waited a.thread older)) a.before.waiters) :
    (∀ wait', a.progress.stage?.bind Stage.wait? = some wait' →
      wait'.Keeps (.of (waited a.thread (a :: older))) a.after.waiters) ∧
    ∀ node?, (entry a).ended = some (node?, .ok .expired) →
      Expires (waited a.thread (a :: older)) := by
  have mine : a ∈ waited a.thread (a :: older) := by
    rw [waited_cons_self]
    exact List.mem_cons_self ..
  refine keeps_of_access run same here taken waits (keeps_before waits keeps) ?dates ?passes
  case dates =>
    rintro timeout moment rfl limited computed
    exact ⟨timeout, limited, a, mine, waits, computed⟩
  case passes =>
    rintro node moment levels rfl dated late
    exact ⟨moment, dated, a, mine, ⟨node, levels, waits⟩, late⟩

/-- Nodes that are notified stay notified. -/
theorem notified_after
    (run : System.Run allowed { state := Monitor.new value settings } v older)
    (same : v.state = a.before) (here : v.stage? a.thread = some a.stage) (taken : a.Taken)
    (n : Nat) (notified : a.before.waiters.isNotified n) : a.after.waiters.isNotified n := by
  have enrolled := enrolled_before run same
  obtain ⟨queue', shifts, -⟩ := enrolled.shifts (phases_moves here taken)
  exact (shifts.notified n).mpr (Or.inr notified)

/-- A wait that has begun is where the last access of its thread has left it. -/
theorem left_of_begun
    (run : System.Run allowed { state := Monitor.new value settings } v older)
    (here : v.stage? a.thread = some a.stage) (waits : a.stage.wait? = some wait)
    (begun : wait.heed ≠ .outside) :
    (pending a.thread older).bind Stage.wait? = some wait := by
  have later : ∀ call : Call V, a.stage ≠ .ofCall call := by
    intro call entered
    have outside := Stage.heed_ofCall call
    rw [← entered, Stage.heed, waits] at outside
    exact begun outside
  rw [run.pending_of_stage? (System.stage?_start _) here later, Option.bind_some, waits]

/-- What is known of the times of a wait holds at every access of a run. -/
theorem keeps_of_run {u : System (shared V) β} {trace : List (Turn (shared V))} {t : Nat}
    (run : System.Run allowed { state := Monitor.new value settings } u trace)
    (waits : (pending t trace).bind Stage.wait? = some wait) (begun : wait.heed ≠ .outside) :
    wait.Keeps (.of (waited t trace)) u.state.waiters := by
  refine run.accesses_induction (I := fun (m : Monitor V) trace => ∀ wait,
      (pending t trace).bind Stage.wait? = some wait → wait.heed ≠ .outside →
        wait.Keeps (.of (waited t trace)) m.waiters)
    ?start ?takes ?elapses wait waits begun
  case start => exact fun _ => nofun
  case takes =>
    intro v older a run_v same here taken ih wait' left begun'
    by_cases other : a.thread ≠ t
    · rw [pending_cons_of_ne other] at left
      rw [waited_cons_of_ne other]
      exact (ih wait' left begun').mono (.refl _) (notified_after run_v same here taken)
    · obtain rfl : a.thread = t := not_not.mp other
      rw [pending_cons_self] at left
      cases waits : a.stage.wait? with
      | none =>
        have outside := (standing_apart run_v here taken waits).2.1
        rw [standing_eq, pending_cons_self, left] at outside
        exact absurd outside begun'
      | some wait =>
        refine (keeps_of_own run_v same here taken waits fun inside => ?_).1 wait' left
        exact ih wait (left_of_begun run_v here waits inside) inside
  case elapses => exact fun _ ih => ih

/-- A wait ends as expired only if it has found the clock at its deadline. -/
theorem expires_of_ended {u : System (shared V) β} {node? : Option Nat}
    (run : System.Run allowed { state := Monitor.new value settings } u (a :: older))
    (ended : (entry a).ended = some (node?, .ok .expired)) :
    Expires (waited a.thread (a :: older)) := by
  obtain ⟨v, run_v, same, here, taken⟩ := run.at_access
  cases waits : a.stage.wait? with
  | none =>
    rw [(standing_apart run_v here taken waits).2.2] at ended
    cases ended
  | some wait =>
    refine (keeps_of_own run_v same here taken waits fun inside => ?_).2 node? ended
    rw [← same]
    exact keeps_of_run run_v (left_of_begun run_v here waits inside) inside

end Access

end Interlock.Monitor

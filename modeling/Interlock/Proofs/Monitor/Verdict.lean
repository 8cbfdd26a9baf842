import Interlock.Proofs.Monitor.Deadline
import Interlock.Proofs.Monitor.Restoration

/-!
# What a call answers that waits for a condition

A call that waits for a condition alternates between tests and waits. It has a deadline if it has a
timeout and a clock can show the moment when it runs out. Each of its waits gets the time that is
left, and computes a deadline of its own from this time and from the clock, which meanwhile may have
gone on; so a wait of the call expires only when the deadline of the call has come, too
(`Times.within`). After a wait that has expired the call therefore tests its condition once more and
ends, whatever it finds.

`Stage.Foresees` says what is known at each stage of a call, in terms of what its own accesses have
found, and `Concludes` what the call makes of it when it ends.
-/

namespace Interlock.Monitor

variable {V β : Type}

/-- What an access finds if it tests a condition. -/
def verdict? (a : Turn (shared V)) : Option Bool :=
  match a.stage with
  | .testing _ condition _ => some (condition a.before.value).1
  | _ => none

/-- What the tests among some accesses have found, the latest one first. -/
def verdicts (accesses : List (Turn (shared V))) : List Bool :=
  accesses.filterMap verdict?

/-- The results of the waits that end with some accesses, the latest one first. -/
def endings (accesses : List (Turn (shared V))) : List (Except Fault Ending) :=
  accesses.filterMap fun a => (entry a).ended.map Prod.snd

/-- There is a deadline, and it has come. -/
def Due (limit : Option Nat) (now : Nat) : Prop :=
  ∃ moment ∈ limit, moment ≤ now

/-- What a call with a deadline knows of the times of a wait of its own: the wait is not over before
the deadline. -/
def Times.within (limit : Option Nat) (now : Nat) : Times where
  begun timeout := ∀ time ∈ timeout, Due limit (now + time)
  dated := Due limit
  passed := Due limit now

/-- All of the waits were notified. -/
def AllNotified (results : List (Except Fault Ending)) : Prop :=
  ∀ result ∈ results, result = .ok .notified

/-- All of the waits were notified, or the last one has expired and the deadline has come. -/
def Spent (limit : Option Nat) (now : Nat) (results : List (Except Fault Ending)) : Prop :=
  AllNotified results ∨
    Due limit now ∧ ∃ earlier, results = .ok .expired :: earlier ∧ AllNotified earlier

/-- What is known at a stage of a call that waits for a condition until a deadline: `own` are the
accesses that the call has taken. -/
def Stage.Foresees (limit : Option Nat) (condition : V → Bool × V) (now : Nat) (s : WaitSet)
    (own : List (Turn (shared V))) : Stage V → Prop
  | testing deadline asked _ =>
    deadline = limit ∧ asked = condition ∧ true ∉ verdicts own ∧ Spent limit now (endings own)
  | timing deadline asked _ met =>
    limit = some deadline ∧ asked = condition ∧
      (∃ earlier, verdicts own = met :: earlier ∧ true ∉ earlier) ∧ Spent limit now (endings own)
  | pausing deadline asked _ wait =>
    deadline = limit ∧ asked = condition ∧ true ∉ verdicts own ∧ AllNotified (endings own) ∧
      wait.Keeps (.within limit now) s
  | _ => False

/-- What is known of a call after an access, if `own` are the accesses that it had taken before. -/
def Concludes (limit : Option Nat) (condition : V → Bool × V) (a : Turn (shared V))
    (own : List (Turn (shared V))) : Progress (Stage V) (Reply V) → Prop
  | .ongoing stage =>
    stage.Foresees limit condition a.before.clock a.after.waiters (a :: own)
  | .finished (.met (.ok true) _) =>
    ∃ earlier, verdicts (a :: own) = true :: earlier ∧ true ∉ earlier
  | .finished (.met (.ok false) tests) =>
    ∃ deadline, limit = some deadline ∧ a.stage = .timing deadline condition tests false ∧
      deadline ≤ a.before.clock ∧ ∃ earlier, verdicts own = false :: earlier ∧ true ∉ earlier
  | .finished (.met (.error fault) _) => ∃ node?, (entry a).ended = some (node?, .error fault)
  | .finished _ => False

section Access

variable {limit : Option Nat} {condition : V → Bool × V} {now now' : Nat} {s s' : WaitSet}
  {a b : Turn (shared V)} {own older before : List (Turn (shared V))} {stage : Stage V}

theorem Due.mono (due : Due limit now) (le : now ≤ now') : Due limit now' := by
  obtain ⟨moment, inside, passed⟩ := due
  exact ⟨moment, inside, passed.trans le⟩

theorem Times.within_weaker (le : now ≤ now') :
    (Times.within limit now).Weaker (.within limit now') where
  begun _ begun time inside := (begun time inside).mono (Nat.add_le_add_right le time)
  dated _ := id
  passed due := due.mono le

theorem Spent.mono {results : List (Except Fault Ending)} (spent : Spent limit now results)
    (le : now ≤ now') : Spent limit now' results :=
  spent.imp_right fun expired => ⟨expired.1.mono le, expired.2⟩

/-- What is known stays known while others act and time passes. -/
theorem Stage.Foresees.mono (foresees : stage.Foresees limit condition now s own)
    (le : now ≤ now') (notified : ∀ n, s.isNotified n → s'.isNotified n) :
    stage.Foresees limit condition now' s' own := by
  cases stage with
  | testing deadline asked tests =>
    obtain ⟨same, asks, unmet, spent⟩ := foresees
    exact ⟨same, asks, unmet, spent.mono le⟩
  | timing deadline asked tests met =>
    obtain ⟨same, asks, found, spent⟩ := foresees
    exact ⟨same, asks, found, spent.mono le⟩
  | pausing deadline asked tests wait =>
    obtain ⟨same, asks, unmet, quiet, keeps⟩ := foresees
    exact ⟨same, asks, unmet, quiet, keeps.mono (Times.within_weaker le) notified⟩
  | _ => exact foresees.elim

theorem verdicts_cons_of_none (untested : verdict? a = none) :
    verdicts (a :: own) = verdicts own :=
  List.filterMap_cons_none untested

theorem verdicts_cons_of_some {met : Bool} (tested : verdict? a = some met) :
    verdicts (a :: own) = met :: verdicts own :=
  List.filterMap_cons_some tested

theorem endings_cons_of_none (goes_on : (entry a).ended = none) :
    endings (a :: own) = endings own :=
  List.filterMap_cons_none (by rw [goes_on]; rfl)

theorem endings_cons_of_some {node? : Option Nat} {result : Except Fault Ending}
    (ended : (entry a).ended = some (node?, result)) :
    endings (a :: own) = result :: endings own :=
  List.filterMap_cons_some (by rw [ended]; rfl)

/-- A call that tests its condition. -/
theorem concludes_of_testing {deadline : Option Nat} {asked : V → Bool × V} {tests : Nat}
    (here : a.stage = .testing deadline asked tests) (taken : a.Taken)
    (foresees : a.stage.Foresees limit condition a.before.clock a.before.waiters own) :
    Concludes limit condition a own a.progress := by
  have tested : verdict? a = some (asked a.before.value).1 := by rw [verdict?, here]
  have goes_on : (entry a).ended = none := by rw [entry, here]; rfl
  have moves : a.stage.advance a.thread a.chance a.before = some (a.after, a.progress) := taken
  rw [here] at foresees moves
  obtain ⟨rfl, rfl, unmet, spent⟩ := foresees
  have found : verdicts (a :: own) = (asked a.before.value).1 :: verdicts own :=
    verdicts_cons_of_some tested
  have ended : endings (a :: own) = endings own := endings_cons_of_none goes_on
  generalize a.progress = progress at moves ⊢
  cases deadline with
  | some deadline =>
    obtain ⟨-, rfl⟩ := Prod.mk.inj (Option.some.inj moves)
    refine ⟨rfl, rfl, ⟨_, found, unmet⟩, ?_⟩
    rwa [ended]
  | none =>
    simp only [Stage.advance] at moves
    split at moves
    case isTrue met =>
      obtain ⟨-, rfl⟩ := Prod.mk.inj (Option.some.inj moves)
      exact ⟨verdicts own, by rw [found, met], unmet⟩
    case isFalse failed =>
      obtain ⟨-, rfl⟩ := Prod.mk.inj (Option.some.inj moves)
      -- without a deadline no wait has expired
      have notified : AllNotified (endings own) := by
        rcases spent with notified | ⟨⟨moment, inside, -⟩, -⟩
        · exact notified
        · cases inside
      have unfound : (asked a.before.value).1 = false := eq_false_of_ne_true failed
      refine ⟨rfl, rfl, ?_, by rwa [ended], ?_⟩
      · rw [found, unfound]
        simpa using unmet
      · intro time inside
        cases inside

/-- A call that looks at the clock after a test. -/
theorem concludes_of_timing {deadline tests : Nat} {asked : V → Bool × V} {met : Bool}
    (here : a.stage = .timing deadline asked tests met) (taken : a.Taken)
    (foresees : a.stage.Foresees limit condition a.before.clock a.before.waiters own) :
    Concludes limit condition a own a.progress := by
  have untested : verdict? a = none := by rw [verdict?, here]
  have goes_on : (entry a).ended = none := by rw [entry, here]; rfl
  have moves : a.stage.advance a.thread a.chance a.before = some (a.after, a.progress) := taken
  rw [here] at foresees moves
  obtain ⟨rfl, rfl, ⟨earlier, found, unmet⟩, spent⟩ := foresees
  simp only [Stage.advance] at moves
  generalize progressed : a.progress = progress at moves ⊢
  split at moves
  case isTrue ends =>
    obtain ⟨-, rfl⟩ := Prod.mk.inj (Option.some.inj moves)
    cases met with
    | true => exact ⟨earlier, by rw [verdicts_cons_of_none untested, found], unmet⟩
    | false => exact ⟨deadline, rfl, here, by simpa using ends, earlier, found, unmet⟩
  case isFalse early =>
    obtain ⟨-, rfl⟩ := Prod.mk.inj (Option.some.inj moves)
    obtain ⟨failed, left⟩ := not_or.mp early
    obtain rfl : met = false := eq_false_of_ne_true failed
    -- a wait that has expired is the last one, since the call's deadline has come with it
    have notified : AllNotified (endings own) := by
      rcases spent with notified | ⟨⟨moment, inside, passed⟩, -⟩
      · exact notified
      · cases inside
        exact absurd passed left
    refine ⟨rfl, rfl, ?_, ?_, ?_⟩
    · rw [verdicts_cons_of_none untested, found]
      simpa using unmet
    · rwa [endings_cons_of_none goes_on]
    · intro time inside
      cases inside
      exact ⟨deadline, rfl, by omega⟩

variable {allowed : Nat → (shared V).Action β → Prop} {value : V} {settings : Settings}
  {v : System (shared V) β}

/-- A call in a wait of its own. -/
theorem concludes_of_pausing {deadline : Option Nat} {asked : V → Bool × V} {tests : Nat}
    {wait : Waiting}
    (run : System.Run allowed { state := Monitor.new value settings } v older)
    (same : v.state = a.before) (some_t : v.stage? a.thread = some a.stage)
    (here : a.stage = .pausing deadline asked tests wait) (taken : a.Taken)
    (foresees : a.stage.Foresees limit condition a.before.clock a.before.waiters own) :
    Concludes limit condition a own a.progress := by
  have untested : verdict? a = none := by rw [verdict?, here]
  have waits : a.stage.wait? = some wait := by rw [here]; rfl
  have moves : a.stage.advance a.thread a.chance a.before = some (a.after, a.progress) := taken
  rw [here] at foresees moves
  obtain ⟨rfl, rfl, unmet, notified, keeps⟩ := foresees
  obtain ⟨goes_on, expires⟩ := keeps_of_access run same some_t taken waits keeps
    (by
      -- the clock may have gone on since the call took the time that was left
      rintro time moment rfl begun computed
      unfold deadline? at computed
      split at computed <;> cases computed
      exact begun time rfl)
    (fun _ _ _ _ due passed => due.mono passed)
  obtain ⟨after, -, enters, progressed⟩ := Stage.advance_pausing moves
  have ended : (entry a).ended = (wait.entry a.before.waiters after).ended := by
    rw [entry, here, enters]
  rw [progressed] at goes_on ⊢
  cases after with
  | ongoing wait' =>
    refine ⟨rfl, rfl, ?_, ?_, goes_on wait' rfl⟩
    · rwa [verdicts_cons_of_none untested]
    · rwa [endings_cons_of_none ended]
  | finished result =>
    match result with
    | .error fault => exact ⟨wait.phase.node?, ended⟩
    | .ok .notified =>
      refine ⟨rfl, rfl, ?_, Or.inl ?_⟩
      · rwa [verdicts_cons_of_none untested]
      · rw [endings_cons_of_some ended]
        exact List.forall_mem_cons.mpr ⟨rfl, notified⟩
    | .ok .expired =>
      refine ⟨rfl, rfl, ?_, Or.inr ⟨expires _ ended, _, endings_cons_of_some ended, notified⟩⟩
      rwa [verdicts_cons_of_none untested]

/-- What becomes of a call with an access at one of its later stages. -/
theorem concludes_of_foresees
    (run : System.Run allowed { state := Monitor.new value settings } v older)
    (same : v.state = a.before) (some_t : v.stage? a.thread = some a.stage) (taken : a.Taken)
    (foresees : a.stage.Foresees limit condition a.before.clock a.before.waiters own) :
    Concludes limit condition a own a.progress := by
  cases here : a.stage with
  | testing deadline asked tests => exact concludes_of_testing here taken foresees
  | timing deadline asked tests met => exact concludes_of_timing here taken foresees
  | pausing deadline asked tests wait =>
    exact concludes_of_pausing run same some_t here taken foresees
  | _ =>
    rw [here] at foresees
    exact foresees.elim

/-- The call that thread `t` is in the middle of foresees what it can, if it waits for a
condition. -/
def CallForesees (t : Nat) (m : Monitor V) (trace : List (Turn (shared V))) : Prop :=
  ∀ {b before} {timeout : Option Nat} {condition : V → Bool × V} {stage : Stage V},
    opening t trace = some (b, before) → b.stage = .ofCall (.waitUntil timeout condition) →
      pending t trace = some stage →
        stage.Foresees (timeout.bind (deadline? b.before.clock)) condition m.clock m.waiters
          (called t trace)

/-- An access of a call that waits for a condition is the one that reads the clock for its deadline,
or the call foresees what it can. -/
theorem limits_or_foresees {timeout : Option Nat}
    (run : System.Run allowed { state := Monitor.new value settings } v older)
    (some_t : v.stage? a.thread = some a.stage)
    (began : a.opening older = (b, before))
    (calls : b.stage = .ofCall (.waitUntil timeout condition))
    (before_a : CallForesees a.thread a.before older) :
    (∃ time, timeout = some time ∧ a.stage = .limiting time condition ∧ b = a ∧
      called a.thread older = []) ∨
    a.stage.Foresees (timeout.bind (deadline? b.before.clock)) condition a.before.clock
      a.before.waiters (called a.thread older) := by
  rw [Turn.opening] at began
  cases earlier : opening a.thread older with
  | none =>
    rw [earlier] at began
    obtain ⟨rfl, rfl⟩ := Prod.mk.inj began
    have nothing : called a.thread older = [] := called_of_opening earlier
    cases timeout with
    | none =>
      right
      rw [calls, nothing]
      exact ⟨rfl, rfl, List.not_mem_nil, Or.inl (List.forall_mem_nil _)⟩
    | some time => exact Or.inl ⟨time, rfl, calls, rfl, nothing⟩
  | some first =>
    rw [earlier] at began
    obtain rfl : first = (b, before) := began
    right
    refine before_a earlier calls ?_
    rcases run.pending_or_enters (System.stage?_start _) some_t with left | ⟨left, -⟩
    · exact left
    · have middle := isSome_opening a.thread older
      rw [earlier, left] at middle
      cases middle

/-- What becomes of a call that waits for a condition with any access. -/
theorem concludes_of_access {timeout : Option Nat}
    (run : System.Run allowed { state := Monitor.new value settings } v older)
    (same : v.state = a.before) (some_t : v.stage? a.thread = some a.stage) (taken : a.Taken)
    (began : a.opening older = (b, before))
    (calls : b.stage = .ofCall (.waitUntil timeout condition))
    (before_a : CallForesees a.thread a.before older) :
    Concludes (timeout.bind (deadline? b.before.clock)) condition a (called a.thread older)
      a.progress := by
  rcases limits_or_foresees run some_t began calls before_a with
    ⟨time, rfl, limits, rfl, nothing⟩ | foresees
  · have moves : b.stage.advance b.thread b.chance b.before = some (b.after, b.progress) := taken
    have untested : verdict? b = none := by rw [verdict?, limits]
    have goes_on : (entry b).ended = none := by rw [entry, limits]; rfl
    rw [limits] at moves
    obtain ⟨-, progressed⟩ := Prod.mk.inj (Option.some.inj moves)
    rw [← progressed]
    refine ⟨rfl, rfl, ?_, Or.inl ?_⟩
    · rw [verdicts_cons_of_none untested, nothing]
      exact List.not_mem_nil
    · rw [endings_cons_of_none goes_on, nothing]
      exact List.forall_mem_nil _
  · exact concludes_of_foresees run same some_t taken foresees

theorem foresees_of_run {u : System (shared V) β} {trace : List (Turn (shared V))} {t : Nat}
    (run : System.Run allowed { state := Monitor.new value settings } u trace) :
    CallForesees t u.state trace := by
  refine run.accesses_induction (I := fun (m : Monitor V) trace => CallForesees t m trace)
    ?start ?takes ?elapses
  case start =>
    intro b before timeout condition stage began
    cases began
  case takes =>
    intro v older a run_v same here taken ih b before timeout condition stage began calls left
    have clock : a.after.clock = a.before.clock := Stage.advance_clock taken
    rw [clock]
    by_cases other : a.thread ≠ t
    · rw [opening_cons_of_ne other] at began
      rw [pending_cons_of_ne other] at left
      rw [called_cons_of_ne other]
      exact (ih began calls left).mono le_rfl (notified_after run_v same here taken)
    · obtain rfl : a.thread = t := not_not.mp other
      rw [pending_cons_self] at left
      have goes_on : a.ends = false := by rw [Turn.ends, left]; rfl
      rw [opening_of_not_ends goes_on] at began
      rw [called_of_not_ends goes_on]
      have concludes := concludes_of_access run_v same here taken (Option.some.inj began) calls ih
      rwa [Progress.eq_ongoing left] at concludes
  case elapses =>
    intro m trace time ih b before timeout condition stage began calls left
    exact (ih began calls left).mono (Nat.le_add_right _ time) fun _ => id

theorem verdict?_eq_some {met : Bool} (tested : verdict? a = some met) :
    ∃ deadline asked tests, a.stage = .testing deadline asked tests ∧
      (asked a.before.value).1 = met := by
  unfold verdict? at tested
  split at tested
  · rename_i deadline asked tests here
    exact ⟨deadline, asked, tests, here, Option.some.inj tested⟩
  · cases tested

/-- A test that finds the condition true leaves at most a look at the clock to be done. -/
theorem succeeds_of_verdict (taken : a.Taken) (tested : verdict? a = some true) :
    ∃ tests, a.progress = .finished (.met (.ok true) tests) ∨
      ∃ stage, a.progress = .ongoing stage ∧ ∀ t chance m,
        stage.advance t chance m = some (m, .finished (.met (.ok true) tests)) := by
  obtain ⟨deadline, asked, tests, here, met⟩ := verdict?_eq_some tested
  have moves : a.stage.advance a.thread a.chance a.before = some (a.after, a.progress) := taken
  rw [here] at moves
  refine ⟨tests + 1, ?_⟩
  cases deadline with
  | some deadline =>
    obtain ⟨-, progressed⟩ := Prod.mk.inj (Option.some.inj moves)
    refine Or.inr ⟨_, progressed.symm, fun t chance m => ?_⟩
    simp [Stage.advance, met]
  | none =>
    simp only [Stage.advance, met, if_true] at moves
    exact Or.inl (Prod.mk.inj (Option.some.inj moves)).2.symm

/-- After a test that has found the condition true there is neither a test nor a wait. -/
theorem stops_of_met (taken : a.Taken)
    (foresees : a.stage.Foresees limit condition now s own) (met : true ∈ verdicts own) :
    verdict? a = none ∧ a.stage.wait? = none ∧
      ∃ tests, a.progress = .finished (.met (.ok true) tests) := by
  have moves : a.stage.advance a.thread a.chance a.before = some (a.after, a.progress) := taken
  cases here : a.stage with
  | timing deadline asked tests found =>
    rw [here] at foresees moves
    obtain ⟨-, -, ⟨earlier, last, unmet⟩, -⟩ := foresees
    rw [last] at met
    obtain rfl : true = found := (List.mem_cons.mp met).resolve_right unmet
    simp only [Stage.advance, true_or, if_true] at moves
    refine ⟨by rw [verdict?, here], rfl, tests, ?_⟩
    exact (Prod.mk.inj (Option.some.inj moves)).2.symm
  | testing | pausing =>
    rw [here] at foresees
    exact absurd met foresees.2.2.1
  | _ =>
    rw [here] at foresees
    exact foresees.elim

/-- At each stage of a call, no wait of it has failed, and if one has expired, it is not in another
one. -/
theorem spent_or_pausing (foresees : a.stage.Foresees limit condition now s own) :
    (entry a).ended = none ∧ Spent limit now (endings own) ∨
      ∃ deadline asked tests wait, a.stage = .pausing deadline asked tests wait ∧
        AllNotified (endings own) := by
  cases here : a.stage with
  | testing deadline asked tests =>
    rw [here] at foresees
    exact Or.inl ⟨by rw [entry, here]; rfl, foresees.2.2.2⟩
  | timing deadline asked tests met =>
    rw [here] at foresees
    exact Or.inl ⟨by rw [entry, here]; rfl, foresees.2.2.2⟩
  | pausing deadline asked tests wait =>
    rw [here] at foresees
    exact Or.inr ⟨deadline, asked, tests, wait, rfl, foresees.2.2.2.1⟩
  | _ =>
    rw [here] at foresees
    exact foresees.elim

theorem AllNotified.not_mem {results : List (Except Fault Ending)} (notified : AllNotified results)
    {result : Except Fault Ending} (other : result ≠ .ok .notified) : result ∉ results :=
  fun inside => other (notified result inside)

theorem AllNotified.count_expired {results : List (Except Fault Ending)}
    (notified : AllNotified results) : results.count (.ok .expired) = 0 :=
  List.count_eq_zero.mpr (notified.not_mem nofun)

theorem Spent.count_le {results : List (Except Fault Ending)} (spent : Spent limit now results) :
    results.count (.ok .expired) ≤ 1 := by
  rcases spent with notified | ⟨-, earlier, rfl, notified⟩
  · rw [notified.count_expired]
    exact Nat.zero_le 1
  · rw [List.count_cons_self, notified.count_expired]

theorem Spent.not_error {results : List (Except Fault Ending)} (spent : Spent limit now results)
    (fault : Fault) : .error fault ∉ results := by
  rcases spent with notified | ⟨-, earlier, rfl, notified⟩
  · exact notified.not_mem nofun
  · exact List.not_mem_cons_of_ne_of_not_mem nofun (notified.not_mem nofun)

/-- At most one wait of a call expires. -/
theorem count_le_of_access
    (waits : (entry a).ended = none ∧ Spent limit now (endings own) ∨
      AllNotified (endings own)) : (endings (a :: own)).count (.ok .expired) ≤ 1 := by
  cases ended : (entry a).ended with
  | none =>
    rw [endings_cons_of_none ended]
    rcases waits with ⟨-, spent⟩ | notified
    · exact spent.count_le
    · exact (Nat.le_of_eq notified.count_expired).trans (Nat.zero_le 1)
  | some last =>
    obtain ⟨node?, result⟩ := last
    rw [endings_cons_of_some ended, List.count_cons]
    rcases waits with ⟨goes_on, -⟩ | notified
    · cases ended.symm.trans goes_on
    · rw [notified.count_expired]
      split <;> omega

/-- A wait of a call fails only with the access that ends the call. -/
theorem ended_of_mem_endings {fault : Fault}
    (waits : (entry a).ended = none ∧ Spent limit now (endings own) ∨
      AllNotified (endings own)) (failed : .error fault ∈ endings (a :: own)) :
    ∃ node?, (entry a).ended = some (node?, .error fault) := by
  cases ended : (entry a).ended with
  | none =>
    rw [endings_cons_of_none ended] at failed
    rcases waits with ⟨-, spent⟩ | notified
    · exact absurd failed (spent.not_error fault)
    · exact absurd failed (notified.not_mem nofun)
  | some last =>
    obtain ⟨node?, result⟩ := last
    rw [endings_cons_of_some ended] at failed
    rcases waits with ⟨goes_on, -⟩ | notified
    · cases ended.symm.trans goes_on
    · rcases List.mem_cons.mp failed with rfl | earlier
      · exact ⟨node?, rfl⟩
      · exact absurd earlier (notified.not_mem nofun)

/-- A call ends with the fault with which a wait of it fails. -/
theorem fails_of_ended {deadline : Option Nat} {asked : V → Bool × V} {tests : Nat}
    {wait : Waiting} {node? : Option Nat} {fault : Fault} (taken : a.Taken)
    (here : a.stage = .pausing deadline asked tests wait)
    (ended : (entry a).ended = some (node?, .error fault)) :
    a.progress = .finished (.met (.error fault) tests) := by
  have moves : a.stage.advance a.thread a.chance a.before = some (a.after, a.progress) := taken
  rw [here] at moves
  obtain ⟨after, -, enters, progressed⟩ := Stage.advance_pausing moves
  rw [entry, here, enters] at ended
  cases after with
  | ongoing wait' => cases ended
  | finished result =>
    cases ended
    exact progressed

/-- A wait fails only by being cancelled. -/
theorem cancelled_of_ended {node? : Option Nat} {fault : Fault}
    (run : System.Run allowed { state := Monitor.new value settings } v older)
    (same : v.state = a.before) (some_t : v.stage? a.thread = some a.stage) (taken : a.Taken)
    (ended : (entry a).ended = some (node?, .error fault)) : fault.isCancelled := by
  have enrolled := enrolled_before run same
  have told := (enrolled.fits a.thread).told
  exact ((phases_moves some_t taken).told told).2 node? fault ended

end Access

/-- What access `a` tells of its call, which has begun with access `b` to wait for a condition:
`own` are the accesses of the call before it, the latest one first. -/
structure Truthful (timeout : Option Nat) (condition : V → Bool × V) (b a : Turn (shared V))
    (own : List (Turn (shared V))) : Prop where
  /-- A test is one of the condition, and the thread holds the lock meanwhile. -/
  tests : ∀ {deadline asked tests}, a.stage = .testing deadline asked tests →
    asked = condition ∧ ∀ {levels}, Owns b.before a.thread levels → Owns a.before a.thread levels
  /-- With a test that finds the condition true the call ends as met, or the thread has one access
  left with which it does. This one is never blocked. -/
  succeeds : verdict? a = some true →
    ∃ tests, a.progress = .finished (.met (.ok true) tests) ∨
      ∃ stage, a.progress = .ongoing stage ∧ ∀ t chance m,
        stage.advance t chance m = some (m, .finished (.met (.ok true) tests))
  /-- After such a test the call neither tests the condition nor waits. -/
  stops : true ∈ verdicts own → verdict? a = none ∧ a.stage.wait? = none ∧
    ∃ tests, a.progress = .finished (.met (.ok true) tests)
  replies : ∀ {reply}, a.progress = .finished reply → ∃ result tests, reply = .met result tests
  /-- The last test of a call that ends as met is the first one to find the condition true. -/
  met : ∀ {tests}, a.progress = .finished (.met (.ok true) tests) →
    ∃ earlier, verdicts (a :: own) = true :: earlier ∧ true ∉ earlier
  /-- A call that ends as not met has found this with all of its tests, and after the last one it
  has found that the time since it began is over. -/
  unmet : ∀ {tests}, a.progress = .finished (.met (.ok false) tests) →
    verdicts own ≠ [] ∧ true ∉ verdicts own ∧
      ∃ time deadline, timeout = some time ∧ deadline? b.before.clock time = some deadline ∧
        a.stage = .timing deadline condition tests false ∧ deadline ≤ a.before.clock
  /-- A call ends with a fault if and only if one of its waits does, which then was cancelled. -/
  fails : ∀ {fault}, (∃ tests, a.progress = .finished (.met (.error fault) tests)) ↔
    .error fault ∈ endings (a :: own)
  cancelled : ∀ {fault}, .error fault ∈ endings (a :: own) → fault.isCancelled
  expires : (endings (a :: own)).count (.ok .expired) ≤ 1

section Run

variable {threads : Nat} {value : V} {settings : Settings} {u : System (shared V) β}
  {a b : Turn (shared V)} {older before trace : List (Turn (shared V))} {timeout : Option Nat}
  {condition : V → Bool × V}

theorem LawfulRun.truthful (run : LawfulRun threads value settings u (a :: older))
    (began : a.opening older = (b, before))
    (calls : b.stage = .ofCall (.waitUntil timeout condition)) :
    Truthful timeout condition b a (called a.thread older) := by
  obtain ⟨v, run_v, same, some_t, taken⟩ := run.at_access
  have foresees : CallForesees a.thread a.before older := same ▸ foresees_of_run run_v.run
  have concludes := concludes_of_access run_v.run same some_t taken began calls foresees
  have stands := limits_or_foresees run_v.run some_t began calls foresees
  have outside : b.stage.position = .outside := by
    have waits : (Call.waitUntil timeout condition).Waits := trivial
    rw [calls]
    exact (Stage.waits_ofCall waits).2
  generalize called a.thread older = own at concludes stands ⊢
  have waits : (entry a).ended = none ∧
        Spent (timeout.bind (deadline? b.before.clock)) a.before.clock (endings own) ∨
      ∃ deadline asked tests wait, a.stage = .pausing deadline asked tests wait ∧
        AllNotified (endings own) := by
    rcases stands with ⟨time, -, limits, -, rfl⟩ | foresees
    · exact Or.inl ⟨by rw [entry, limits]; rfl, Or.inl (List.forall_mem_nil _)⟩
    · exact spent_or_pausing foresees
  have notified := waits.imp_right fun ⟨_, _, _, _, _, notified⟩ => notified
  refine ⟨?tests, succeeds_of_verdict taken, ?stops, ?replies, ?met, ?unmet, ?fails, ?cancelled,
    count_le_of_access notified⟩
  case tests =>
    intro deadline asked tests here
    refine ⟨?_, fun owns => run.owns_during began outside owns (by rw [here]; rfl)⟩
    rcases stands with ⟨time, -, limits, -⟩ | foresees
    · cases limits.symm.trans here
    · rw [here] at foresees
      exact foresees.2.1
  case stops =>
    intro met
    rcases stands with ⟨time, -, -, -, rfl⟩ | foresees
    · cases met
    · exact stops_of_met taken foresees met
  case replies =>
    intro reply finished
    rw [finished] at concludes
    cases reply with
    | met result tests => exact ⟨result, tests, rfl⟩
    | _ => exact concludes.elim
  case met =>
    intro tests finished
    rw [finished] at concludes
    exact concludes
  case unmet =>
    intro tests finished
    rw [finished] at concludes
    obtain ⟨deadline, limited, here, late, earlier, found, unmet⟩ := concludes
    obtain ⟨time, rfl, dated⟩ := Option.bind_eq_some_iff.mp limited
    refine ⟨?_, ?_, time, deadline, rfl, dated, here, late⟩
    · rw [found]
      exact List.cons_ne_nil _ _
    · rw [found]
      simpa using unmet
  case fails =>
    intro fault
    constructor
    · rintro ⟨tests, finished⟩
      rw [finished] at concludes
      obtain ⟨node?, ended⟩ := concludes
      rw [endings_cons_of_some ended]
      exact List.mem_cons_self ..
    · intro failed
      obtain ⟨node?, ended⟩ := ended_of_mem_endings notified failed
      rcases waits with ⟨goes_on, -⟩ | ⟨deadline, asked, tests, wait, here, -⟩
      · cases ended.symm.trans goes_on
      · exact ⟨tests, fails_of_ended taken here ended⟩
  case cancelled =>
    intro fault failed
    obtain ⟨node?, ended⟩ := ended_of_mem_endings notified failed
    exact cancelled_of_ended run_v.run same some_t taken ended

/-- Waiting for a condition answers truthfully, whatever other threads do meanwhile, however time
passes, and whether or not parked threads wake up for no reason. The thread tests the condition on
the lock only. The call ends as met at the first test that finds the condition true, after which the
thread does not wait any more. It ends as not met only if all tests have failed, it has a deadline,
and the clock was at this deadline or past it when the thread looked at it after the last test. It
ends with a fault if and only if one of its waits was cancelled, and at most one of them expires. A
wait, whether it is one of such a call or not, expires only when it has found the clock at its own
deadline or past it, so it has a timeout which the clock can show the end of. -/
theorem waitUntil_truthful (few : threads < 2 ^ 64)
    (run : System.Run (fun t _ => t < threads) { state := Monitor.new value settings } u trace)
    (lawful : Lawful trace) :
    (∀ {newer older before : List (Turn (shared V))} {a b : Turn (shared V)}
      {timeout : Option Nat} {condition : V → Bool × V}, trace = newer ++ a :: older →
      a.opening older = (b, before) → b.stage = .ofCall (.waitUntil timeout condition) →
      Truthful timeout condition b a (called a.thread older)) ∧
    ∀ {newer older : List (Turn (shared V))} {a : Turn (shared V)} {node? : Option Nat},
      trace = newer ++ a :: older → (entry a).ended = some (node?, .ok .expired) →
      Expires (waited a.thread (a :: older)) := by
  have lawful_run : LawfulRun threads value settings u trace := ⟨few, run, lawful⟩
  constructor
  · rintro newer older before a b timeout condition rfl began calls
    obtain ⟨v, run_v⟩ := lawful_run.earlier
    exact run_v.truthful began calls
  · rintro newer older a node? rfl expired
    obtain ⟨v, run_v, -⟩ := run.split
    exact expires_of_ended run_v expired

end Run

/-- A condition that never holds. -/
def never (v : Unit) : Bool × Unit :=
  (false, v)

/-- Whether a stage is the one at which a call begins that waits for `never` with a timeout. -/
def Stage.limits (time : Nat) : Stage Unit → Bool
  | limiting timeout condition => timeout = time && !(condition ()).1
  | _ => false

theorem Stage.eq_of_limits {time : Nat} {stage : Stage Unit} (limits : stage.limits time) :
    stage = ofCall (.waitUntil (some time) never) := by
  cases stage with
  | limiting timeout condition =>
    obtain ⟨same, unmet⟩ := Bool.and_eq_true_iff.mp limits
    obtain rfl : timeout = time := of_decide_eq_true same
    have asks : condition = never := funext fun _ => Prod.ext (by simpa [never] using unmet) rfl
    rw [asks]
    rfl
  | _ => cases limits

/-- Thread `0` waits for a condition that never holds, with a timeout of 5. The time passes while it
is parked, so that its wait expires. -/
@[irreducible]
def lapsed : System (shared Unit) Unit × List (Turn (shared Unit)) :=
  let start : System (shared Unit) Unit := { state := Monitor.new () }
  let waiter : Action Unit Unit := Action.synchronized do
    let _ ← Action.waitUntil (some 5) never
  let first := (start.assign 0 waiter).1.follow [] (List.replicate 17 (0, {}))
  (first.1.elapse 5).follow first.2 (List.replicate 11 (0, {}))

theorem waitUntil_truthful_lapsed :
    Lawful lapsed.2 ∧
    (∃ a older, lapsed.2 = a :: older ∧
      (a.opening older).1.stage = .ofCall (.waitUntil (some 5) never) ∧
      verdicts (a :: called a.thread older) = [false, false] ∧
      endings (a :: called a.thread older) = [.ok .expired] ∧
      Truthful (some 5) never (a.opening older).1 a (called a.thread older)) ∧
    ∃ newer c earlier, lapsed.2 = newer ++ c :: earlier ∧
      (entry c).ended = some (some 0, .ok .expired) ∧ Expires (waited c.thread (c :: earlier)) := by
  have run : System.Run (fun t _ => t < 1) { state := Monitor.new () } lapsed.1 lapsed.2 := by
    unfold lapsed
    exact System.Run.follow (.elapse 5 (System.Run.follow
      (.assign 0 _ .start (by decide +kernel) (by decide)) _)) _
  have lawful : Lawful lapsed.2 := by decide +kernel
  have waited : lapsed.2.head?.any (fun a =>
      (a.opening lapsed.2.tail).1.stage.limits 5 &&
        verdicts (a :: called a.thread lapsed.2.tail) = [false, false] &&
        endings (a :: called a.thread lapsed.2.tail) = [.ok .expired]) = true := by decide +kernel
  have expired : lapsed.2.any (fun c => (entry c).ended = some (some 0, .ok .expired)) = true := by
    decide +kernel
  obtain ⟨truthful, expires⟩ := waitUntil_truthful (by decide) run lawful
  refine ⟨lawful, ?_, ?_⟩
  · cases same : lapsed.2 with
    | nil =>
      rw [same] at waited
      cases waited
    | cons a older =>
      rw [same] at waited
      simp only [List.head?_cons, List.tail_cons, Option.any_some, Bool.and_eq_true] at waited
      obtain ⟨⟨limits, found⟩, ended⟩ := waited
      have calls := Stage.eq_of_limits limits
      have last : lapsed.2 = [] ++ a :: older := same
      exact ⟨a, older, rfl, calls, of_decide_eq_true found, of_decide_eq_true ended,
        truthful last rfl calls⟩
  · obtain ⟨c, member, ended⟩ := List.any_eq_true.mp expired
    obtain ⟨newer, earlier, same⟩ := List.append_of_mem member
    have ends := of_decide_eq_true ended
    exact ⟨newer, c, earlier, same, ends, expires same ends⟩

end Interlock.Monitor

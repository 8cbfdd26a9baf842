import Interlock.Monitor.Call
import Interlock.Proofs.Run

/-!
# Where a thread is with respect to the lock

The stages of a call on a monitor fall into a few positions with respect to the lock: in none of
its procedures, in one of them (to enter or leave a level, to leave all levels for a wait, to
return to them), or off the lock in the middle of a wait. `Stage.advance_moves` says what one
access can do to the lock and to the position of the thread that takes it; every fact about the
lock follows from it, so that the other accesses of a monitor need not be looked at again.
-/

namespace Interlock.Monitor

variable {V β : Type}

/-- Where a thread is with respect to the lock. -/
inductive Position where
  | outside
  /-- About to make sure that it has an identity. -/
  | introducing (next : Position)
  /-- About to compare the owner with itself. -/
  | comparing
  | entering (lock : Lock.Stage)
  | departing (lock : Lock.Stage)
  /-- Off the lock in a wait; it will return to a number of levels. -/
  | away (levels : Nat)
  | returning (lock : Lock.Stage)
  deriving DecidableEq, Repr

namespace Position

/-- The stage of the lock's procedure that the thread is in. -/
def lock? : Position → Option Lock.Stage
  | entering lock | departing lock | returning lock => some lock
  | _ => none

end Position

/-- The number of levels that a thread has left. -/
def levelsLeft : Lock.Reply → Nat
  | .departed levels => levels
  | _ => 0

/-- The position of a thread in a wait. -/
def Waiting.position : Waiting → Position
  | releasing _ _ lock => .departing lock
  | watching _ _ levels _ | withdrawing _ levels _ => .away levels
  | returning _ _ _ lock => .returning lock
  | _ => .outside

/-- The position of a thread at a stage. -/
def Stage.position : Stage V → Position
  | identifying next => .introducing next.position
  | comparing => .comparing
  | locking lock => .entering lock
  | waiting wait | pausing _ _ _ wait => wait.position
  | _ => .outside

/-- The position of a thread whose wait has come this far. -/
def waitPosition {ρ : Type} : Progress Waiting ρ → Position
  | .ongoing wait => wait.position
  | .finished _ => .outside

/-- The position of a thread that may have a call in progress. -/
def positionOf (stage? : Option (Stage V)) : Position :=
  stage?.elim .outside Stage.position

/-- The positions of the threads at their stages. -/
def positions (stages : Nat → Option (Stage V)) (t : Nat) : Position :=
  positionOf (stages t)

theorem positions_update (stages : Nat → Option (Stage V)) (t : Nat)
    (stage? : Option (Stage V)) :
    positions (Function.update stages t stage?) =
      Function.update (positions stages) t (positionOf stage?) := by
  funext s
  exact Function.apply_update (fun _ => positionOf) stages t stage? s

theorem positions_of_none {stages : Nat → Option (Stage V)} {t : Nat} (none_t : stages t = none) :
    positions stages t = .outside := by
  simp [positions, none_t, positionOf]

theorem positions_of_some {stages : Nat → Option (Stage V)} {t : Nat} {stage : Stage V}
    (some_t : stages t = some stage) : positions stages t = stage.position := by
  simp [positions, some_t, positionOf]

theorem lock?_update (P : Nat → Position) (t : Nat) (p : Position) :
    (fun s => (Function.update P t p s).lock?) =
      Function.update (fun s => (P s).lock?) t p.lock? := by
  funext s
  exact Function.apply_update (fun _ => Position.lock?) P t p s

/-- The stage of the lock's procedure that a thread of a system is in. -/
def lockStage? (u : System (shared V) β) (t : Nat) : Option Lock.Stage :=
  (positionOf (u.stage? t)).lock?

/-- What one access of thread `t` can do to the lock and to the position of the thread. The last
argument is the reply of a procedure that enters or leaves a level, if it ends with the access. -/
inductive Position.Moves (t : Nat) (me : UInt64) (chance : Chance) (l : Lock) :
    Position → Lock → Position → Option Lock.Reply → Prop where
  | stays : Moves t me chance l outside l outside none
  | introduces {next : Position} : Moves t me chance l (introducing next) l next none
  | compares : Moves t me chance l comparing l outside none
  | leaves : Moves t me chance l outside l (departing .surrender) none
  | remains {levels : Nat} : Moves t me chance l (away levels) l (away levels) none
  | returns {levels : Nat} :
    Moves t me chance l (away levels) l (returning (.acquire .attempt levels)) none
  | enters {stage next : Lock.Stage} {l' : Lock}
    (moves : stage.advance t me chance l = some (l', .ongoing next)) :
    Moves t me chance l (entering stage) l' (entering next) none
  | entered {stage : Lock.Stage} {l' : Lock} {reply : Lock.Reply}
    (moves : stage.advance t me chance l = some (l', .finished reply)) :
    Moves t me chance l (entering stage) l' outside (some reply)
  | departs {stage next : Lock.Stage} {l' : Lock}
    (moves : stage.advance t me chance l = some (l', .ongoing next)) :
    Moves t me chance l (departing stage) l' (departing next) none
  | departed {stage : Lock.Stage} {l' : Lock} {reply : Lock.Reply}
    (moves : stage.advance t me chance l = some (l', .finished reply)) :
    Moves t me chance l (departing stage) l' (away (levelsLeft reply)) none
  | retakes {stage next : Lock.Stage} {l' : Lock}
    (moves : stage.advance t me chance l = some (l', .ongoing next)) :
    Moves t me chance l (returning stage) l' (returning next) none
  | retaken {stage : Lock.Stage} {l' : Lock} {reply : Lock.Reply}
    (moves : stage.advance t me chance l = some (l', .finished reply)) :
    Moves t me chance l (returning stage) l' outside none

/-- A call begins outside the lock's procedures, or at leaving a level, or by making sure of the
identity with which it will compare the owner. -/
theorem Stage.position_ofCall (call : Call V) :
    (ofCall call).position = .outside ∨ (ofCall call).position = .entering .leave ∨
      ∃ next, (ofCall call).position = .introducing next ∧
        (next = .comparing ∨ ∃ mayWait, next = .entering (.ask mayWait)) := by
  cases call with
  | lock => exact Or.inr (Or.inr ⟨_, rfl, Or.inr ⟨true, rfl⟩⟩)
  | tryLock => exact Or.inr (Or.inr ⟨_, rfl, Or.inr ⟨false, rfl⟩⟩)
  | holds => exact Or.inr (Or.inr ⟨_, rfl, Or.inl rfl⟩)
  | unlock => exact Or.inr (Or.inl rfl)
  | waitUntil timeout condition =>
    left
    cases timeout <;> rfl
  | _ => exact Or.inl rfl

theorem Stage.eq_identifying {stage : Stage V} {p : Position}
    (introducing : stage.position = .introducing p) :
    ∃ next, stage = identifying next ∧ next.position = p := by
  cases stage with
  | identifying next => exact ⟨next, rfl, Position.introducing.inj introducing⟩
  | waiting wait | pausing deadline condition tests wait => cases wait <;> cases introducing
  | _ => cases introducing

/-- Parking changes the permits only. -/
theorem park_eq_some {m m' : Monitor V} {t : Nat} {chance : Chance} {latest : Option Nat}
    (parks : m.park t chance latest = some m') : ∃ permits, m' = { m with permits } := by
  unfold park at parks
  split at parks
  · cases parks
    exact ⟨_, rfl⟩
  · split at parks
    · cases parks
      exact ⟨_, rfl⟩
    · split at parks
      · cases parks
      · split at parks <;> cases parks
        exact ⟨_, rfl⟩

theorem waitPosition_conclude (node : Nat) (queued : Bool) :
    waitPosition (Waiting.conclude node queued) = .outside := by
  cases queued <;> rfl

/-- What an access in a wait does to the lock. -/
theorem Waiting.advance_moves {t : Nat} {chance : Chance} {m m' : Monitor V} {wait : Waiting}
    {progress : Progress Waiting (Except Fault Ending)}
    (moves : wait.advance t chance m = some (m', progress)) :
    wait.position.Moves t (m.identities.get t) chance m.lock m'.lock (waitPosition progress)
      none := by
  cases wait with
  | entering timeout taking =>
    simp only [advance] at moves
    repeat' split at moves
    all_goals
      cases moves
      exact .stays
  | dating timeout =>
    cases moves
    exact .stays
  | joining deadline =>
    cases moves
    exact .leaves
  | releasing node deadline lock =>
    simp only [advance] at moves
    split at moves
    · cases moves
    · cases moves
      exact .departs ‹_›
    · cases moves
      exact .departed ‹_›
    · rename_i reply other stepped
      cases moves
      have none_left : levelsLeft reply = 0 := by
        cases reply with
        | departed levels => exact (other levels rfl).elim
        | entered => rfl
        | refused => rfl
      have departed := Position.Moves.departed stepped
      rwa [none_left] at departed
  | watching node deadline levels glance =>
    cases glance with
    | node =>
      simp only [advance] at moves
      split at moves <;> cases moves <;> exact .remains
    | interrupt =>
      simp only [advance] at moves
      repeat' split at moves
      all_goals
        cases moves
        exact .remains
    | clock =>
      simp only [advance] at moves
      split at moves <;> cases moves <;> exact .remains
    | park =>
      simp only [advance, Option.map_eq_some_iff] at moves
      obtain ⟨parked, park, moved⟩ := moves
      cases moved
      obtain ⟨permits, rfl⟩ := park_eq_some park
      exact .remains
  | withdrawing node levels interrupted =>
    cases moves
    exact .returns
  | returning node interrupted queued lock =>
    simp only [advance] at moves
    split at moves
    · cases moves
    · cases moves
      exact .retakes ‹_›
    · split at moves
      · cases moves
        exact .retaken ‹_›
      · cases moves
        rw [waitPosition_conclude]
        exact .retaken ‹_›
  | consuming node queued taking =>
    simp only [advance] at moves
    split at moves
    · cases moves
      exact .stays
    · cases moves
      exact .stays
    · cases moves
      rw [waitPosition_conclude]
      exact .stays
  | passing node result =>
    simp only [advance] at moves
    split at moves <;> cases moves <;> exact .stays
  | handing node thread result =>
    cases moves
    exact .stays

/-- What a wait leaves alone. -/
theorem Waiting.advance_frame {t : Nat} {chance : Chance} {m m' : Monitor V} {wait : Waiting}
    {progress : Progress Waiting (Except Fault Ending)}
    (moves : wait.advance t chance m = some (m', progress)) :
    m'.value = m.value ∧ m'.identities = m.identities ∧ m'.nextIdentity = m.nextIdentity ∧
      m'.clock = m.clock := by
  cases wait with
  | watching node deadline levels glance =>
    cases glance with
    | park =>
      simp only [advance, Option.map_eq_some_iff] at moves
      obtain ⟨parked, park, moved⟩ := moves
      cases moved
      obtain ⟨permits, rfl⟩ := park_eq_some park
      exact ⟨rfl, rfl, rfl, rfl⟩
    | _ =>
      simp only [advance] at moves
      repeat' split at moves
      all_goals
        cases moves
        exact ⟨rfl, rfl, rfl, rfl⟩
  | _ =>
    simp only [advance] at moves
    repeat' split at moves
    all_goals cases moves
    all_goals exact ⟨rfl, rfl, rfl, rfl⟩

namespace Stage

/-- The answer of a call that enters or leaves a level, if it ends with the access. -/
def levelReply? : Stage V → Progress (Stage V) (Reply V) → Option (Reply V)
  | locking _, .finished reply => some reply
  | _, _ => none

theorem levelReply?_waiting (wait : Waiting) (progress : Progress (Stage V) (Reply V)) :
    levelReply? (waiting wait) progress = none := by
  cases progress <;> rfl

theorem levelReply?_pausing (deadline : Option Nat) (condition : V → Bool × V) (tests : Nat)
    (wait : Waiting) (progress : Progress (Stage V) (Reply V)) :
    levelReply? (pausing deadline condition tests wait) progress = none := by
  cases progress <;> rfl

/-- What one access does to the lock and to the position of the thread. -/
theorem advance_moves {t : Nat} {chance : Chance} {m m' : Monitor V} {stage : Stage V}
    {progress : Progress (Stage V) (Reply V)}
    (moves : stage.advance t chance m = some (m', progress)) :
    ∃ reply, stage.position.Moves t (m.identities.get t) chance m.lock m'.lock
      (positionOf progress.stage?) reply ∧ levelReply? stage progress = reply.map ofLock := by
  cases stage with
  | identifying next =>
    cases moves
    refine ⟨none, ?_, rfl⟩
    have same : (m.identify t).lock = m.lock := by
      unfold identify
      split <;> rfl
    rw [same]
    exact .introduces
  | locking lock =>
    simp only [advance] at moves
    split at moves
    · cases moves
    · cases moves
      exact ⟨none, .enters ‹_›, rfl⟩
    · cases moves
      exact ⟨_, .entered ‹_›, rfl⟩
  | comparing =>
    cases moves
    exact ⟨none, .compares, rfl⟩
  | waiting wait =>
    simp only [advance] at moves
    refine ⟨none, ?_, levelReply?_waiting ..⟩
    split at moves
    · cases moves
    · cases moves
      exact Waiting.advance_moves ‹_›
    · cases moves
      exact Waiting.advance_moves ‹_›
  | pausing deadline condition tests wait =>
    simp only [advance] at moves
    refine ⟨none, ?_, levelReply?_pausing ..⟩
    split at moves
    · cases moves
    · cases moves
      exact Waiting.advance_moves ‹_›
    · cases moves
      exact Waiting.advance_moves ‹_›
    · cases moves
      exact Waiting.advance_moves ‹_›
  | notifying all =>
    cases all with
    | false =>
      simp only [advance] at moves
      split at moves <;> cases moves <;> exact ⟨none, .stays, rfl⟩
    | true =>
      simp only [advance] at moves
      split at moves <;> cases moves <;> exact ⟨none, .stays, rfl⟩
  | waking threads reply =>
    rcases threads with _ | ⟨_, _ | _⟩
    all_goals
      cases moves
      exact ⟨none, .stays, rfl⟩
  | testing deadline condition tests =>
    simp only [advance] at moves
    repeat' split at moves
    all_goals
      cases moves
      exact ⟨none, .stays, rfl⟩
  | raising target raising =>
    simp only [advance] at moves
    split at moves <;> cases moves <;> exact ⟨none, .stays, rfl⟩
  | taking taking =>
    simp only [advance] at moves
    split at moves <;> cases moves <;> exact ⟨none, .stays, rfl⟩
  | timing deadline condition tests met =>
    simp only [advance] at moves
    split at moves <;> cases moves <;> exact ⟨none, .stays, rfl⟩
  | limiting timeout condition =>
    cases moves
    exact ⟨none, .stays, rfl⟩
  | probing | counting | accessing f | peeking target =>
    cases moves
    exact ⟨none, .stays, rfl⟩

/-- Identities change only where a thread makes sure that it has one. -/
theorem advance_identities {t : Nat} {chance : Chance} {m m' : Monitor V} {stage : Stage V}
    {progress : Progress (Stage V) (Reply V)}
    (moves : stage.advance t chance m = some (m', progress)) :
    (m'.identities = m.identities ∧ m'.nextIdentity = m.nextIdentity ∧
        ∀ next, stage ≠ identifying next) ∨
      ∃ next, stage = identifying next ∧ m' = m.identify t := by
  cases stage with
  | identifying next =>
    cases moves
    exact Or.inr ⟨next, rfl, rfl⟩
  | waiting wait =>
    simp only [advance] at moves
    split at moves <;> cases moves
    all_goals
      have frame := Waiting.advance_frame ‹_›
      exact Or.inl ⟨frame.2.1, frame.2.2.1, nofun⟩
  | pausing deadline condition tests wait =>
    simp only [advance] at moves
    split at moves <;> cases moves
    all_goals
      have frame := Waiting.advance_frame ‹_›
      exact Or.inl ⟨frame.2.1, frame.2.2.1, nofun⟩
  | waking threads reply =>
    rcases threads with _ | ⟨_, _ | _⟩
    all_goals
      cases moves
      exact Or.inl ⟨rfl, rfl, nofun⟩
  | notifying all =>
    cases all <;> simp only [advance] at moves <;> split at moves <;> cases moves
    all_goals exact Or.inl ⟨rfl, rfl, nofun⟩
  | _ =>
    simp only [advance] at moves
    repeat' split at moves
    all_goals cases moves
    all_goals exact Or.inl ⟨rfl, rfl, nofun⟩

/-- Testing a condition changes the value only. -/
theorem advance_testing {t : Nat} {chance : Chance} {m m' : Monitor V} {deadline : Option Nat}
    {condition : V → Bool × V} {tests : Nat} {progress : Progress (Stage V) (Reply V)}
    (moves : (testing deadline condition tests).advance t chance m = some (m', progress)) :
    m' = { m with value := (condition m.value).2 } := by
  cases deadline with
  | some deadline =>
    cases moves
    rfl
  | none =>
    simp only [advance] at moves
    split at moves <;> cases moves <;> rfl

/-- The value changes only where a condition is tested and where the value is accessed. -/
theorem advance_value {t : Nat} {chance : Chance} {m m' : Monitor V} {stage : Stage V}
    {progress : Progress (Stage V) (Reply V)}
    (moves : stage.advance t chance m = some (m', progress)) :
    m'.value = m.value ∨
      (∃ deadline condition tests, stage = testing deadline condition tests ∧
        m' = { m with value := (condition m.value).2 }) ∨
      ∃ f, stage = accessing f ∧ m' = { m with value := f m.value } := by
  cases stage with
  | identifying next =>
    cases moves
    left
    unfold identify
    split <;> rfl
  | testing deadline condition tests =>
    exact Or.inr (Or.inl ⟨deadline, condition, tests, rfl, advance_testing moves⟩)
  | accessing f =>
    cases moves
    exact Or.inr (Or.inr ⟨f, rfl, rfl⟩)
  | waiting wait | pausing deadline condition tests wait =>
    simp only [advance] at moves
    split at moves <;> cases moves
    all_goals exact Or.inl (Waiting.advance_frame ‹_›).1
  | notifying all =>
    cases all <;> simp only [advance] at moves <;> split at moves <;> cases moves
    all_goals exact Or.inl rfl
  | waking threads reply =>
    rcases threads with _ | ⟨_, _ | _⟩
    all_goals
      cases moves
      exact Or.inl rfl
  | _ =>
    simp only [advance] at moves
    repeat' split at moves
    all_goals cases moves
    all_goals exact Or.inl rfl

/-- An access takes no time. -/
theorem advance_clock {t : Nat} {chance : Chance} {m m' : Monitor V} {stage : Stage V}
    {progress : Progress (Stage V) (Reply V)}
    (moves : stage.advance t chance m = some (m', progress)) : m'.clock = m.clock := by
  cases stage with
  | identifying next =>
    cases moves
    unfold identify
    split <;> rfl
  | waiting wait | pausing deadline condition tests wait =>
    simp only [advance] at moves
    split at moves <;> cases moves
    all_goals exact (Waiting.advance_frame ‹_›).2.2.2
  | notifying all =>
    cases all <;> simp only [advance] at moves <;> split at moves <;> cases moves <;> rfl
  | waking threads reply =>
    rcases threads with _ | ⟨_, _ | _⟩ <;> cases moves <;> rfl
  | _ =>
    simp only [advance] at moves
    repeat' split at moves
    all_goals cases moves
    all_goals rfl

end Stage

end Interlock.Monitor

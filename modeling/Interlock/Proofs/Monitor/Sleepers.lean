import Interlock.Monitor.Action
import Interlock.Monitor.Settings
import Interlock.Proofs.Monitor.Position
import Mathlib.Data.List.Nodup

/-!
# Sleepers on the lock's word

A thread that has fallen asleep on the word is woken by a release only if the release finds the
word contended. So whenever somebody sleeps, the word is contended, or a release that has found it
contended is about to wake a sleeper, or a thread that has stopped sleeping is about to mark the
word again. `Watched` states this together with what it rests on, and every access keeps it, by
whichever thread and on whichever path to the word.
-/

namespace Interlock.Monitor

variable {V β : Type}

/-- Nobody is left asleep: the sleepers are threads in the middle of acquiring the word, and while
there is one, the mark or the wake-up that it depends on is still to come. -/
structure Watched (l : Lock) (lock? : Nat → Option Lock.Stage) : Prop where
  nodup : l.sleepers.Nodup
  inside : ∀ t ∈ l.sleepers, ∃ levels, lock? t = some (.acquire .remark levels)
  watched : ∀ t ∈ l.sleepers, l.word = .contended ∨
    (∃ s levels, lock? s = some (.wake levels)) ∨
    ∃ s levels, s ∉ l.sleepers ∧ lock? s = some (.acquire .remark levels)

/-- A stage that no sleeper depends on. -/
def Unwatching (stage? : Option Lock.Stage) : Prop :=
  ∀ levels, stage? ≠ some (.wake levels) ∧ stage? ≠ some (.acquire .remark levels)

namespace Watched

variable {l l' : Lock} {lock? : Nat → Option Lock.Stage} {t : Nat} {stage? : Option Lock.Stage}

theorem not_asleep (watched : Watched l lock?) {stage : Lock.Stage} (here : lock? t = some stage)
    (other : ∀ levels, stage ≠ .acquire .remark levels) : t ∉ l.sleepers := by
  intro asleep
  obtain ⟨levels, remarks⟩ := watched.inside t asleep
  rw [here] at remarks
  exact other levels (Option.some.inj remarks)

/-- What a thread does that is awake does not matter to those asleep. -/
theorem inside_update (watched : Watched l lock?) (awake : t ∉ l.sleepers) {s : Nat}
    (asleep : s ∈ l.sleepers) :
    ∃ levels, Function.update lock? t stage? s = some (.acquire .remark levels) := by
  have other : s ≠ t := ne_of_mem_of_not_mem asleep awake
  rw [Function.update_of_ne other]
  exact watched.inside s asleep

/-- A thread that sleepers do not depend on may go anywhere, if it leaves the sleepers and a mark
on the word as they are. -/
theorem calm (watched : Watched l lock?) (unwatching : Unwatching (lock? t))
    (same : l'.sleepers = l.sleepers) (kept : l.word = .contended → l'.word = .contended) :
    Watched l' (Function.update lock? t stage?) := by
  have other : ∀ {s levels}, lock? s = some (.wake levels) ∨
      lock? s = some (.acquire .remark levels) → s ≠ t := by
    rintro s levels (wakes | remarks) rfl
    · exact (unwatching levels).1 wakes
    · exact (unwatching levels).2 remarks
  refine ⟨same ▸ watched.nodup, ?_, ?_⟩
  · intro s asleep
    obtain ⟨levels, remarks⟩ := watched.inside s (same ▸ asleep)
    exact ⟨levels, by rwa [Function.update_of_ne (other (Or.inr remarks))]⟩
  · intro s asleep
    rcases watched.watched s (same ▸ asleep) with
      marked | ⟨w, levels, wakes⟩ | ⟨w, levels, awake, remarks⟩
    · exact Or.inl (kept marked)
    · refine Or.inr (Or.inl ⟨w, levels, ?_⟩)
      rwa [Function.update_of_ne (other (Or.inl wakes))]
    · refine Or.inr (Or.inr ⟨w, levels, same ▸ awake, ?_⟩)
      rwa [Function.update_of_ne (other (Or.inr remarks))]

/-- A thread that marks the word looks after all sleepers. -/
theorem mark (watched : Watched l lock?) (awake : t ∉ l.sleepers)
    (same : l'.sleepers = l.sleepers) (marked : l'.word = .contended) :
    Watched l' (Function.update lock? t stage?) := by
  refine ⟨same ▸ watched.nodup, ?_, fun _ _ => Or.inl marked⟩
  intro s asleep
  rw [same] at asleep
  exact watched.inside_update awake asleep

/-- A thread that falls asleep has seen the mark. -/
theorem sleep (watched : Watched l lock?) (awake : t ∉ l.sleepers) (marked : l.word = .contended)
    (levels : Nat) :
    Watched { l with sleepers := l.sleepers ++ [t] }
      (Function.update lock? t (some (.acquire .remark levels))) := by
  refine ⟨?_, ?_, fun _ _ => Or.inl marked⟩
  · exact List.nodup_append.mpr ⟨watched.nodup, List.nodup_singleton t, by
      rintro s asleep _ (member : _ ∈ [t]) rfl
      exact awake (List.mem_singleton.mp member ▸ asleep)⟩
  · intro s asleep
    by_cases same : s = t
    · subst same
      exact ⟨levels, Function.update_self ..⟩
    · rw [Function.update_of_ne same]
      refine watched.inside s ?_
      simpa [same] using asleep

/-- A thread that stops sleeping looks after the others. -/
theorem stop (watched : Watched l lock?) {levels : Nat}
    (remarks : lock? t = some (.acquire .remark levels)) :
    Watched { l with sleepers := l.sleepers.erase t } lock? := by
  refine ⟨watched.nodup.erase t, ?_, ?_⟩
  · intro s asleep
    exact watched.inside s (List.mem_of_mem_erase asleep)
  · intro s _
    exact Or.inr (Or.inr ⟨t, levels, watched.nodup.not_mem_erase, remarks⟩)

/-- A wake-up reaches a sleeper, who then looks after the others, or nobody sleeps. -/
theorem wake (watched : Watched l lock?) (pick : Nat) {levels : Nat}
    (wakes : lock? t = some (.wake levels)) :
    Watched (l.wakeOne pick) (Function.update lock? t stage?) := by
  by_cases nobody : l.sleepers = []
  · refine ⟨?_, ?_, ?_⟩ <;> simp [Lock.wakeOne, nobody]
  · have some_sleep : 0 < l.sleepers.length := List.length_pos_iff.mpr nobody
    have inside : pick % l.sleepers.length < l.sleepers.length := Nat.mod_lt _ some_sleep
    obtain ⟨woken, woken_eq⟩ : ∃ w, l.sleepers[pick % l.sleepers.length] = w := ⟨_, rfl⟩
    have left : l.sleepers.eraseIdx (pick % l.sleepers.length) = l.sleepers.erase woken := by
      rw [← woken_eq, watched.nodup.erase_getElem]
    have member : woken ∈ l.sleepers := woken_eq ▸ List.getElem_mem inside
    obtain ⟨levels', remarks⟩ := watched.inside woken member
    have stopped := watched.stop remarks
    have awake : t ∉ l.sleepers := watched.not_asleep wakes nofun
    simp only [Lock.wakeOne, left]
    refine ⟨stopped.nodup, ?_, ?_⟩
    · intro s asleep
      exact watched.inside_update awake (List.mem_of_mem_erase asleep)
    · intro s _
      refine Or.inr (Or.inr ⟨woken, levels', watched.nodup.not_mem_erase, ?_⟩)
      rwa [Function.update_of_ne (ne_of_mem_of_not_mem member awake)]

/-- An access on the way to the word. -/
theorem acquire (watched : Watched l lock?) {chance : Chance} {progress : Lock.Acquire}
    {next : Option Lock.Acquire} {levels : Nat}
    (here : lock? t = some (.acquire progress levels))
    (moves : progress.advance t chance l = some (l', next)) :
    Watched l' (Function.update lock? t
      (some (next.elim (.own levels) fun progress => .acquire progress levels))) := by
  have awake_unless (other : progress ≠ .remark) : t ∉ l.sleepers :=
    watched.not_asleep here fun levels' same => other (Lock.Stage.acquire.inj same).1
  have unwatching (other : progress ≠ .remark) : Unwatching (lock? t) := by
    intro levels'
    simp [here, other]
  cases progress with
  | attempt =>
    simp only [Lock.Acquire.advance] at moves
    split at moves <;> cases moves
    · exact watched.calm (unwatching nofun) rfl (by simp_all)
    · exact watched.calm (unwatching nofun) rfl id
  | inspect spins =>
    cases moves
    exact watched.calm (unwatching nofun) rfl id
  | claim spins =>
    simp only [Lock.Acquire.advance] at moves
    split at moves <;> cases moves
    · exact watched.calm (unwatching nofun) rfl (by simp_all)
    · exact watched.calm (unwatching nofun) rfl id
  | mark =>
    simp only [Lock.Acquire.advance] at moves
    split at moves <;> cases moves
    · exact watched.mark (awake_unless nofun) rfl rfl
    · exact watched.mark (awake_unless nofun) rfl rfl
  | doze =>
    simp only [Lock.Acquire.advance] at moves
    split at moves
    case isTrue marked =>
      cases moves
      exact watched.sleep (awake_unless nofun) marked.1 levels
    case isFalse =>
      cases moves
      exact watched.calm (unwatching nofun) rfl id
  | remark =>
    simp only [Lock.Acquire.advance] at moves
    split at moves
    case isTrue asleep =>
      split at moves <;> cases moves
      have unchanged : Function.update lock? t (some (.acquire .remark levels)) = lock? := by
        rw [← here, Function.update_eq_self]
      simp only [Option.elim, unchanged]
      exact watched.stop here
    case isFalse awake =>
      split at moves <;> cases moves
      · exact watched.mark awake rfl rfl
      · exact watched.mark awake rfl rfl

/-- An access in a procedure of the lock. -/
theorem advance (watched : Watched l lock?) {me : UInt64} {chance : Chance} {stage : Lock.Stage}
    {progress : Progress Lock.Stage Lock.Reply} (here : lock? t = some stage)
    (moves : stage.advance t me chance l = some (l', progress)) :
    Watched l' (Function.update lock? t progress.stage?) := by
  have unwatching (notWake : ∀ levels, stage ≠ .wake levels)
      (notAcquire : ∀ progress levels, stage ≠ .acquire progress levels) :
      Unwatching (lock? t) := by
    intro levels
    simp [here, notWake levels, notAcquire .remark levels]
  cases stage with
  | acquire progress levels =>
    simp only [Lock.Stage.advance] at moves
    split at moves
    · cases moves
    · cases moves
      exact watched.acquire here ‹_›
    · cases moves
      exact watched.acquire here ‹_›
  | free levels =>
    simp only [Lock.Stage.advance] at moves
    split at moves
    case isTrue marked =>
      cases moves
      -- the thread itself is now the one that is about to wake a sleeper
      have awake : t ∉ l.sleepers := watched.not_asleep here nofun
      refine ⟨watched.nodup, fun s asleep => watched.inside_update awake asleep, ?_⟩
      intro s _
      exact Or.inr (Or.inl ⟨t, levels, Function.update_self ..⟩)
    case isFalse unmarked =>
      cases moves
      exact watched.calm (unwatching nofun nofun) rfl fun marked => absurd marked unmarked
  | wake levels =>
    cases moves
    exact watched.wake chance.pick here
  | tryWord =>
    simp only [Lock.Stage.advance] at moves
    split at moves <;> cases moves
    · exact watched.calm (unwatching nofun nofun) rfl (by simp_all)
    · exact watched.calm (unwatching nofun nofun) rfl id
  | _ =>
    simp only [Lock.Stage.advance] at moves
    repeat' split at moves
    all_goals cases moves
    all_goals exact watched.calm (unwatching nofun nofun) rfl id

/-- An access of a call on the monitor. -/
theorem moves {P : Nat → Position} {p : Position} {me : UInt64} {chance : Chance}
    {reply : Option Lock.Reply} (watched : Watched l fun s => (P s).lock?)
    (moves : (P t).Moves t me chance l l' p reply) :
    Watched l' fun s => (Function.update P t p s).lock? := by
  rw [lock?_update]
  generalize here : P t = old at moves
  have elsewhere (none_old : old.lock? = none) : Unwatching (P t).lock? := by
    intro levels
    simp [here, none_old]
  cases moves with
  | stays | compares | leaves | remains | returns | introduces =>
    exact watched.calm (elsewhere rfl) rfl id
  | enters moves | departs moves | retakes moves =>
    exact watched.advance (by rw [here]; rfl) moves
  | entered moves | departed moves | retaken moves =>
    exact watched.advance (by rw [here]; rfl) moves

end Watched

variable {allowed : Nat → Action V β → Prop} {value : V} {settings : Settings}
  {u : System (shared V) β} {results : List (Nat × β)}

/-- Every reachable state looks after its sleepers. -/
theorem watched_of_reaches
    (reached : System.Reaches allowed { state := Monitor.new value settings } u results) :
    Watched u.state.lock (lockStage? u) := by
  obtain ⟨trace, run⟩ := reached.exists_run
  refine run.stages_induction (M := fun _ => True)
    (I := fun (m : Monitor V) stages _ => Watched m.lock fun t => (positions stages t).lock?)
    (System.stage?_start _) (fun _ _ _ => trivial) ?start ?enters ?takes ?elapses
  case start =>
    refine ⟨?_, ?_, ?_⟩ <;> simp [Monitor.new]
  case enters =>
    intro m stages trace t call watched none_t _
    rw [positions_update, lock?_update]
    refine watched.calm (fun levels => ?_) rfl id
    simp [positions_of_none none_t, Position.lock?]
  case takes =>
    intro stages trace a watched some_t _ taken
    obtain ⟨reply, moves, -⟩ := Stage.advance_moves taken
    rw [← positions_of_some some_t] at moves
    rw [positions_update]
    exact watched.moves moves
  case elapses =>
    intro m stages trace time watched
    exact watched

/-- While a thread sleeps on the word, the word is contended, or a thread that has swapped the
contended word out is about to wake a sleeper, or a thread that is back from its sleep is about to
swap the contended word in. So it cannot be that the word is free, that all threads on the way to
the word are asleep, and that no thread is in the middle of a release. -/
theorem no_sleeper_stranded
    (reached : System.Reaches allowed { state := Monitor.new value settings } u results) :
    (∀ t ∈ u.state.lock.sleepers,
      (∃ levels, lockStage? u t = some (.acquire .remark levels)) ∧
      (u.state.lock.word = .contended ∨
        (∃ s levels, lockStage? u s = some (.wake levels)) ∨
        ∃ s levels, s ∉ u.state.lock.sleepers ∧
          lockStage? u s = some (.acquire .remark levels))) ∧
    ¬ (u.state.lock.word = .unlocked ∧ u.state.lock.sleepers ≠ [] ∧
      (∀ s progress levels, lockStage? u s = some (.acquire progress levels) →
        s ∈ u.state.lock.sleepers) ∧
      ∀ s levels, lockStage? u s ≠ some (.free levels) ∧ lockStage? u s ≠ some (.wake levels)) := by
  have watched := watched_of_reaches reached
  refine ⟨fun t asleep => ⟨watched.inside t asleep, watched.watched t asleep⟩, ?_⟩
  rintro ⟨free, somebody, all_asleep, no_release⟩
  obtain ⟨t, asleep⟩ := List.exists_mem_of_ne_nil _ somebody
  rcases watched.watched t asleep with
    marked | ⟨s, levels, wakes⟩ | ⟨s, levels, awake, remarks⟩
  · rw [free] at marked
    cases marked
  · exact (no_release s levels).2 wakes
  · exact awake (all_asleep s .remark levels remarks)

/-- Threads `0` and `1` compete for the lock; `0` has given the word back while `1` sleeps. -/
def handover : System (shared Unit) Unit :=
  let start : System (shared Unit) Unit := { state := Monitor.new () { spinLimit := 0 } }
  let turns := [0, 0, 0, 0, 0, 1, 1, 1, 1, 1, 1, 0, 0, 0]
  let both := ((start.assign 0 (Action.synchronized (return ()))).1.assign 1 Action.lock).1
  (both.follow [] (turns.map fun t => (t, {}))).1

theorem no_sleeper_stranded_handover :
    ∃ results, System.Reaches (fun _ _ => True)
        { state := Monitor.new () { spinLimit := 0 } } handover results ∧
      handover.state.lock.word = .unlocked ∧ handover.state.lock.sleepers = [1] ∧
      ((∃ s levels, lockStage? handover s = some (.wake levels)) ∨
        ∃ s levels, s ∉ handover.state.lock.sleepers ∧
          lockStage? handover s = some (.acquire .remark levels)) := by
  have run : System.Run (fun _ _ => True) { state := Monitor.new () { spinLimit := 0 } } handover
      _ := System.Run.follow (.assign 1 _ (.assign 0 _ .start rfl trivial) rfl trivial) _
  obtain ⟨results, reached⟩ := run.exists_reaches
  have free : handover.state.lock.word = .unlocked := by decide +kernel
  have asleep : handover.state.lock.sleepers = [1] := by decide +kernel
  have watched := ((no_sleeper_stranded reached).1 1 (by rw [asleep]; decide)).2
  rw [free] at watched
  exact ⟨results, reached, free, asleep, watched.resolve_left nofun⟩

end Interlock.Monitor

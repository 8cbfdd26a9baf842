import Interlock.Proofs.History
import Interlock.Proofs.Monitor.Group

/-!
# Locks that are never given back

A thread may exit while it has levels of a lock. The lock is then held for good: the owner that it
shows is the identity of the thread, and identities are never given again, so that no later thread
takes itself for the owner and finds the lock open.

Two facts carry this. A thread's first use of any monitor of the group gives it its identity, and
this is the only one that it or another thread finds there afterwards (`identities_settled`). And a
call that tells its thread that it holds the lock leaves the thread as the only one that has the
word (`Exclusive`), which a thread that has exited with a guard has for ever.
-/

namespace Interlock.Monitor

variable {V β : Type}

/-- The thread makes sure that it has an identity. -/
def Introduces (a : Turn (group V)) : Prop :=
  ∃ next, a.stage.2 = .identifying next

/-- The identity of the thread after its access: what it is told if it makes sure of one. -/
def identityAfter (a : Turn (group V)) : UInt64 :=
  a.after.identities.get a.thread

/-- The access ends a call by telling its thread that it has entered a level of the lock, or that it
holds the lock. -/
def Succeeds (a : Turn (shared V)) : Prop :=
  (a.stage = .comparing ∨ ∃ lock, a.stage = .locking lock) ∧ a.progress = .finished (.truth true)

/-- A thread whose call succeeds is the only one that has the word. -/
def Exclusive : List (Turn (shared V)) → Prop
  | [] => True
  | a :: older => (Succeeds a → ∀ s, HasWord s (a :: older) → s = a.thread) ∧ Exclusive older

section Absent

variable {t : Nat} {newer older : List (Turn (shared V))}

theorem hasWord_append_of_absent (absent : ∀ a ∈ newer, a.thread ≠ t) :
    HasWord t (newer ++ older) ↔ HasWord t older := by
  induction newer with
  | nil => rfl
  | cons a newer ih =>
    obtain ⟨other, rest⟩ := List.forall_mem_cons.mp absent
    rw [List.cons_append, hasWord_cons_of_ne (Ne.symm other)]
    exact ih rest

theorem guards_append_of_absent (absent : ∀ a ∈ newer, a.thread ≠ t) :
    guards t (newer ++ older) = guards t older := by
  induction newer with
  | nil => rfl
  | cons a newer ih =>
    obtain ⟨other, rest⟩ := List.forall_mem_cons.mp absent
    rw [List.cons_append, guards_cons_of_ne (Ne.symm other)]
    exact ih rest

/-- While a thread has the word and takes no access, no call of another one succeeds. -/
theorem not_succeeds_of_absent (exclusive : Exclusive (newer ++ older)) (has : HasWord t older)
    (absent : ∀ a ∈ newer, a.thread ≠ t) : ∀ a ∈ newer, ¬ Succeeds a := by
  induction newer with
  | nil => simp
  | cons a newer ih =>
    refine List.forall_mem_cons.mpr ⟨?_, ih exclusive.2 (List.forall_mem_cons.mp absent).2⟩
    intro succeeds
    have still : HasWord t (a :: newer ++ older) := (hasWord_append_of_absent absent).mpr has
    exact absent a List.mem_cons_self (exclusive.1 succeeds t still).symm

end Absent

/-- A call that succeeds leaves its thread as the only one that has the word. -/
theorem Held.exclusive {threads : Nat} {P : Nat → Position} {a : Turn (shared V)}
    {trace : List (Turn (shared V))} (held : Held threads a.before P trace)
    (few : threads < 2 ^ 64) (member : a.thread < threads)
    (here : P a.thread = a.stage.position) (taken : a.Taken) (lawful : Lawful (a :: trace))
    (succeeds : Succeeds a) : ∀ s, HasWord s (a :: trace) → s = a.thread := by
  have after := held.access few member here taken lawful
  obtain ⟨at_stage, answer⟩ := succeeds
  have ends : positionOf a.progress.stage? = .outside := by rw [answer]; rfl
  have mine : HasWord a.thread (a :: trace) := by
    rcases at_stage with compares | ⟨lock, locks⟩
    · -- the thread has found itself to be the owner
      have compared : Stage.comparing.advance a.thread a.chance a.before =
          some (a.after, .finished (.truth true)) := by
        rw [← compares, ← answer]
        exact taken
      have told := (Prod.mk.inj (Option.some.inj compared)).2
      have owner : a.before.lock.owner = a.before.identities.get a.thread :=
        of_decide_eq_true (Reply.truth.inj (Progress.finished.inj told))
      have at_comparing : a.stage.position = .comparing := by rw [compares]; rfl
      have has := (held.owner_eq_iff (Or.inl (here.trans at_comparing))).mp owner
      have keeps : ¬ FreesWord a := by simp [FreesWord, at_comparing, Position.lock?]
      simp [HasWord, keeps, has]
    · -- the thread has one more guard, and is in none of the procedures
      have entered : guards a.thread (a :: trace) = guards a.thread trace + 1 := by
        simp [guards, locks, answer, Stage.levelReply?, guardsAfter]
      refine (after.hasWord_iff_guard ?_ ?_).mpr (entered ▸ Nat.succ_pos _)
      · rw [Function.update_self, ends]
        rfl
      · simp [Function.update_self, ends]
  intro s has
  exact after.owned.unique ((after.word s).mp has) ((after.word a.thread).mp mine)

section Run

variable {threads : Nat} {values : Nat → V} {settings : Nat → Settings}
  {u : System (group V) β} {trace : List (Turn (group V))}

/-- In every state of a run of a group the invariant of the lock holds at each monitor that is
lawfully used. -/
theorem held_at (few : threads < 2 ^ 64)
    (run : System.Run (fun t _ => t < threads) { state := Group.new values settings } u trace)
    (k : Nat) (lawful : Lawful (turnsAt k trace)) :
    Held threads (u.state.monitor k) (positions (stagesAt k u.stage?)) (turnsAt k trace) ∧
      Exclusive (turnsAt k trace) := by
  refine stages_induction_at (M := fun t => t < threads)
    (I := fun (m : Monitor V) stages trace =>
      Lawful trace → Held threads m (positions stages) trace ∧ Exclusive trace)
    run (System.stage?_start _) (fun _ _ member => member) k
    ?start ?enters ?takes ?besides ?elapses lawful
  case start =>
    exact fun _ => ⟨.start (values k) _ ⟨rfl, rfl⟩, trivial⟩
  case enters =>
    intro m stages trace t call holds none_t _ lawful
    obtain ⟨held, exclusive⟩ := holds lawful
    rw [positions_update]
    exact ⟨held.enter (positions_of_none none_t) call, exclusive⟩
  case takes =>
    intro stages trace a holds some_t member taken lawful
    obtain ⟨held, exclusive⟩ := holds lawful.2
    have here := positions_of_some some_t
    rw [positions_update]
    exact ⟨held.access few member here taken lawful,
      held.exclusive few member here taken lawful, exclusive⟩
  case besides =>
    intro m m' stages trace t holds member beside lawful
    obtain ⟨held, exclusive⟩ := holds lawful
    exact ⟨held.beside few member beside, exclusive⟩
  case elapses =>
    intro m stages trace time holds lawful
    obtain ⟨⟨ids, named, agrees, owned, word⟩, exclusive⟩ := holds lawful
    exact ⟨⟨ids.congr rfl rfl, named, agrees, owned, word⟩, exclusive⟩

/-- In every state of a run of a group, a thread that has made sure of its identity has the one that
it was given then. -/
theorem identities_settled (few : threads < 2 ^ 64)
    (run : System.Run (fun t _ => t < threads) { state := Group.new values settings } u trace)
    (k : Nat) :
    Identified threads (u.state.monitor k) ∧
      ∀ a ∈ trace, Introduces a →
        identityAfter a ≠ 0 ∧ u.state.identities.get a.thread = identityAfter a := by
  refine run.stages_induction (M := fun t => t < threads)
    (I := fun (g : Group V) _ trace => Identified threads (g.monitor k) ∧
      ∀ a ∈ trace, Introduces a →
        identityAfter a ≠ 0 ∧ g.identities.get a.thread = identityAfter a)
    (System.stage?_start _) (fun _ _ member => member)
    ?start ?enters ?takes ?elapses
  case start =>
    exact ⟨.new _ _, by simp⟩
  case enters =>
    intro g stages trace t call holds _ _
    exact holds
  case takes =>
    intro stages trace a holds _ member taken
    obtain ⟨ids, settled⟩ := holds
    -- all monitors see the same identities, so the access may be looked at alone
    have before : Identified threads (alone a).before := ids.congr rfl rfl
    obtain ⟨after, kept, introduced⟩ := before.access few member (alone_taken taken).1
    refine ⟨after.congr rfl rfl, List.forall_mem_cons.mpr ⟨?_, ?_⟩⟩
    · rintro ⟨next, introduces⟩
      exact ⟨introduced next introduces, rfl⟩
    · intro b older introduces
      obtain ⟨some_name, same⟩ := settled b older introduces
      refine ⟨some_name, (kept b.thread ?_).trans same⟩
      exact same ▸ some_name
  case elapses =>
    intro g stages trace time holds
    exact ⟨holds.1.congr rfl rfl, holds.2⟩

/-- A thread without a call is in none of the procedures of any lock. -/
theorem outside_of_quiet (k : Nat) {t : Nat} (quiet : u.stage? t = none) :
    positions (stagesAt k u.stage?) t = .outside :=
  positions_of_none (by rw [stagesAt, quiet]; rfl)

end Run

/-- Let threads be spawned, exit and be replaced by others any number of times, fewer than
`2 ^ 64 - 1` in total, around any number of monitors, and let some history lead to a moment and
another one go on from there. Each access by which a thread makes sure of its identity gives it a
number other than zero, and a thread still has this number in the end; two such accesses give the
same number exactly if they are by the same thread. If a thread has exited before the moment and had
levels of a lock that was used lawfully, then it is still the owner of as many levels in the end,
and no call to enter a level of this lock or to ask who holds it has succeeded since. -/
theorem leaked_lock_stays_held {values : Nat → V} {settings : Nat → Settings}
    {u v : System (group V) β} {c d : Crew} {earlier later : List (Turn (group V))}
    (few : d.spawned < 2 ^ 64 - 1)
    (before : System.History { state := Group.new values settings } {} u c earlier)
    (after : System.History u c v d later) :
    (∀ a ∈ later ++ earlier, Introduces a →
      identityAfter a ≠ 0 ∧ v.state.identities.get a.thread = identityAfter a) ∧
    (∀ a ∈ later ++ earlier, ∀ b ∈ later ++ earlier, Introduces a → Introduces b →
      (identityAfter a = identityAfter b ↔ a.thread = b.thread)) ∧
    ∀ k t, Lawful (turnsAt k (later ++ earlier)) → t ∈ c.exited →
      0 < guards t (turnsAt k earlier) →
      (v.state.sites k).lock.owner = v.state.identities.get t ∧
      (v.state.sites k).lock.depth = guards t (turnsAt k earlier) ∧
      ∀ a ∈ turnsAt k later, ¬ Succeeds a := by
  have few_threads : d.spawned < 2 ^ 64 := by omega
  have whole := (before.trans after).run
  obtain ⟨ids, settled⟩ := identities_settled few_threads whole 0
  refine ⟨settled, ?_, ?_⟩
  · intro a in_trace b in_trace' introduces introduces'
    obtain ⟨some_name, named⟩ := settled a in_trace introduces
    obtain ⟨-, named'⟩ := settled b in_trace' introduces'
    rw [← named, ← named']
    rw [← named] at some_name
    exact ⟨ids.distinct some_name, fun same => by rw [same]⟩
  · intro k t lawful exited guard
    have quiet := before.quiet nofun
    have quiet_now := after.quiet quiet
    have absent : ∀ a ∈ turnsAt k later, a.thread ≠ t := by
      intro a inside
      obtain ⟨b, in_later, -, rfl⟩ := mem_turnsAt.mp inside
      exact after.absent quiet exited b in_later
    rw [turnsAt_append] at lawful
    -- the thread has the word when it has exited
    have few_before : c.spawned < 2 ^ 64 := after.spawned_mono.trans_lt few_threads
    obtain ⟨held, -⟩ := held_at few_before before.run k lawful.of_append
    have outside := outside_of_quiet k (quiet t exited)
    have has : HasWord t (turnsAt k earlier) := by
      refine (held.hasWord_iff_guard ?_ ?_).mpr guard
      · rw [outside]
        rfl
      · simp [outside]
    -- and it has the word in the end
    obtain ⟨held_now, exclusive⟩ := held_at few_threads whole k (turnsAt_append _ _ ▸ lawful)
    rw [turnsAt_append] at held_now exclusive
    have outside_now := outside_of_quiet k (quiet_now t (after.exited_mono exited))
    have has_now := (hasWord_append_of_absent absent).mpr has
    obtain ⟨owner, depth, -⟩ := held_now.owns has_now (by rw [outside_now]; rfl)
    rw [guards_append_of_absent absent] at depth
    exact ⟨owner, depth, not_succeeds_of_absent exclusive has absent⟩

/-- Thread `0` enters two levels of the lock of monitor `0`, and thread `1` one of monitor `1`. -/
def leaving : System (group Unit) Unit × List (Turn (group Unit)) :=
  let start : System (group Unit) Unit :=
    { state := Group.new (fun _ => ()) fun _ => { spinLimit := 0 } }
  let twice : (group Unit).Action Unit := do
    let _ ← Program.ask (0, .lock)
    let _ ← Program.ask (0, .tryLock)
  let once : (group Unit).Action Unit := do
    let _ ← Program.ask (1, .lock)
  let turns := [1, 0, 0, 1, 0, 0, 1, 0, 1, 0, 1, 0, 0]
  ((start.assign 0 twice).1.assign 1 once).1.follow [] (turns.map fun t => (t, {}))

/-- Thread `2` asks for monitor `0` without waiting and whether it holds monitor `1`; thread `3`
waits for monitor `0`. -/
def inheriting : System (group Unit) Unit × List (Turn (group Unit)) :=
  let asks : (group Unit).Action Unit := do
    let _ ← Program.ask (0, .tryLock)
    let _ ← Program.ask (1, .holds)
  let waits : (group Unit).Action Unit := do
    let _ ← Program.ask (0, .lock)
  let turns := [3, 2, 2, 3, 3, 3, 2, 2, 3, 2, 3]
  ((leaving.1.assign 2 asks).1.assign 3 waits).1.follow [] (turns.map fun t => (t, {}))

theorem leaked_lock_stays_held_inherited :
    let gone : Crew := { spawned := 2, exited := [1, 0] }
    System.History { state := Group.new (fun _ => ()) fun _ => { spinLimit := 0 } } {} leaving.1
        gone leaving.2 ∧
      System.History leaving.1 gone inheriting.1 { gone with spawned := 4 } inheriting.2 ∧
      Lawful (turnsAt 0 (inheriting.2 ++ leaving.2)) ∧
      (List.range 4).map inheriting.1.state.identities.get = [2, 1, 4, 3] ∧
      inheriting.1.stage? 2 = none ∧ (inheriting.1.state.sites 0).lock.sleepers = [3] ∧
      (inheriting.1.state.sites 0).lock.owner = 2 ∧ (inheriting.1.state.sites 0).lock.depth = 2 ∧
      ∀ a ∈ turnsAt 0 inheriting.2, ¬ Succeeds a := by
  intro gone
  have before : System.History { state := Group.new (fun _ => ()) fun _ => { spinLimit := 0 } } {}
      leaving.1 gone leaving.2 := by
    have both : System.History { state := Group.new (fun _ => ()) fun _ => { spinLimit := 0 } } {}
        leaving.1 { spawned := 2 } leaving.2 :=
      .follow (.assign 1 _ (.assign 0 _ (.spawn (.spawn .start)) (by decide) rfl) (by decide) rfl) _
    exact .exit 1 (.exit 0 both (by decide) (by decide +kernel)) (by decide) (by decide +kernel)
  have after : System.History leaving.1 gone inheriting.1 { gone with spawned := 4 }
      inheriting.2 :=
    .follow (.assign 3 _ (.assign 2 _ (.spawn (.spawn .start)) (by decide) (by decide +kernel))
      (by decide) (by decide +kernel)) _
  have lawful : Lawful (turnsAt 0 (inheriting.2 ++ leaving.2)) := by decide +kernel
  have names : (List.range 4).map inheriting.1.state.identities.get = [2, 1, 4, 3] := by
    decide +kernel
  have two : guards 0 (turnsAt 0 leaving.2) = 2 := by decide +kernel
  have name : inheriting.1.state.identities.get 0 = 2 := by decide +kernel
  have done : (inheriting.1.stage? 2).isNone := by decide +kernel
  obtain ⟨-, -, leaked⟩ := leaked_lock_stays_held (by decide) before after
  obtain ⟨owner, depth, fails⟩ := leaked 0 0 lawful (by decide) (by rw [two]; decide)
  exact ⟨before, after, lawful, names, Option.isNone_iff_eq_none.mp done, by decide +kernel,
    owner.trans name, depth.trans two, fails⟩

end Interlock.Monitor

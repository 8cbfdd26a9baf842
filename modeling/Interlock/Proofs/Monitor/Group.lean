import Interlock.Proofs.Monitor.Ownership

/-!
# Several monitors around the same threads

Identities, mailboxes, permits and the time belong to the threads, not to one of the monitors that
they use. In a `Group` any number of monitors have a value, a lock and a wait set each and share the
rest. `Group.monitor` is what one of them sees, and an access of a group is an access of one monitor
(`alone`).

To each monitor of a group the accesses of the others do little (`Beside`): they leave its own parts
alone and may give a thread its identity. `stages_induction_at` is the induction over the run of a
group from the side of one monitor, with this as one more case; `held_at` follows from it.
-/

namespace Interlock

/-- The progress of a call whose stage is written in another way. -/
def Progress.map {τ τ' ρ : Type} (f : τ → τ') : Progress τ ρ → Progress τ' ρ
  | ongoing stage => ongoing (f stage)
  | finished reply => finished reply

theorem Progress.stage?_map {τ τ' ρ : Type} (f : τ → τ') (progress : Progress τ ρ) :
    (progress.map f).stage? = progress.stage?.map f := by
  cases progress <;> rfl

namespace Monitor

variable {V β : Type}

/-- What a monitor has for itself. -/
structure Site (V : Type) where
  value : V
  lock : Lock
  waiters : WaitSet

/-- A monitor without what belongs to the threads around it. -/
def site (m : Monitor V) : Site V where
  value := m.value
  lock := m.lock
  waiters := m.waiters

/-- Numbered monitors, and the state of the threads that use them. -/
structure Group (V : Type) where
  sites : Nat → Site V
  identities : Table UInt64 := {}
  nextIdentity : UInt64 := 1
  mailboxes : Table Mailbox := {}
  permits : Table Bool := {}
  clock : Nat := 0

namespace Group

/-- Monitors around given values that nobody holds. -/
def new (values : Nat → V) (settings : Nat → Settings) : Group V :=
  { sites := fun k => (Monitor.new (values k) (settings k)).site }

/-- The monitor with number `k`, together with the state of the threads. -/
def monitor (g : Group V) (k : Nat) : Monitor V where
  value := (g.sites k).value
  lock := (g.sites k).lock
  waiters := (g.sites k).waiters
  identities := g.identities
  nextIdentity := g.nextIdentity
  mailboxes := g.mailboxes
  permits := g.permits
  clock := g.clock

/-- The group once the monitor with number `k` has become `m`. -/
def put (g : Group V) (k : Nat) (m : Monitor V) : Group V where
  sites := Function.update g.sites k m.site
  identities := m.identities
  nextIdentity := m.nextIdentity
  mailboxes := m.mailboxes
  permits := m.permits
  clock := m.clock

@[simp]
theorem monitor_put_self (g : Group V) (k : Nat) (m : Monitor V) : (g.put k m).monitor k = m := by
  simp [monitor, put, site]

theorem site_monitor_put (g : Group V) {j k : Nat} (m : Monitor V) (other : k ≠ j) :
    ((g.put j m).monitor k).site = (g.monitor k).site := by
  simp [monitor, put, site, Function.update_of_ne other]

/-- The next access of a call on one of the monitors. -/
def advance (t : Nat) (chance : Chance) (g : Group V) (stage : Nat × Stage V) :
    Option (Group V × Progress (Nat × Stage V) (Reply V)) :=
  (stage.2.advance t chance (g.monitor stage.1)).map fun after =>
    (g.put stage.1 after.1, after.2.map (stage.1, ·))

end Group

/-- Numbered monitors as one object; a call names the monitor that it is made on. -/
abbrev group (V : Type) : Shared where
  State := Group V
  Call := Nat × Call V
  Reply := Reply V
  Stage := Nat × Stage V
  enter := fun call => (call.1, .ofCall call.2)
  advance := Group.advance
  elapse := fun time g => { g with clock := g.clock + time }

/-- An access of a group as an access of its monitor. -/
def alone (a : Turn (group V)) : Turn (shared V) where
  thread := a.thread
  chance := a.chance
  before := a.before.monitor a.stage.1
  stage := a.stage.2
  after := a.after.monitor a.stage.1
  progress := a.progress.map Prod.snd

/-- The accesses of the monitor with number `k`. -/
def turnsAt (k : Nat) (trace : List (Turn (group V))) : List (Turn (shared V)) :=
  (trace.filter (·.stage.1 = k)).map alone

/-- The stage of a call, if it is one on the monitor with number `k`. -/
def stageAt (k : Nat) (stage? : Option (Nat × Stage V)) : Option (Stage V) :=
  stage?.bind fun stage => if stage.1 = k then some stage.2 else none

/-- The stages of the calls on the monitor with number `k`. -/
def stagesAt (k : Nat) (stages : Nat → Option (Nat × Stage V)) (t : Nat) : Option (Stage V) :=
  stageAt k (stages t)

/-- What an access of another monitor by thread `t` may do to a monitor. -/
structure Beside (t : Nat) (m m' : Monitor V) : Prop where
  site : m'.site = m.site
  identities : m'.identities = m.identities ∧ m'.nextIdentity = m.nextIdentity ∨
    m'.identities = (m.identify t).identities ∧ m'.nextIdentity = (m.identify t).nextIdentity

/-- Identities are given alike by monitors that see the same ones. -/
theorem identify_congr (m m' : Monitor V) (t : Nat) (same : m'.identities = m.identities)
    (next : m'.nextIdentity = m.nextIdentity) :
    (m'.identify t).identities = (m.identify t).identities ∧
      (m'.identify t).nextIdentity = (m.identify t).nextIdentity := by
  unfold identify
  by_cases unnamed : m.identities.get t = 0
  · simp [same, next, unnamed]
  · simp [same, next, unnamed]

section Projection

variable {k : Nat} {a : Turn (group V)} {trace : List (Turn (group V))}

theorem turnsAt_append (later earlier : List (Turn (group V))) :
    turnsAt k (later ++ earlier) = turnsAt k later ++ turnsAt k earlier := by
  simp [turnsAt]

theorem turnsAt_cons_self (here : a.stage.1 = k) :
    turnsAt k (a :: trace) = alone a :: turnsAt k trace := by
  simp [turnsAt, here]

theorem turnsAt_cons_of_ne (other : a.stage.1 ≠ k) : turnsAt k (a :: trace) = turnsAt k trace := by
  simp [turnsAt, other]

theorem mem_turnsAt {b : Turn (shared V)} :
    b ∈ turnsAt k trace ↔ ∃ a ∈ trace, a.stage.1 = k ∧ alone a = b := by
  simp [turnsAt, and_assoc]

theorem stagesAt_update (stages : Nat → Option (Nat × Stage V)) (t : Nat)
    (stage? : Option (Nat × Stage V)) :
    stagesAt k (Function.update stages t stage?) =
      Function.update (stagesAt k stages) t (stageAt k stage?) := by
  funext s
  exact Function.apply_update (fun _ => stageAt k) stages t stage? s

/-- An access of a group is an access of one monitor alone, and the call stays at it. -/
theorem alone_taken (taken : a.Taken) :
    (alone a).Taken ∧ a.after = a.before.put a.stage.1 (alone a).after ∧
      a.progress = (alone a).progress.map (a.stage.1, ·) := by
  obtain ⟨⟨after, progress⟩, moves, granted⟩ := Option.map_eq_some_iff.mp taken
  obtain ⟨to_after, to_progress⟩ := Prod.mk.inj granted
  have after_alone : (alone a).after = after := by
    rw [alone, ← to_after]
    exact Group.monitor_put_self a.before a.stage.1 after
  have progress_alone : (alone a).progress = progress := by
    rw [alone, ← to_progress]
    cases progress <;> rfl
  rw [Turn.Taken, after_alone, progress_alone]
  exact ⟨moves, to_after.symm, to_progress.symm⟩

/-- What a call goes on with at a monitor. -/
theorem stageAt_progress (taken : a.Taken) :
    stageAt k a.progress.stage? =
      if a.stage.1 = k then (alone a).progress.stage? else none := by
  rw [(alone_taken taken).2.2, Progress.stage?_map]
  cases (alone a).progress.stage? <;> simp [stageAt]

/-- To another monitor an access does little. -/
theorem beside_of_taken (taken : a.Taken) (other : a.stage.1 ≠ k) :
    Beside a.thread (a.before.monitor k) (a.after.monitor k) := by
  obtain ⟨taken_alone, after, -⟩ := alone_taken taken
  refine ⟨?_, ?_⟩
  · rw [after]
    exact Group.site_monitor_put a.before (alone a).after (Ne.symm other)
  · rcases Stage.advance_identities taken_alone with ⟨same, next, -⟩ | ⟨next, -, identify⟩
    · exact Or.inl ⟨same, next⟩
    · have seen := identify_congr (a.before.monitor k) (alone a).before a.thread rfl rfl
      exact Or.inr ⟨(congrArg identities identify).trans seen.1,
        (congrArg nextIdentity identify).trans seen.2⟩

end Projection

/-- Induction over a run of a group from the side of the monitor with number `k`: a thread enters a
call on it, a thread takes an access of it, a thread takes an access of another monitor, or time
passes. `M` holds of the threads that may begin a program. -/
theorem stages_induction_at {allowed : Nat → (group V).Action β → Prop} {s u : System (group V) β}
    {M : Nat → Prop}
    {I : Monitor V → (Nat → Option (Stage V)) → List (Turn (shared V)) → Prop}
    {trace : List (Turn (group V))} (run : System.Run allowed s u trace)
    (quiet : ∀ t, s.stage? t = none) (members : ∀ t program, allowed t program → M t) (k : Nat)
    (start : I (s.state.monitor k) (fun _ => none) [])
    (enters : ∀ {m stages trace} t call, I m stages trace → stages t = none → M t →
      I m (Function.update stages t (some (.ofCall call))) trace)
    (takes : ∀ {stages trace} (a : Turn (shared V)), I a.before stages trace →
      stages a.thread = some a.stage → M a.thread → a.Taken →
      I a.after (Function.update stages a.thread a.progress.stage?) (a :: trace))
    (besides : ∀ {m m' stages trace} t, I m stages trace → M t → Beside t m m' →
      I m' stages trace)
    (elapses : ∀ {m stages trace} time, I m stages trace →
      I { m with clock := m.clock + time } stages trace) :
    I (u.state.monitor k) (stagesAt k u.stage?) (turnsAt k trace) := by
  refine run.stages_induction (M := M)
    (I := fun (g : Group V) stages trace => I (g.monitor k) (stagesAt k stages) (turnsAt k trace))
    quiet members ?start ?enters ?takes ?elapses
  case start => exact start
  case enters =>
    intro g stages trace t call holds none_t member
    have none_at : stagesAt k stages t = none := by rw [stagesAt, none_t]; rfl
    rw [stagesAt_update]
    by_cases here : call.1 = k
    · have enter_here : stageAt k (some (call.1, Stage.ofCall call.2)) =
          some (Stage.ofCall call.2) := by simp [stageAt, here]
      rw [enter_here]
      exact enters t call.2 holds none_at member
    · have enter_other : stageAt k (some (call.1, Stage.ofCall call.2)) = none := by
        simp [stageAt, here]
      rw [enter_other, ← none_at, Function.update_eq_self]
      exact holds
  case takes =>
    intro stages trace a holds some_t member taken
    rw [stagesAt_update, stageAt_progress taken]
    by_cases here : a.stage.1 = k
    · subst here
      have some_at : stagesAt a.stage.1 stages a.thread = some a.stage.2 := by
        simp [stagesAt, some_t, stageAt]
      rw [if_pos rfl, turnsAt_cons_self rfl]
      exact takes (alone a) holds some_at member (alone_taken taken).1
    · have none_at : stagesAt k stages a.thread = none := by
        simp [stagesAt, some_t, stageAt, here]
      rw [if_neg here, ← none_at, Function.update_eq_self, turnsAt_cons_of_ne here]
      exact besides a.thread holds member (beside_of_taken taken here)
  case elapses =>
    intro g stages trace time holds
    exact elapses time holds

section Held

variable {threads t : Nat} {m m' : Monitor V} {P : Nat → Position}
  {trace : List (Turn (shared V))}

/-- An access of another monitor keeps the identities that have been given. -/
theorem Identified.beside (ids : Identified threads m) (few : threads < 2 ^ 64)
    (member : t < threads) (beside : Beside t m m') :
    Identified threads m' ∧
      ∀ s, m.identities.get s ≠ 0 → m'.identities.get s = m.identities.get s := by
  rcases beside.identities with ⟨same, next⟩ | ⟨identities, next⟩
  · exact ⟨ids.congr same next, fun s _ => by rw [same]⟩
  · refine ⟨(ids.identify few member).1.congr identities next, fun s named => ?_⟩
    rw [identities]
    exact identities_identify_of_ne_zero t named

/-- An access of another monitor keeps what holds of the lock. -/
theorem Held.beside (held : Held threads m P trace) (few : threads < 2 ^ 64) (member : t < threads)
    (beside : Beside t m m') : Held threads m' P trace := by
  obtain ⟨ids, kept⟩ := held.ids.beside few member beside
  have lock : m'.lock = m.lock := congrArg Site.lock beside.site
  refine ⟨ids, ?named, ?agrees, ?owned, held.word⟩
  case named =>
    intro s some_guard
    rw [kept s (held.named s some_guard)]
    exact held.named s some_guard
  case agrees =>
    intro s
    exact (held.agrees s).mono fun named => by rwa [kept s named]
  case owned =>
    rw [lock]
    exact held.owned.rename fun s has => kept s ((held.agrees s).named (held.named s) has)

end Held

end Monitor

end Interlock

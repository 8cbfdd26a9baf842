import Interlock.Monitor.Action
import Interlock.Monitor.Settings
import Interlock.Proofs.Monitor.Identity
import Interlock.Proofs.Monitor.Tenure

/-!
# Who holds the lock

A thread has a guard for each level of the lock that it has entered and not left. It leaves levels
only while it has a guard; runs in which all threads keep to this are `Lawful`. In every state of
such a run at most one thread has won the word and not given it back, the owner is that thread and
the depth is the number of its guards, whatever the other threads are in the middle of.

The invariant `Held` is stated position by position: `Position.Agrees` ties the levels that a
procedure has noted to the thread's guards, and `Position.tenure` says what the thread has written.
-/

namespace Interlock

/-- The number of guards of a thread after a procedure that enters or leaves a level. -/
def Lock.Reply.guardsAfter : Lock.Reply → Nat → Nat
  | .entered, guards => guards + 1
  | .refused, guards => guards
  | .departed _, guards => guards - 1

namespace Lock.Stage

/-- The tenure of a thread with a number of guards that is in a procedure of the lock. -/
def tenure (guards : Nat) : Stage → Tenure
  | ask _ | deepen | leave | surrender => .ofGuards guards
  | acquire _ _ | tryWord | wake _ => .none
  | own _ => .won
  | settle _ => .signed
  | disown _ => .vacating
  | free _ => .freeing

/-- What is noted while a level is entered or left. -/
def AgreesEntering (named : Prop) (guards : Nat) : Stage → Prop
  | ask _ => named
  | deepen => 0 < guards
  | acquire _ levels | own levels | settle levels => guards = 0 ∧ levels = 1 ∧ named
  | tryWord => guards = 0 ∧ named
  | leave => True
  | surrender => False
  | disown _ | free _ | wake _ => guards = 1

/-- What is noted while all levels are left. -/
def AgreesDeparting (guards : Nat) : Stage → Prop
  | surrender => True
  | disown levels | free levels | wake levels => levels = guards ∧ 0 < guards
  | _ => False

/-- What is noted on the way back to the levels. -/
def AgreesReturning (guards : Nat) : Stage → Prop
  | acquire _ levels | own levels | settle levels => levels = guards ∧ 0 < guards
  | _ => False

end Lock.Stage

namespace Monitor

variable {V β : Type}

/-- The number of guards after a procedure has ended, or has not ended yet. -/
def guardsAfter : Option (Reply V) → Nat → Nat
  | some (.truth true), guards => guards + 1
  | some .done, guards => guards - 1
  | _, guards => guards

/-- The number of guards that a thread has after some accesses. -/
def guards (t : Nat) : List (Turn (shared V)) → Nat
  | [] => 0
  | a :: older =>
    if a.thread = t then guardsAfter (Stage.levelReply? a.stage a.progress) (guards t older)
    else guards t older

/-- The access wins the word. -/
def WinsWord (a : Turn (shared V)) : Prop :=
  ∃ levels, (positionOf a.progress.stage?).lock? = some (.own levels)

/-- The access gives the word back. -/
def FreesWord (a : Turn (shared V)) : Prop :=
  ∃ levels, a.stage.position.lock? = some (.free levels)

/-- The thread has won the word and not given it back. -/
def HasWord (t : Nat) : List (Turn (shared V)) → Prop
  | [] => False
  | a :: older =>
    if a.thread = t then WinsWord a ∨ ¬ FreesWord a ∧ HasWord t older else HasWord t older

/-- Threads leave one level, or all levels for a wait, only while they have a guard. -/
def Lawful : List (Turn (shared V)) → Prop
  | [] => True
  | a :: older =>
    (a.stage.position.lock? = some .leave ∨ a.stage.position.lock? = some .surrender →
      0 < guards a.thread older) ∧ Lawful older

instance decidableLawful : ∀ trace : List (Turn (shared V)), Decidable (Lawful trace)
  | [] => inferInstanceAs (Decidable True)
  | _ :: older =>
    have : Decidable (Lawful older) := decidableLawful older
    inferInstanceAs (Decidable ((_ ∨ _ → _ < _) ∧ _))

theorem Lawful.of_append {newer older : List (Turn (shared V))} (lawful : Lawful (newer ++ older)) :
    Lawful older := by
  induction newer with
  | nil => exact lawful
  | cons a newer ih => exact ih lawful.2

/-- A thread that is about to compare the owner with itself. -/
def AsksOwner (u : System (shared V) β) (t : Nat) : Prop :=
  u.stage? t = some .comparing ∨ ∃ mayWait, u.stage? t = some (.locking (.ask mayWait))

namespace Position

/-- The tenure of a thread with a number of guards. -/
def tenure (guards : Nat) : Position → Tenure
  | outside | introducing _ | comparing => .ofGuards guards
  | away _ => .none
  | entering lock | departing lock | returning lock => lock.tenure guards

/-- The levels that the thread has noted are its guards, and it has an identity where it needs
one. -/
def Agrees (named : Prop) (guards : Nat) : Position → Prop
  | outside => True
  | introducing next => next = comparing ∨ ∃ mayWait, next = entering (.ask mayWait)
  | comparing => named
  | entering lock => lock.AgreesEntering named guards
  | departing lock => lock.AgreesDeparting guards
  | away levels => levels = guards ∧ 0 < guards
  | returning lock => lock.AgreesReturning guards

end Position

end Monitor

open Monitor

/-- An access on the way to the word changes nothing, or wins the word. -/
theorem Lock.Acquire.advance_changes {t : Nat} {me : UInt64} {chance : Chance} {l l' : Lock}
    {progress : Lock.Acquire} {next : Option Lock.Acquire}
    (moves : progress.advance t chance l = some (l', next)) :
    Tenure.none.Changes me l l' (next.elim .won fun _ => .none) := by
  cases progress with
  | attempt | claim spins =>
    simp only [advance] at moves
    split at moves <;> cases moves
    · exact .wins (by simp_all) nofun rfl
    · exact .misses Iff.rfl rfl rfl
  | inspect spins =>
    cases moves
    exact .misses Iff.rfl rfl rfl
  | mark =>
    simp only [advance] at moves
    split at moves <;> cases moves
    · exact .wins ‹_› nofun rfl
    · exact .misses (by simp_all) rfl rfl
  | doze =>
    simp only [advance] at moves
    split at moves <;> cases moves <;> exact .misses Iff.rfl rfl rfl
  | remark =>
    simp only [advance] at moves
    split at moves
    · split at moves <;> cases moves
      exact .misses Iff.rfl rfl rfl
    · split at moves <;> cases moves
      · exact .wins ‹_› nofun rfl
      · exact .misses (by simp_all) rfl rfl

namespace Lock.Stage

variable {t : Nat} {me : UInt64} {chance : Chance} {l l' : Lock} {stage : Stage}
  {guards : Nat} {progress : Progress Stage Reply}

/-- An access while a level is entered or left. -/
theorem advance_entering (moves : stage.advance t me chance l = some (l', progress))
    (agrees : stage.AgreesEntering (me ≠ 0) guards) (shows : l.Shows me (stage.tenure guards))
    (owner : me ≠ 0 → (l.owner = me ↔ (stage.tenure guards).IsSigned))
    (lawful : stage = .leave → 0 < guards) :
    match progress with
    | .ongoing next =>
      (stage.tenure guards).Changes me l l' (next.tenure guards) ∧
        next.AgreesEntering (me ≠ 0) guards
    | .finished reply =>
      (stage.tenure guards).Changes me l l' (.ofGuards (reply.guardsAfter guards)) ∧
        (0 < reply.guardsAfter guards → 0 < guards ∨ me ≠ 0) := by
  cases stage with
  | ask mayWait =>
    have owned : l.owner = me ↔ 0 < guards := (owner agrees).trans Tenure.isSigned_ofGuards
    simp only [advance] at moves
    split at moves
    case isTrue mine =>
      cases moves
      exact ⟨.keeps Iff.rfl rfl rfl, owned.mp mine⟩
    case isFalse other =>
      have no_guard : guards = 0 := Nat.eq_zero_of_not_pos (owned.not.mp other)
      subst no_guard
      split at moves <;> cases moves
      · exact ⟨.keeps Iff.rfl rfl rfl, rfl, rfl, agrees⟩
      · exact ⟨.keeps Iff.rfl rfl rfl, rfl, agrees⟩
  | deepen =>
    have some_guard : 0 < guards := agrees
    cases moves
    simp only [tenure, Tenure.ofGuards_of_pos some_guard] at shows ⊢
    have depth : l.depth + 1 = guards + 1 := by rw [shows.2]
    rw [depth]
    exact ⟨.moves, fun _ => Or.inl some_guard⟩
  | acquire way levels =>
    simp only [advance] at moves
    split at moves
    · cases moves
    · cases moves
      exact ⟨Acquire.advance_changes ‹_›, agrees⟩
    · cases moves
      exact ⟨Acquire.advance_changes ‹_›, agrees⟩
  | tryWord =>
    obtain ⟨rfl, named⟩ := agrees
    simp only [advance] at moves
    split at moves <;> cases moves
    · exact ⟨.wins ‹_› nofun rfl, rfl, rfl, named⟩
    · exact ⟨.misses Iff.rfl rfl rfl, fun _ => Or.inr named⟩
  | own levels =>
    cases moves
    exact ⟨.signs, agrees⟩
  | settle levels =>
    obtain ⟨rfl, rfl, named⟩ := agrees
    cases moves
    exact ⟨.settles, fun _ => Or.inr named⟩
  | leave =>
    have some_guard := lawful rfl
    simp only [tenure, Tenure.ofGuards_of_pos some_guard] at shows ⊢
    simp only [advance] at moves
    split at moves
    case isTrue last =>
      cases moves
      exact ⟨.vacates, shows.2.symm.trans last⟩
    case isFalse more =>
      cases moves
      have depth : l.depth = guards := shows.2
      have left : 0 < guards - 1 := by omega
      simp only [Reply.guardsAfter, Tenure.ofGuards_of_pos left, depth]
      exact ⟨.moves, fun _ => Or.inl some_guard⟩
  | surrender => exact agrees.elim
  | disown levels =>
    cases moves
    exact ⟨.clears, agrees⟩
  | free levels =>
    have one : guards = 1 := agrees
    subst one
    simp only [advance] at moves
    split at moves <;> cases moves
    · exact ⟨.frees, rfl⟩
    · exact ⟨.frees, fun _ => Or.inl Nat.one_pos⟩
  | wake levels =>
    have one : guards = 1 := agrees
    subst one
    cases moves
    exact ⟨.misses Iff.rfl rfl rfl, fun _ => Or.inl Nat.one_pos⟩

/-- An access while all levels are left for a wait. -/
theorem advance_departing (moves : stage.advance t me chance l = some (l', progress))
    (agrees : stage.AgreesDeparting guards) (lawful : stage = .surrender → 0 < guards)
    (shows : l.Shows me (stage.tenure guards)) :
    match progress with
    | .ongoing next =>
      (stage.tenure guards).Changes me l l' (next.tenure guards) ∧ next.AgreesDeparting guards
    | .finished reply =>
      (stage.tenure guards).Changes me l l' .none ∧ levelsLeft reply = guards ∧ 0 < guards := by
  cases stage with
  | surrender =>
    have some_guard := lawful rfl
    simp only [tenure, Tenure.ofGuards_of_pos some_guard] at shows ⊢
    cases moves
    exact ⟨.vacates, shows.2, some_guard⟩
  | disown levels =>
    cases moves
    exact ⟨.clears, agrees⟩
  | free levels =>
    simp only [advance] at moves
    split at moves <;> cases moves
    · exact ⟨.frees, agrees⟩
    · exact ⟨.frees, agrees⟩
  | wake levels =>
    cases moves
    exact ⟨.misses Iff.rfl rfl rfl, agrees⟩
  | _ => exact agrees.elim

/-- An access on the way back to the levels after a wait. -/
theorem advance_returning (moves : stage.advance t me chance l = some (l', progress))
    (agrees : stage.AgreesReturning guards) :
    match progress with
    | .ongoing next =>
      (stage.tenure guards).Changes me l l' (next.tenure guards) ∧ next.AgreesReturning guards
    | .finished _ => (stage.tenure guards).Changes me l l' (.ofGuards guards) := by
  cases stage with
  | acquire way levels =>
    simp only [advance] at moves
    split at moves
    · cases moves
    · cases moves
      exact ⟨Acquire.advance_changes ‹_›, agrees⟩
    · cases moves
      exact ⟨Acquire.advance_changes ‹_›, agrees⟩
  | own levels =>
    cases moves
    exact ⟨.signs, agrees⟩
  | settle levels =>
    obtain ⟨rfl, some_guard⟩ := agrees
    cases moves
    rw [Tenure.ofGuards_of_pos some_guard]
    exact .settles
  | _ => exact agrees.elim

end Lock.Stage

namespace Monitor

namespace Position

variable {p p' : Position} {held : Nat}

theorem Agrees.mono {named named' : Prop} (agrees : p.Agrees named held)
    (stronger : named → named') : p.Agrees named' held := by
  cases p with
  | comparing => exact stronger agrees
  | entering lock =>
    cases lock with
    | ask mayWait => exact stronger agrees
    | acquire | own | settle => exact ⟨agrees.1, agrees.2.1, stronger agrees.2.2⟩
    | tryWord => exact ⟨agrees.1, stronger agrees.2⟩
    | _ => exact agrees
  | _ => exact agrees

/-- A thread that has the word has an identity. -/
theorem Agrees.named {named : Prop} (agrees : p.Agrees named held) (guarded : 0 < held → named)
    (has : p.tenure held ≠ .none) : named := by
  have of_guards (some_tenure : Tenure.ofGuards held ≠ .none) : named :=
    guarded (Nat.pos_of_ne_zero (Tenure.ofGuards_eq_none.not.mp some_tenure))
  cases p with
  | outside | introducing | comparing => exact of_guards has
  | away => exact absurd rfl has
  | entering lock =>
    cases lock with
    | ask | deepen | leave | surrender => exact of_guards has
    | own | settle => exact agrees.2.2
    | acquire | tryWord | wake => exact absurd rfl has
    | disown | free => exact guarded (by simp_all [Agrees, Lock.Stage.AgreesEntering])
  | departing lock =>
    cases lock with
    | surrender => exact of_guards has
    | disown | free | wake => exact guarded agrees.2
    | _ => exact agrees.elim
  | returning lock =>
    cases lock with
    | acquire | own | settle => exact guarded agrees.2
    | _ => exact agrees.elim

theorem tenure_at_rest (outside : p.lock? = none) (on_lock : ∀ levels, p ≠ .away levels) :
    p.tenure held = .ofGuards held := by
  cases p with
  | outside | introducing | comparing => rfl
  | entering | departing | returning => cases outside
  | away levels => exact absurd rfl (on_lock levels)

/-- A thread with a guard that is in none of the lock's procedures has the word. -/
theorem tenure_of_guard (at_rest : p = .outside) (guard : 0 < held) : p.tenure held ≠ .none := by
  subst at_rest
  exact Tenure.ofGuards_eq_none.not.mpr (Nat.pos_iff_ne_zero.mp guard)

theorem tenure_eq_won : p.tenure held = .won ↔ ∃ levels, p.lock? = some (.own levels) := by
  have not_won : Tenure.ofGuards held ≠ .won := by
    unfold Tenure.ofGuards
    split <;> simp
  cases p with
  | entering lock | departing lock | returning lock =>
    cases lock <;> simp [tenure, lock?, Lock.Stage.tenure, not_won]
  | _ => simp [tenure, lock?, not_won]

theorem tenure_eq_vacating :
    p.tenure held = .vacating ↔ ∃ levels, p.lock? = some (.disown levels) := by
  have not_vacating : Tenure.ofGuards held ≠ .vacating := by
    unfold Tenure.ofGuards
    split <;> simp
  cases p with
  | entering lock | departing lock | returning lock =>
    cases lock <;> simp [tenure, lock?, Lock.Stage.tenure, not_vacating]
  | _ => simp [tenure, lock?, not_vacating]

theorem tenure_eq_freeing :
    p.tenure held = .freeing ↔ ∃ levels, p.lock? = some (.free levels) := by
  have not_freeing : Tenure.ofGuards held ≠ .freeing := by
    unfold Tenure.ofGuards
    split <;> simp
  cases p with
  | entering lock | departing lock | returning lock =>
    cases lock <;> simp [tenure, lock?, Lock.Stage.tenure, not_freeing]
  | _ => simp [tenure, lock?, not_freeing]

/-- An access changes the tenure of its thread as the lock changes, and the levels that the thread
has noted stay its guards. -/
theorem Moves.agrees {t : Nat} {me me' : UInt64} {chance : Chance} {l l' : Lock}
    {reply : Option Lock.Reply} (moves : p.Moves t me chance l l' p' reply)
    (agrees : p.Agrees (me ≠ 0) held) (shows : l.Shows me (p.tenure held))
    (owner : me ≠ 0 → (l.owner = me ↔ (p.tenure held).IsSigned))
    (lawful : p.lock? = some .leave ∨ p.lock? = some .surrender → 0 < held)
    (kept : me ≠ 0 → me' ≠ 0) (named : ∀ next, p = introducing next → me' ≠ 0) :
    let after := reply.elim held (·.guardsAfter held)
    (p.tenure held).Changes me l l' (p'.tenure after) ∧ p'.Agrees (me' ≠ 0) after ∧
      (0 < after → 0 < held ∨ me ≠ 0) := by
  cases moves with
  | stays => exact ⟨.keeps Iff.rfl rfl rfl, trivial, Or.inl⟩
  | introduces =>
    rcases agrees with rfl | ⟨mayWait, rfl⟩
    · exact ⟨.keeps Iff.rfl rfl rfl, named _ rfl, Or.inl⟩
    · exact ⟨.keeps Iff.rfl rfl rfl, named _ rfl, Or.inl⟩
  | compares => exact ⟨.keeps Iff.rfl rfl rfl, trivial, Or.inl⟩
  | leaves => exact ⟨.keeps Iff.rfl rfl rfl, trivial, Or.inl⟩
  | remains => exact ⟨.misses Iff.rfl rfl rfl, agrees, Or.inl⟩
  | returns => exact ⟨.misses Iff.rfl rfl rfl, agrees, Or.inl⟩
  | enters moves =>
    obtain ⟨changes, agrees'⟩ := Lock.Stage.advance_entering moves agrees shows owner
      fun leave => lawful (Or.inl (by rw [leave]; rfl))
    have still : (entering _).Agrees (me ≠ 0) held := agrees'
    exact ⟨changes, still.mono kept, Or.inl⟩
  | entered moves =>
    obtain ⟨changes, some_name⟩ := Lock.Stage.advance_entering moves agrees shows owner
      fun leave => lawful (Or.inl (by rw [leave]; rfl))
    exact ⟨changes, trivial, some_name⟩
  | departs moves =>
    obtain ⟨changes, agrees'⟩ := Lock.Stage.advance_departing moves agrees
      (fun surrender => lawful (Or.inr (by rw [surrender]; rfl))) shows
    exact ⟨changes, agrees', Or.inl⟩
  | departed moves =>
    obtain ⟨changes, agrees'⟩ := Lock.Stage.advance_departing moves agrees
      (fun surrender => lawful (Or.inr (by rw [surrender]; rfl))) shows
    exact ⟨changes, agrees', Or.inl⟩
  | retakes moves =>
    obtain ⟨changes, agrees'⟩ := Lock.Stage.advance_returning moves agrees
    exact ⟨changes, agrees', Or.inl⟩
  | retaken moves => exact ⟨Lock.Stage.advance_returning moves agrees, trivial, Or.inl⟩

theorem Moves.tenure_introducing {t : Nat} {me : UInt64} {chance : Chance} {l l' : Lock}
    {next : Position} {reply : Option Lock.Reply} {named : Prop}
    (moves : (introducing next).Moves t me chance l l' p' reply)
    (agrees : (introducing next).Agrees named held) :
    p'.tenure (reply.elim held (·.guardsAfter held)) = .ofGuards held := by
  cases moves
  rcases agrees with rfl | ⟨mayWait, rfl⟩ <;> rfl

end Position

/-- A thread that has begun a call has the word if it has a guard. -/
theorem Stage.tenure_ofCall (call : Call V) (guards : Nat) :
    (ofCall call).position.tenure guards = .ofGuards guards := by
  rcases Stage.position_ofCall call with at_call | at_call | ⟨next, at_call, -⟩ <;> rw [at_call]
  · rfl
  · rfl
  · rfl

theorem Stage.agrees_ofCall (call : Call V) (named : Prop) (guards : Nat) :
    (ofCall call).position.Agrees named guards := by
  rcases Stage.position_ofCall call with at_call | at_call | ⟨next, at_call, asks⟩ <;> rw [at_call]
  · trivial
  · trivial
  · exact asks

/-- What holds of the lock in every state of a lawful run. -/
structure Held (threads : Nat) (m : Monitor V) (P : Nat → Position)
    (trace : List (Turn (shared V))) : Prop where
  ids : Identified threads m
  named : ∀ t, 0 < guards t trace → m.identities.get t ≠ 0
  agrees : ∀ t, (P t).Agrees (m.identities.get t ≠ 0) (guards t trace)
  owned : m.lock.Owned m.identities.get fun t => (P t).tenure (guards t trace)
  word : ∀ t, HasWord t trace ↔ (P t).tenure (guards t trace) ≠ .none

theorem guardsAfter_ofLock (reply : Option Lock.Reply) (held : Nat) :
    guardsAfter (reply.map (Stage.ofLock (V := V))) held =
      reply.elim held (·.guardsAfter held) := by
  cases reply with
  | none => rfl
  | some reply => cases reply <;> rfl

section Trace

variable {a : Turn (shared V)} {trace : List (Turn (shared V))} {s : Nat}

theorem guards_cons_of_ne (other : s ≠ a.thread) : guards s (a :: trace) = guards s trace := by
  simp [guards, Ne.symm other]

theorem guards_cons_self {reply : Option Lock.Reply}
    (ends : Stage.levelReply? a.stage a.progress = reply.map Stage.ofLock) :
    guards a.thread (a :: trace) =
      reply.elim (guards a.thread trace) (·.guardsAfter (guards a.thread trace)) := by
  simp [guards, ends, guardsAfter_ofLock]

theorem hasWord_cons_of_ne (other : s ≠ a.thread) : HasWord s (a :: trace) ↔ HasWord s trace := by
  simp [HasWord, Ne.symm other]

/-- The tenures of the threads after an access of one of them. -/
theorem tenures_cons (P : Nat → Position) (p : Position) :
    (fun s => (Function.update P a.thread p s).tenure (guards s (a :: trace))) =
      Function.update (fun s => (P s).tenure (guards s trace)) a.thread
        (p.tenure (guards a.thread (a :: trace))) := by
  funext s
  by_cases same : s = a.thread
  · subst same
    rw [Function.update_self, Function.update_self]
  · rw [Function.update_of_ne same, Function.update_of_ne same, guards_cons_of_ne same]

end Trace

/-- An access keeps the identities that have been given, and gives one to a thread that asks for
it. -/
theorem Identified.access {threads : Nat} {a : Turn (shared V)}
    (before : Identified threads a.before) (few : threads < 2 ^ 64) (member : a.thread < threads)
    (taken : a.Taken) :
    Identified threads a.after ∧
      (∀ s, a.before.identities.get s ≠ 0 →
        a.after.identities.get s = a.before.identities.get s) ∧
      ∀ next, a.stage = .identifying next → a.after.identities.get a.thread ≠ 0 := by
  rcases Stage.advance_identities taken with ⟨same, next, other⟩ | ⟨next, -, identify⟩
  · refine ⟨before.congr same next, fun s _ => by rw [same], ?_⟩
    intro next asks
    exact absurd asks (other next)
  · obtain ⟨ids, some_name⟩ := before.identify few member
    rw [identify]
    exact ⟨ids, fun s => identities_identify_of_ne_zero a.thread, fun _ _ => some_name⟩

namespace Held

variable {threads : Nat} {m : Monitor V} {P : Nat → Position} {trace : List (Turn (shared V))}

theorem start (value : V) (lock : Lock) (free : lock.word = .unlocked ∧ lock.owner = 0) :
    Held threads { value, lock } (fun _ => .outside) [] where
  ids := .new value lock
  named _ some_guard := absurd some_guard (Nat.lt_irrefl 0)
  agrees _ := trivial
  owned :=
    { unique := fun some_tenure => absurd rfl some_tenure
      taken := fun some_tenure => absurd rfl some_tenure
      shows := fun _ => trivial
      free := fun _ => free }
  word _ := ⟨False.elim, fun some_tenure => some_tenure rfl⟩

/-- A thread outside the lock's procedures enters a call. -/
theorem enter (held : Held threads m P trace) {t : Nat}
    (outside : P t = .outside) (call : Call V) :
    Held threads m (Function.update P t (Stage.ofCall call).position) trace := by
  have tenure : ∀ s, (Function.update P t (Stage.ofCall call).position s).tenure
      (guards s trace) = (P s).tenure (guards s trace) := by
    intro s
    by_cases same : s = t
    · subst same
      rw [Function.update_self, outside]
      exact Stage.tenure_ofCall call _
    · rw [Function.update_of_ne same]
  refine ⟨held.ids, held.named, ?_, ?_, ?_⟩
  · intro s
    by_cases same : s = t
    · subst same
      rw [Function.update_self]
      exact Stage.agrees_ofCall call _ _
    · rw [Function.update_of_ne same]
      exact held.agrees s
  · simp only [tenure]
    exact held.owned
  · intro s
    rw [tenure]
    exact held.word s

theorem identities (held : Held threads m P trace) (few : threads < 2 ^ 64) {a : Turn (shared V)}
    (here : a.before = m) (member : a.thread < threads) (taken : a.Taken) :
    Identified threads a.after ∧
      (∀ s, m.identities.get s ≠ 0 → a.after.identities.get s = m.identities.get s) ∧
      ∀ next, a.stage = .identifying next → a.after.identities.get a.thread ≠ 0 := by
  subst here
  exact held.ids.access few member taken

/-- What an access does to the tenure of its thread, and what the thread has then noted. -/
theorem changes {a : Turn (shared V)} (held : Held threads a.before P trace)
    (few : threads < 2 ^ 64) (member : a.thread < threads)
    (here : P a.thread = a.stage.position) (taken : a.Taken) (lawful : Lawful (a :: trace)) :
    (a.stage.position.tenure (guards a.thread trace)).Changes
        (a.before.identities.get a.thread) a.before.lock a.after.lock
        ((positionOf a.progress.stage?).tenure (guards a.thread (a :: trace))) ∧
      (positionOf a.progress.stage?).Agrees (a.after.identities.get a.thread ≠ 0)
        (guards a.thread (a :: trace)) ∧
      (0 < guards a.thread (a :: trace) →
        0 < guards a.thread trace ∨ a.before.identities.get a.thread ≠ 0) := by
  obtain ⟨reply, moves, ends⟩ := Stage.advance_moves taken
  obtain ⟨ids, kept, introduced⟩ := held.identities few rfl member taken
  have agrees_t := held.agrees a.thread
  have shows_t := held.owned.shows a.thread
  rw [here] at agrees_t shows_t
  have owner_t (named : a.before.identities.get a.thread ≠ 0) :=
    held.owned.owner_eq_iff (t := a.thread) held.ids.distinct named
  rw [here] at owner_t
  have stays_named (named : a.before.identities.get a.thread ≠ 0) :
      a.after.identities.get a.thread ≠ 0 := by
    rwa [kept _ named]
  rw [guards_cons_self ends]
  refine moves.agrees agrees_t shows_t owner_t lawful.1 stays_named ?_
  intro next introducing
  obtain ⟨stage, asks, -⟩ := Stage.eq_identifying introducing
  exact introduced stage asks

/-- Every access keeps what holds of the lock. -/
theorem access {a : Turn (shared V)} (held : Held threads a.before P trace)
    (few : threads < 2 ^ 64) (member : a.thread < threads)
    (here : P a.thread = a.stage.position) (taken : a.Taken) (lawful : Lawful (a :: trace)) :
    Held threads a.after (Function.update P a.thread (positionOf a.progress.stage?))
      (a :: trace) := by
  obtain ⟨reply, moves, ends⟩ := Stage.advance_moves taken
  obtain ⟨ids, kept, -⟩ := held.identities few rfl member taken
  have agrees_t := held.agrees a.thread
  rw [here] at agrees_t
  obtain ⟨changes, agrees', some_name⟩ := held.changes few member here taken lawful
  have guards_t : guards a.thread (a :: trace) =
      reply.elim (guards a.thread trace) (·.guardsAfter (guards a.thread trace)) :=
    guards_cons_self ends
  have stays_named (named : a.before.identities.get a.thread ≠ 0) :
      a.after.identities.get a.thread ≠ 0 := by
    rwa [kept _ named]
  refine ⟨ids, ?named, ?agrees, ?owned, ?word⟩
  case named =>
    intro s some_guard
    by_cases same : s = a.thread
    · subst same
      apply stays_named
      rcases some_name some_guard with before | named
      · exact held.named _ before
      · exact named
    · rw [guards_cons_of_ne same] at some_guard
      rw [kept s (held.named s some_guard)]
      exact held.named s some_guard
  case agrees =>
    intro s
    by_cases same : s = a.thread
    · subst same
      rw [Function.update_self]
      exact agrees'
    · rw [Function.update_of_ne same, guards_cons_of_ne same]
      exact (held.agrees s).mono fun named => by rwa [kept s named]
  case owned =>
    rw [tenures_cons]
    refine (held.owned.change (by rw [here]; exact changes)).rename fun s has => ?_
    by_cases same : s = a.thread
    · subst same
      rcases Stage.advance_identities taken with ⟨same, -⟩ | ⟨next, asks, -⟩
      · rw [same]
      · -- a thread that asks for its identity has the word only if it has a guard
        rw [asks] at moves agrees_t
        rw [Function.update_self, guards_t, moves.tenure_introducing agrees_t] at has
        exact kept _ (held.named _ (Nat.pos_of_ne_zero (Tenure.ofGuards_eq_none.not.mp has)))
    · rw [Function.update_of_ne same] at has
      exact kept s ((held.agrees s).named (held.named s) has)
  case word =>
    intro s
    by_cases same : s = a.thread
    · subst same
      rw [Function.update_self]
      have had := held.word a.thread
      rw [here] at had
      have has := changes.has_iff Position.tenure_eq_won.symm Position.tenure_eq_freeing.symm had
      simpa [HasWord, WinsWord, FreesWord] using has
    · rw [Function.update_of_ne same, guards_cons_of_ne same, ← held.word s]
      exact hasWord_cons_of_ne same

/-- Only one thread has a guard and is in none of the lock's procedures. -/
theorem alone (held : Held threads m P trace) {s t : Nat} (outside_s : P s = .outside)
    (guard_s : 0 < guards s trace) (outside_t : P t = .outside) (guard_t : 0 < guards t trace) :
    s = t :=
  held.owned.unique (Position.tenure_of_guard outside_s guard_s)
    (Position.tenure_of_guard outside_t guard_t)

theorem hasWord_iff_guard (held : Held threads m P trace) {t : Nat} (outside : (P t).lock? = none)
    (on_lock : ∀ levels, P t ≠ .away levels) : HasWord t trace ↔ 0 < guards t trace := by
  rw [held.word, Position.tenure_at_rest outside on_lock, ne_eq, Tenure.ofGuards_eq_none,
    Nat.pos_iff_ne_zero]

theorem not_away (held : Held threads m P trace) {t : Nat} (has : HasWord t trace)
    (levels : Nat) : P t ≠ .away levels := by
  intro away
  have some_tenure := (held.word t).mp has
  rw [away] at some_tenure
  exact some_tenure rfl

/-- A thread that has the word and is in none of the procedures is the owner of its levels. -/
theorem owns (held : Held threads m P trace) {t : Nat} (has : HasWord t trace)
    (outside : (P t).lock? = none) :
    m.lock.owner = m.identities.get t ∧ m.lock.depth = guards t trace ∧ 0 < guards t trace := by
  have some_guard := (held.hasWord_iff_guard outside (held.not_away has)).mp has
  have shows := held.owned.shows t
  rw [Position.tenure_at_rest outside (held.not_away has),
    Tenure.ofGuards_of_pos some_guard] at shows
  exact ⟨shows.1, shows.2, some_guard⟩

/-- A thread that is about to compare the owner with itself finds the truth. -/
theorem owner_eq_iff (held : Held threads m P trace) {t : Nat}
    (asks : P t = .comparing ∨ ∃ mayWait, P t = .entering (.ask mayWait)) :
    m.lock.owner = m.identities.get t ↔ HasWord t trace := by
  have agrees_t := held.agrees t
  have guarded : (P t).tenure (guards t trace) = .ofGuards (guards t trace) ∧
      m.identities.get t ≠ 0 := by
    rcases asks with compares | ⟨mayWait, asks⟩
    · rw [compares] at agrees_t ⊢
      exact ⟨rfl, agrees_t⟩
    · rw [asks] at agrees_t ⊢
      exact ⟨rfl, agrees_t⟩
  rw [held.owned.owner_eq_iff held.ids.distinct guarded.2, held.word, guarded.1,
    Tenure.isSigned_ofGuards, ne_eq, Tenure.ofGuards_eq_none, Nat.pos_iff_ne_zero]

/-- While nobody holds the lock, a thread that is in none of its procedures has no guard. -/
theorem not_guarded (held : Held threads m P trace) {t : Nat} (outside : P t = .outside)
    (free : m.lock.word = .unlocked ∨ m.lock.owner = 0) : ¬ 0 < guards t trace := by
  intro guard
  have shows := held.owned.shows t
  rw [outside, Position.tenure, Tenure.ofGuards_of_pos guard] at shows
  rcases free with unlocked | no_owner
  · exact held.owned.taken (Position.tenure_of_guard outside guard) unlocked
  · exact held.named t guard (shows.1.symm.trans no_owner)

end Held

variable {threads : Nat} {value : V} {settings : Settings} {u : System (shared V) β}
  {trace : List (Turn (shared V))}

/-- The invariant of the lock holds in every state of a lawful run. -/
theorem held_of_run (few : threads < 2 ^ 64)
    (run : System.Run (fun t _ => t < threads) { state := Monitor.new value settings } u trace)
    (lawful : Lawful trace) : Held threads u.state (positions u.stage?) trace := by
  refine run.stages_induction (M := fun t => t < threads)
    (I := fun (m : Monitor V) stages trace =>
      Lawful trace → Held threads m (positions stages) trace)
    (System.stage?_start _) (fun _ _ member => member)
    ?start ?enters ?takes ?elapses lawful
  case start =>
    exact fun _ => .start value _ ⟨rfl, rfl⟩
  case enters =>
    intro m stages trace t call held none_t _ lawful
    rw [positions_update]
    exact (held lawful).enter (positions_of_none none_t) call
  case takes =>
    intro stages trace a held some_t member taken lawful
    rw [positions_update]
    exact (held lawful.2).access few member (positions_of_some some_t) taken lawful
  case elapses =>
    intro m stages trace time held lawful
    obtain ⟨ids, named, agrees, owned, word⟩ := held lawful
    exact ⟨ids.congr rfl rfl, named, agrees, owned, word⟩

/-- In every state of a run in which threads leave levels only while they have guards:
at most one thread has won the word and not given it back; while it is in none of the lock's
procedures, the owner is this thread and the depth is the number of its guards; the thread finds
itself to be the owner, and no other does; and the word is free exactly if there is no such
thread. A thread that is neither in a procedure nor off the lock in a wait has the word exactly if
it has a guard. -/
theorem mutual_exclusion (few : threads < 2 ^ 64)
    (run : System.Run (fun t _ => t < threads) { state := Monitor.new value settings } u trace)
    (lawful : Lawful trace) :
    (∀ s t, HasWord s trace → HasWord t trace → s = t) ∧
    (∀ t, HasWord t trace → lockStage? u t = none →
      u.state.lock.owner = u.state.identities.get t ∧
      u.state.lock.depth = guards t trace ∧ 0 < guards t trace) ∧
    (∀ t, AsksOwner u t →
      (u.state.lock.owner = u.state.identities.get t ↔ HasWord t trace)) ∧
    (u.state.lock.word = .unlocked ↔ ∀ t, ¬ HasWord t trace) ∧
    (∀ t, lockStage? u t = none → (∀ levels, positionOf (u.stage? t) ≠ .away levels) →
      (HasWord t trace ↔ 0 < guards t trace)) := by
  have held := held_of_run few run lawful
  refine ⟨?_, ?_, ?_, ?_, ?_⟩
  · intro s t has_s has_t
    exact held.owned.unique ((held.word s).mp has_s) ((held.word t).mp has_t)
  · intro t has outside
    exact held.owns has outside
  · intro t asks
    refine held.owner_eq_iff ?_
    rcases asks with compares | ⟨mayWait, asks⟩
    · exact Or.inl (positions_of_some compares)
    · exact Or.inr ⟨mayWait, positions_of_some asks⟩
  · rw [held.owned.unlocked_iff]
    exact forall_congr' fun t => by rw [held.word, not_not]
  · intro t outside on_lock
    exact held.hasWord_iff_guard outside on_lock

/-- Thread `0` enters three levels, the last one without waiting, and leaves one; thread `1` finds
the lock taken and falls asleep. -/
def nesting : System (shared Unit) Unit × List (Turn (shared Unit)) :=
  let start : System (shared Unit) Unit := { state := Monitor.new () { spinLimit := 1 } }
  let nested : Action Unit Unit := do
    Action.lock
    Action.lock
    let _ ← Action.tryLock
    Action.unlock
  let turns := [0, 1, 0, 0, 0, 1, 1, 0, 0, 1, 0, 0, 0, 1, 0, 0, 1, 0, 1, 1]
  ((start.assign 0 nested).1.assign 1 Action.lock).1.follow [] (turns.map fun t => (t, {}))

theorem mutual_exclusion_nesting :
    System.Run (fun t _ => t < 2) { state := Monitor.new () { spinLimit := 1 } } nesting.1
        nesting.2 ∧
      Lawful nesting.2 ∧ nesting.1.state.lock.sleepers = [1] ∧
      HasWord 0 nesting.2 ∧ ¬ HasWord 1 nesting.2 ∧ nesting.1.state.lock.owner = 1 ∧
      nesting.1.state.lock.depth = guards 0 nesting.2 ∧ guards 0 nesting.2 = 2 := by
  have run : System.Run (fun t _ => t < 2) { state := Monitor.new () { spinLimit := 1 } }
      nesting.1 nesting.2 :=
    System.Run.follow (.assign 1 _ (.assign 0 _ .start rfl (by decide)) rfl (by decide)) _
  have lawful : Lawful nesting.2 := by decide +kernel
  have two : guards 0 nesting.2 = 2 := by decide +kernel
  have here : positionOf (nesting.1.stage? 0) = .outside := by decide +kernel
  have outside : lockStage? nesting.1 0 = none := by rw [lockStage?, here]; rfl
  have on_lock : ∀ levels, positionOf (nesting.1.stage? 0) ≠ .away levels := by
    intro levels
    rw [here]
    nofun
  obtain ⟨one, held, -, -, has_iff⟩ := mutual_exclusion (by decide) run lawful
  have has := (has_iff 0 outside on_lock).mpr (by rw [two]; decide)
  obtain ⟨owner, depth, -⟩ := held 0 has outside
  have name : nesting.1.state.identities.get 0 = 1 := by decide +kernel
  exact ⟨run, lawful, by decide +kernel, has, fun other => absurd (one 0 1 has other) (by decide),
    owner.trans name, depth, two⟩

end Monitor

end Interlock

import Interlock.Proofs.Monitor.Position

/-!
# Tenures of the lock

The lock is three words that are written one after the other. Between winning the word and giving
it back a thread has a tenure, which tells what it has written so far. `Lock.Owned` says what the
three words show for the threads' tenures: at most one thread has one, and the word is free if
nobody has. `Tenure.Changes` lists what one access may do to the words and to the tenure of the
thread that takes it, and `Owned.change` that each of these keeps `Owned`.
-/

namespace Interlock

/-- What a thread has written since it won the word. -/
inductive Tenure where
  | none
  /-- It has won the word; the owner is not written yet. -/
  | won
  /-- It has written the owner; the levels are not written yet. -/
  | signed
  | holding (levels : Nat)
  /-- It has taken the last level away; the owner is not cleared yet. -/
  | vacating
  /-- It has cleared the owner; the word is not given back yet. -/
  | freeing
  deriving DecidableEq, Repr

namespace Tenure

/-- The tenure of a thread with a number of guards that is in none of the lock's procedures. -/
def ofGuards (guards : Nat) : Tenure :=
  if guards = 0 then none else holding guards

theorem ofGuards_eq_none {guards : Nat} : ofGuards guards = none ↔ guards = 0 := by
  unfold ofGuards
  split <;> simp_all

theorem ofGuards_of_pos {guards : Nat} (some_guard : 0 < guards) :
    ofGuards guards = holding guards := by
  unfold ofGuards
  rw [if_neg (by omega)]

/-- Whether the owner is written. -/
def IsSigned : Tenure → Prop
  | signed | holding _ | vacating => True
  | _ => False

theorem isSigned_ofGuards {guards : Nat} : (ofGuards guards).IsSigned ↔ 0 < guards := by
  unfold ofGuards
  split <;> simp_all [IsSigned, Nat.pos_iff_ne_zero]

/-- What one access of thread `me` may do to the lock and to the tenure of the thread. -/
inductive Changes (me : UInt64) (l : Lock) : Tenure → Lock → Tenure → Prop where
  | keeps {guards : Nat} {l' : Lock} (word : l'.word = .unlocked ↔ l.word = .unlocked)
    (owner : l'.owner = l.owner) (depth : l'.depth = l.depth) :
    Changes me l (ofGuards guards) l' (ofGuards guards)
  | wins {l' : Lock} (free : l.word = .unlocked) (taken : l'.word ≠ .unlocked)
    (owner : l'.owner = l.owner) : Changes me l none l' won
  | signs : Changes me l won { l with owner := me } signed
  | settles {levels : Nat} : Changes me l signed { l with depth := levels } (holding levels)
  | moves {levels levels' : Nat} :
    Changes me l (holding levels) { l with depth := levels' } (holding levels')
  | vacates {levels depth : Nat} : Changes me l (holding levels) { l with depth } vacating
  | clears : Changes me l vacating { l with owner := 0 } freeing
  | frees : Changes me l freeing { l with word := .unlocked } none

/-- A thread that does not have the word does not win it. -/
theorem Changes.misses {me : UInt64} {l l' : Lock} (word : l'.word = .unlocked ↔ l.word = .unlocked)
    (owner : l'.owner = l.owner) (depth : l'.depth = l.depth) : Changes me l none l' none := by
  have kept : Changes me l (ofGuards 0) l' (ofGuards 0) := keeps word owner depth
  exact kept

/-- A thread has the word after an access that wins it, and otherwise if it had it and has not
given it back. -/
theorem Changes.has_iff {me : UInt64} {l l' : Lock} {old new : Tenure} {wins frees had : Prop}
    (changes : Changes me l old l' new) (wins_iff : wins ↔ new = won)
    (frees_iff : frees ↔ old = freeing) (had_iff : had ↔ old ≠ none) :
    wins ∨ ¬ frees ∧ had ↔ new ≠ none := by
  cases changes with
  | @keeps guards =>
    have not_won : ofGuards guards ≠ won ∧ ofGuards guards ≠ freeing := by
      unfold ofGuards
      split <;> simp
    simp [wins_iff, frees_iff, had_iff, not_won.1, not_won.2]
  | _ => simp [wins_iff, frees_iff, had_iff]

/-- The owner stays written until the thread clears it. -/
theorem Changes.signed {me : UInt64} {l l' : Lock} {old new : Tenure}
    (changes : Changes me l old l' new) (signed : old.IsSigned) :
    new.IsSigned ∨ old = vacating := by
  cases changes with
  | keeps => exact Or.inl signed
  | settles | moves | vacates => exact Or.inl trivial
  | clears => exact Or.inr rfl
  | wins | signs | frees => exact signed.elim

end Tenure

namespace Lock

/-- What the lock shows while thread `me` has a tenure. -/
def Shows (l : Lock) (me : UInt64) : Tenure → Prop
  | .none => True
  | .won | .freeing => l.owner = 0
  | .signed | .vacating => l.owner = me
  | .holding levels => l.owner = me ∧ l.depth = levels

/-- What the lock shows for the tenures of all threads. -/
structure Owned (l : Lock) (name : Nat → UInt64) (tenure : Nat → Tenure) : Prop where
  unique : ∀ {s t : Nat}, tenure s ≠ .none → tenure t ≠ .none → s = t
  taken : ∀ {t : Nat}, tenure t ≠ .none → l.word ≠ .unlocked
  shows : ∀ t, l.Shows (name t) (tenure t)
  free : (∀ t, tenure t = .none) → l.word = .unlocked ∧ l.owner = 0

namespace Owned

variable {l l' : Lock} {name : Nat → UInt64} {tenure : Nat → Tenure} {t : Nat}

theorem unlocked_iff (owned : Owned l name tenure) :
    l.word = .unlocked ↔ ∀ t, tenure t = .none := by
  constructor
  · intro unlocked t
    by_contra some_tenure
    exact owned.taken some_tenure unlocked
  · intro nobody
    exact (owned.free nobody).1

/-- The owner is the thread that has written it. -/
theorem owner_eq_iff (owned : Owned l name tenure)
    (distinct : ∀ {s t}, name s ≠ 0 → name s = name t → s = t) (named : name t ≠ 0) :
    l.owner = name t ↔ (tenure t).IsSigned := by
  constructor
  · intro owner
    by_cases nobody : ∀ s, tenure s = .none
    · rw [(owned.free nobody).2] at owner
      exact absurd owner.symm named
    · obtain ⟨s, some_tenure⟩ := not_forall.mp nobody
      have shows := owned.shows s
      cases has : tenure s with
      | none => exact absurd has some_tenure
      | won | freeing =>
        rw [has] at shows
        exact absurd (owner.symm.trans shows) named
      | signed | vacating =>
        rw [has] at shows
        rw [distinct named (owner.symm.trans shows), has]
        trivial
      | holding levels =>
        rw [has] at shows
        rw [distinct named (owner.symm.trans shows.1), has]
        trivial
  · intro signed
    have shows := owned.shows t
    cases has : tenure t with
    | none | won | freeing =>
      rw [has] at signed
      exact signed.elim
    | signed | vacating =>
      rw [has] at shows
      exact shows
    | holding levels =>
      rw [has] at shows
      exact shows.1

/-- A thread that has the word, or takes it while it is free, is the only one to have it. -/
theorem update (owned : Owned l name tenure) {new : Tenure}
    (mine : tenure t ≠ .none ∨ l.word = .unlocked) (some_tenure : new ≠ .none)
    (taken : l'.word ≠ .unlocked) (shows : l'.Shows (name t) new) :
    Owned l' name (Function.update tenure t new) := by
  have others : ∀ s, s ≠ t → tenure s = .none := by
    intro s other
    by_contra tenure_s
    rcases mine with tenure_t | unlocked
    · exact other (owned.unique tenure_s tenure_t)
    · exact owned.taken tenure_s unlocked
  have only : ∀ {s}, Function.update tenure t new s ≠ .none → s = t := by
    intro s tenure_s
    by_contra other
    rw [Function.update_of_ne other] at tenure_s
    exact tenure_s (others s other)
  refine ⟨?_, fun _ => taken, ?_, ?_⟩
  · intro s s' tenure_s tenure_s'
    rw [only tenure_s, only tenure_s']
  · intro s
    by_cases same : s = t
    · subst same
      rwa [Function.update_self]
    · rw [Function.update_of_ne same, others s same]
      trivial
  · intro nobody
    have none_t := nobody t
    rw [Function.update_self] at none_t
    exact absurd none_t some_tenure

/-- Every change of tenure keeps what the lock shows. -/
theorem change (owned : Owned l name tenure) {new : Tenure}
    (changes : (tenure t).Changes (name t) l l' new) :
    Owned l' name (Function.update tenure t new) := by
  have shows := owned.shows t
  generalize has : tenure t = old at changes shows
  have mine (some_tenure : old ≠ .none) : l.word ≠ .unlocked :=
    owned.taken (by rwa [has])
  cases changes with
  | keeps word owner depth =>
    rw [← has, Function.update_eq_self]
    refine ⟨owned.unique, fun tenure_s => word.not.mpr (owned.taken tenure_s), ?_, ?_⟩
    · intro s
      have shows := owned.shows s
      cases has : tenure s <;> simp_all [Shows]
    · intro nobody
      exact ⟨word.mpr (owned.free nobody).1, owner.trans (owned.free nobody).2⟩
  | wins free taken owner =>
    have nobody := owned.unlocked_iff.mp free
    exact owned.update (Or.inr free) nofun taken (owner.trans (owned.free nobody).2)
  | signs => exact owned.update (Or.inl (by simp [has])) nofun (mine nofun) rfl
  | settles => exact owned.update (Or.inl (by simp [has])) nofun (mine nofun) ⟨shows, rfl⟩
  | moves => exact owned.update (Or.inl (by simp [has])) nofun (mine nofun) ⟨shows.1, rfl⟩
  | vacates => exact owned.update (Or.inl (by simp [has])) nofun (mine nofun) shows.1
  | clears => exact owned.update (Or.inl (by simp [has])) nofun (mine nofun) rfl
  | frees =>
    have nobody : ∀ s, Function.update tenure t .none s = .none := by
      intro s
      by_cases same : s = t
      · rw [same, Function.update_self]
      · rw [Function.update_of_ne same]
        by_contra tenure_s
        exact same (owned.unique tenure_s (by simp [has]))
    refine ⟨?_, ?_, ?_, fun _ => ⟨rfl, shows⟩⟩
    · intro s s' tenure_s
      exact absurd (nobody s) tenure_s
    · intro s tenure_s
      exact absurd (nobody s) tenure_s
    · intro s
      rw [nobody s]
      trivial

/-- Only the names of threads with a tenure matter. -/
theorem rename (owned : Owned l name tenure) {name' : Nat → UInt64}
    (same : ∀ s, tenure s ≠ .none → name' s = name s) : Owned l name' tenure := by
  refine ⟨owned.unique, owned.taken, ?_, owned.free⟩
  intro s
  by_cases none_s : tenure s = .none
  · rw [none_s]
    trivial
  · rw [same s none_s]
    exact owned.shows s

end Owned

end Lock

end Interlock

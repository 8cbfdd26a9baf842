import Interlock.Proofs.Opening
import Interlock.Proofs.Register
import Interlock.Register.Field

/-!
# No update of a field is lost

An update of a field goes on until an exchange of its own takes place (`Installs`). It may have
computed successors that were thrown away before; the exchange replaces the value that it finds by
the successor of this value, since the two are equal.

`begun` and `installed` are the updates of a run in the order in which they have begun and in which
their exchanges have taken place. As long as only updates run, each thread installs what it has
begun (`installed_of_run`), and the value is what the installed updates make of the first one. So if
the order does not matter to the functions, the interleaving does not matter to the value.
-/

namespace Interlock.Field

open Register

variable {α β : Type}

/-- The call that an update makes. -/
def updating (f : α → α) : Operation α :=
  .modify fun v => some (f v)

/-- What updates make of a value, one after the other. -/
def composed (updates : List (Nat × (α → α))) (initial : α) : α :=
  (updates.map Prod.snd).foldl (fun held f => f held) initial

/-- The order of updates that commute does not matter. -/
theorem composed_perm {first second : List (Nat × (α → α))}
    (same : (first.map Prod.snd).Perm (second.map Prod.snd))
    (commute : ∀ f ∈ first.map Prod.snd, ∀ g ∈ first.map Prod.snd, ∀ held, f (g held) = g (f held))
    (initial : α) : composed first initial = composed second initial :=
  same.foldl_eq' (fun f mem_f g mem_g held => commute g mem_g f mem_f held) initial

variable [BEq α]

/-- The function that an operation in progress applies to the value. -/
def change (stage : Stage α) (held : α) : α :=
  (stage.operation.apply held).left

theorem change_of_updating {stage : Stage α} {f : α → α} (updates : stage.operation = updating f) :
    change stage = f := by
  funext held
  simp [change, updates, updating, Operation.apply]

/-- The access is the last one of an update by `f`. The update has exchanged the value once, with
this access, which replaces the value that it finds by `f` of it and answers with both. -/
structure Installs (f : α → α) (a : Turn (shared α)) (older : List (Turn (shared α))) : Prop where
  once : (a.during older).filter (fun c => c.thread = a.thread && exchanged c) = [a]
  replaces : a.after = f a.before
  replies : a.progress = .finished ⟨a.before, f a.before, true⟩

/-- The access belongs to an update. -/
def Updates (a : Turn (shared α)) : Prop :=
  ∃ f, a.stage.operation = updating f

/-- The access is the first one of a loop. -/
def begins (a : Turn (shared α)) : Bool :=
  match a.stage with
  | .reading _ => true
  | _ => false

/-- The loop that an access belongs to: who goes through it, and the function. -/
def entry (a : Turn (shared α)) : Nat × (α → α) :=
  (a.thread, change a.stage)

/-- The updates in the order in which they have begun. -/
def begun (trace : List (Turn (shared α))) : List (Nat × (α → α)) :=
  (trace.reverse.filter begins).map entry

/-- The updates in the order in which their exchanges have taken place. -/
def installed (trace : List (Turn (shared α))) : List (Nat × (α → α)) :=
  (trace.reverse.filter exchanged).map entry

/-- The loop that is going to be installed by an operation in progress. -/
def owed (t : Nat) : Option (Stage α) → List (Nat × (α → α))
  | some (.trying f seen next) => [(t, change (.trying f seen next))]
  | _ => []

variable {a : Turn (shared α)} {trace older : List (Turn (shared α))} {f : α → α}

theorem begun_cons (a : Turn (shared α)) (older : List (Turn (shared α))) :
    begun (a :: older) = begun older ++ if begins a then [entry a] else [] := by
  by_cases first : begins a <;> simp [begun, first]

theorem installed_cons (a : Turn (shared α)) (older : List (Turn (shared α))) :
    installed (a :: older) = installed older ++ if exchanged a then [entry a] else [] := by
  by_cases taken : exchanged a <;> simp [installed, taken]

/-- An exchange that takes place ends its operation. -/
theorem ends_of_exchanged (taken : a.Taken) (exchanges : exchanged a) : a.ends := by
  obtain ⟨t, chance, before, stage, after, progress⟩ := a
  have moves : stage.Accesses chance.spurious before after progress :=
    Stage.accesses_of_taken taken
  cases moves with
  | single | wins => rfl
  | reads => cases exchanges
  | loses lost => exact Bool.noConfusion (lost.symm.trans exchanges)

/-- In a call that is going on, an access of its own does not end it. -/
theorem goes_on_of_mem_during {t : Nat} {c : Turn (shared α)} (member : c ∈ during t trace)
    (mine : c.thread = t) : c.ends = false := by
  induction trace with
  | nil => cases member
  | cons a older ih =>
    by_cases same : a.thread = t
    · subst same
      cases ending : a.ends with
      | true =>
        rw [during_of_ends ending] at member
        cases member
      | false =>
        rw [during_of_not_ends ending] at member
        rcases List.mem_cons.mp member with rfl | earlier
        · exact ending
        · exact ih earlier
    · by_cases begun : during t older = []
      · rw [during_cons_of_nil same begun] at member
        cases member
      · rw [during_cons_of_ne same begun] at member
        rcases List.mem_cons.mp member with rfl | earlier
        · exact absurd mine same
        · exact ih earlier

/-- What an access of an update may do: it leaves the value alone, and the update is about to
exchange it, or it installs what the update makes of the value and ends it. -/
inductive Moves (f : α → α) (a : Turn (shared α)) : Prop where
  | goes_on {seen next : α} (silent : exchanged a = false) (kept : a.after = a.before)
    (attempts : a.progress = .ongoing (.trying (fun v => some (f v)) seen next))
  | installs (exchanges : exchanged a) (replaces : a.after = f a.before)
    (replies : a.progress = .finished ⟨a.before, f a.before, true⟩)

theorem moves_of_taken [LawfulBEq α] (taken : a.Taken) (valid : a.stage.Valid)
    (updates : a.stage.operation = updating f) : Moves f a := by
  obtain ⟨t, chance, before, stage, after, progress⟩ := a
  have moves : stage.Accesses chance.spurious before after progress :=
    Stage.accesses_of_taken taken
  cases moves with
  | single => cases updates
  | reads g =>
    cases updates
    exact .goes_on rfl rfl rfl
  | loses lost =>
    cases updates
    exact .goes_on lost rfl rfl
  | @wins g seen next found =>
    cases updates
    have same : before = seen := eq_of_beq (Bool.and_eq_true_iff.mp found).1
    have successor : some (f seen) = some after := valid
    cases Option.some.inj successor
    subst same
    exact .installs found rfl rfl

/-- An update that has not begun with this access is owed before it. -/
theorem owed_append_begins (updates : a.stage.operation = updating f) :
    owed a.thread (some a.stage) ++ (if begins a then [entry a] else []) = [(a.thread, f)] := by
  obtain ⟨t, chance, before, stage, after, progress⟩ := a
  cases stage with
  | single access => cases updates
  | reading g => simp [owed, begins, entry, change_of_updating updates]
  | trying g seen next => simp [owed, begins, change_of_updating updates]

section Run

variable [LawfulBEq α] {allowed : Nat → Action α β → Prop} {initial : α}
  {u : System (shared α) β} {newer : List (Turn (shared α))}

/-- In the middle of a run, the successor that an exchange is about to write belongs to the value
that it expects. -/
theorem valid_of_run (run : System.Run (O := shared α) allowed { state := initial } u trace)
    {t : Nat} {stage : Stage α} (here : u.stage? t = some stage) : stage.Valid := by
  have calls := run.call_of_stage (P := fun _ (stage : Stage α) => stage.Valid)
    (System.stage?_start initial) Stage.valid_ofOperation ?advance t
  case advance =>
    rintro call next ⟨thread, chance, before, stage, after, progress⟩ valid taken goes_on
    obtain rfl : progress = .ongoing next := goes_on
    have granted : stage.advance chance.spurious before = (after, .ongoing next) :=
      Option.some.inj taken
    have moved := Stage.advance_moves valid chance.spurious before
    rw [granted] at moved
    cases moved with
    | waits same fits => exact fits
  obtain ⟨call, valid, -⟩ := calls.2 stage here
  exact valid

/-- The last access of an update installs it. -/
theorem installs_of_run
    (run : System.Run (O := shared α) allowed { state := initial } u (a :: older))
    (updates : a.stage.operation = updating f) (ends : a.ends) : Installs f a older := by
  obtain ⟨v, before, -, here, taken⟩ := run.at_access
  cases moves_of_taken taken (valid_of_run before here) updates with
  | goes_on silent kept attempts => simp [Turn.ends, attempts, Progress.stage?] at ends
  | installs exchanges replaces replies =>
    refine ⟨?_, replaces, replies⟩
    have others : (during a.thread older).filter
        (fun c => c.thread = a.thread && exchanged c) = [] := by
      rw [List.filter_eq_nil_iff]
      intro c member both
      obtain ⟨mine, exchanges_too⟩ := Bool.and_eq_true_iff.mp both
      have goes_on := goes_on_of_mem_during member (of_decide_eq_true mine)
      have c_taken : c.Taken := before.taken_of_mem ((during_sublist _ _).mem member)
      rw [ends_of_exchanged c_taken exchanges_too] at goes_on
      cases goes_on
    rw [Turn.during, List.filter_cons, if_pos (by simp [exchanges]), others]

/-- While only updates run, the value is what the installed ones make of the first one. -/
theorem composed_of_run (run : System.Run (O := shared α) allowed { state := initial } u trace)
    (updates : ∀ a ∈ trace, Updates a) : u.state = composed (installed trace) initial := by
  refine run.accesses_induction
    (I := fun state trace => (∀ a ∈ trace, Updates a) → state = composed (installed trace) initial)
    ?start ?takes ?elapses updates
  case start => exact fun _ => rfl
  case takes =>
    intro v older a before _ here taken ih updates
    obtain ⟨f, updates_f⟩ := updates a (List.mem_cons_self ..)
    have earlier := ih fun c member => updates c (List.mem_cons_of_mem a member)
    rw [installed_cons]
    cases moves_of_taken taken (valid_of_run before here) updates_f with
    | goes_on silent kept attempts => simp [silent, kept, earlier]
    | installs exchanges replaces replies =>
      rw [replaces, earlier]
      simp [composed, exchanges, entry, change_of_updating updates_f]
  case elapses => exact fun _ ih => ih

/-- A thread has installed the updates that it has begun, in their order, but for the one that it is
about to install. -/
theorem begun_of_run (run : System.Run (O := shared α) allowed { state := initial } u trace)
    (updates : ∀ a ∈ trace, Updates a) (t : Nat) :
    (begun trace).filter (fun entry => entry.1 = t) =
      (installed trace).filter (fun entry => entry.1 = t) ++ owed t (pending t trace) := by
  refine run.accesses_induction
    (I := fun _ trace => (∀ a ∈ trace, Updates a) →
      (begun trace).filter (fun entry => entry.1 = t) =
        (installed trace).filter (fun entry => entry.1 = t) ++ owed t (pending t trace))
    ?start ?takes ?elapses updates
  case start => exact fun _ => rfl
  case takes =>
    intro v older a before _ here taken ih updates
    obtain ⟨f, updates_f⟩ := updates a (List.mem_cons_self ..)
    have earlier := ih fun c member => updates c (List.mem_cons_of_mem a member)
    by_cases same : a.thread = t
    · subst same
      have owes : owed a.thread (pending a.thread older) = owed a.thread (some a.stage) := by
        rcases before.pending_or_enters (System.stage?_start initial) here with
          left | ⟨left, call, enters⟩
        · rw [left]
        · rw [left, enters]
          cases call <;> rfl
      have begins_here : (if begins a then [entry a] else []).filter
          (fun entry => entry.1 = a.thread) = if begins a then [entry a] else [] := by
        cases begins a <;> simp [entry]
      rw [begun_cons, List.filter_append, earlier, owes, begins_here, List.append_assoc,
        owed_append_begins updates_f, installed_cons, pending_cons_self]
      cases moves_of_taken taken (valid_of_run before here) updates_f with
      | @goes_on seen next silent kept attempts =>
        have remains : change (.trying (fun v => some (f v)) seen next) = f :=
          change_of_updating rfl
        simp [silent, attempts, Progress.stage?, owed, remains]
      | installs exchanges replaces replies =>
        simp [exchanges, replies, Progress.stage?, owed, entry, change_of_updating updates_f]
    · rw [begun_cons, installed_cons, pending_cons_of_ne same, List.filter_append,
        List.filter_append, earlier]
      cases begins a <;> cases exchanged a <;> simp [entry, same]
  case elapses => exact fun _ ih => ih

/-- When no update is going on, those that have begun have been installed, each exactly once. -/
theorem begun_perm_installed
    (run : System.Run (O := shared α) allowed { state := initial } u trace)
    (updates : ∀ a ∈ trace, Updates a) (rests : ∀ t, u.stage? t = none) :
    (begun trace).Perm (installed trace) := by
  classical
  rw [List.perm_iff_count]
  rintro ⟨t, f⟩
  have left : pending t trace = none := by
    cases left : pending t trace with
    | none => rfl
    | some stage =>
      have busy := (run.stage?_eq (System.stage?_start initial) t).1 stage left
      rw [rests t] at busy
      cases busy
  have mine := begun_of_run run updates t
  have nothing : owed t (none : Option (Stage α)) = [] := rfl
  rw [left, nothing, List.append_nil] at mine
  have counted : ∀ updates : List (Nat × (α → α)),
      (updates.filter fun entry => entry.1 = t).count (t, f) = updates.count (t, f) :=
    fun updates => List.count_filter (by simp)
  rw [← counted (begun trace), mine, counted]

end Run

/-- No update is lost, whatever else is done to the field and in whatever order the accesses are
taken: a call that `update f` has made ends with its only exchange that takes place, which replaces
the value by `f` of it, and this is the result. If only updates run, the value is what they make of
the first one in the order of their exchanges; when none is going on, these are the updates that
have begun, each exactly once, and if they commute, the value is the same after every run of the
same updates. -/
theorem no_update_lost [LawfulBEq α] {γ : Type} {allowed : Nat → Action α β → Prop} {initial : α}
    {u : System (shared α) β}
    (run : System.Run (O := shared α) allowed { state := initial } u trace) :
    (∀ f : α → α, update f = .call (updating f) fun did => .done did.left) ∧
      (∀ {newer older : List (Turn (shared α))} {a : Turn (shared α)} {f : α → α},
        trace = newer ++ a :: older → a.stage.operation = updating f → a.ends →
        Installs f a older) ∧
      ((∀ a ∈ trace, Updates a) → u.state = composed (installed trace) initial ∧
        ((∀ t, u.stage? t = none) → (begun trace).Perm (installed trace) ∧
          ((∀ f ∈ (begun trace).map Prod.snd, ∀ g ∈ (begun trace).map Prod.snd,
              ∀ held, f (g held) = g (f held)) →
            ∀ {others : Nat → Action α γ → Prop} {v : System (shared α) γ}
              {trace' : List (Turn (shared α))},
              System.Run (O := shared α) others { state := initial } v trace' →
              (∀ a ∈ trace', Updates a) → (∀ t, v.stage? t = none) →
              ((begun trace).map Prod.snd).Perm ((begun trace').map Prod.snd) →
              v.state = u.state))) := by
  refine ⟨fun f => rfl, ?_, ?_⟩
  · rintro newer older a f rfl updates ends
    obtain ⟨v, before, -⟩ := run.split
    exact installs_of_run before updates ends
  · intro updates
    refine ⟨composed_of_run run updates, ?_⟩
    intro rests
    have once := begun_perm_installed run updates rests
    refine ⟨once, ?_⟩
    intro commute others v trace' run' updates' rests' same
    have once' := begun_perm_installed run' updates' rests'
    calc v.state = composed (installed trace') initial := composed_of_run run' updates'
      _ = composed (begun trace) initial :=
        (composed_perm (same.trans (once'.map _)) commute initial).symm
      _ = composed (installed trace) initial := composed_perm (once.map _) commute initial
      _ = u.state := (composed_of_run run updates).symm

/-- Two threads that are about to update a field. -/
def contenders : System (shared Nat) Nat :=
  let s : System (shared Nat) Nat := { state := 5 }
  let s := (s.assign 0 (update (· + 1))).1
  (s.assign 1 (update (· + 2))).1

/-- The second thread overtakes the first one, which has to start again. -/
def race : System (shared Nat) Nat × List (Turn (shared Nat)) :=
  contenders.follow [] [(0, {}), (1, {}), (1, {}), (0, {}), (0, {})]

/-- One update comes after the other. -/
def turns : System (shared Nat) Nat × List (Turn (shared Nat)) :=
  contenders.follow [] [(0, {}), (0, {}), (1, {}), (1, {})]

theorem no_update_lost_race :
    (∃ a older, race.2 = a :: older ∧ a.thread = 0 ∧ Installs (· + 1) a older) ∧
      (installed race.2).map Prod.fst = [1, 0] ∧ race.1.state = composed (installed race.2) 5 ∧
      turns.1.state = race.1.state ∧ race.1.state = 8 := by
  have begun_run : System.Run (O := shared Nat) (fun _ _ => True) { state := 5 } contenders [] :=
    .assign 1 _ (.assign 0 _ .start rfl trivial) rfl trivial
  have race_run : System.Run (O := shared Nat) (fun _ _ => True) { state := 5 } race.1 race.2 :=
    begun_run.follow _
  have turns_run : System.Run (O := shared Nat) (fun _ _ => True) { state := 5 } turns.1 turns.2 :=
    begun_run.follow _
  have race_updates : ∀ a ∈ race.2, Updates a := by
    repeat refine List.forall_mem_cons.mpr ⟨⟨_, rfl⟩, ?_⟩
    exact List.forall_mem_nil _
  have turns_updates : ∀ a ∈ turns.2, Updates a := by
    repeat refine List.forall_mem_cons.mpr ⟨⟨_, rfl⟩, ?_⟩
    exact List.forall_mem_nil _
  have race_rests : ∀ t, race.1.stage? t = none := by
    rintro (_ | _ | t) <;> rfl
  have turns_rests : ∀ t, turns.1.stage? t = none := by
    rintro (_ | _ | t) <;> rfl
  have functions : (begun race.2).map Prod.snd = [(· + 1), (· + 2)] := rfl
  obtain ⟨-, each, only⟩ := no_update_lost race_run
  obtain ⟨value, only_rests⟩ := only race_updates
  obtain ⟨-, any_order⟩ := only_rests race_rests
  refine ⟨⟨_, _, rfl, rfl, @each [] _ _ (· + 1) rfl rfl rfl⟩, rfl, value, ?_, by decide +kernel⟩
  refine any_order ?_ turns_run turns_updates turns_rests (.refl _)
  rw [functions]
  simp [Nat.add_right_comm]

end Interlock.Field

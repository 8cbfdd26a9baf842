import Interlock.Proofs.Register
import Interlock.Slot.Basic

/-!
# Slots that threads share

An operation on a slot takes effect with its last access, but for an update that gives up: this one
takes effect with its read, after which it has nothing more to say than that somebody else has
written. `linearization` puts the operations of a run in the order of these accesses, and
`operations_linearize` shows that this order is a sequential run (`Operation.Performs`).

An exchange that finds the allocation that was read finds its contents too, since numbers of
allocations are given out once. This needs that threads bring along only allocations that exist
(`Genuine`), and then all handles around are handles of allocations (`Sound`).
-/

namespace Interlock.Slot

open Register

variable {α : Type}

/-- Handles are compared by their numbers. -/
theorem beq_handle (a b : Handle α) : (a == b) = decide (a.id = b.id) := rfl

/-! ## Operations in one piece -/

/-- What an operation does in one piece. A new allocation gets some number that has not been given
out, and an update that may give up may leave the slot alone. -/
inductive Operation.Performs (s : Slot α) :
    Operation α → Transition (Handle α) → Slot α → Prop where
  | applies {operation : Operation α} {did : Transition (Handle α)} {s' : Slot α} {made : Nat}
      (unused : s.made ≤ made) (piece : operation.apply { s with made } = (s', did)) :
      Performs s operation did s'
  | givesUp {f : α → α} : Performs s (.tryUpdate f) ⟨s.held, s.held, false⟩ s

/-- What a thread can ask of a slot. -/
inductive Request (α : Type) where
  | get
  | load
  | set (value : α)
  | storeHandle (handle : Handle α)
  | swapHandle (handle : Handle α)
  | getAndSet (value : α)
  | compareAndSet (expected value : α)
  | compareAndSetHandle (expected new : Handle α)
  | update (f : α → α)
  | tryUpdate (f : α → α)

/-- What a slot answers. -/
inductive Answer (α : Type) where
  | done
  | value (v : α)
  | handle (handle : Handle α)
  | truth (answer : Bool)
  | fault (reason : Fault)
  deriving Repr

/-- The slot holds a new allocation with the given contents. -/
def Renewed (s : Slot α) (value : α) (s' : Slot α) : Prop :=
  s'.held.value = value ∧ s.made ≤ s'.held.id ∧ s'.held.id < s'.made

namespace Request

/-- The request in one piece: the slot that it finds, its answer, and the slot that it leaves. -/
def Performs [BEq α] (s : Slot α) (answer : Answer α) (s' : Slot α) : Request α → Prop
  | get => answer = .value s.held.value ∧ s'.held = s.held
  | load => answer = .handle s.held ∧ s'.held = s.held
  | set value => answer = .done ∧ Renewed s value s'
  | storeHandle handle => answer = .done ∧ s'.held = handle
  | swapHandle handle => answer = .handle s.held ∧ s'.held = handle
  | getAndSet value => answer = .value s.held.value ∧ Renewed s value s'
  | compareAndSet expected value =>
    if s.held.value == expected then answer = .truth true ∧ Renewed s value s'
    else answer = .truth false ∧ s'.held = s.held
  | compareAndSetHandle expected new =>
    if s.held.id = expected.id then answer = .truth true ∧ s'.held = new
    else answer = .truth false ∧ s'.held = s.held
  | update f => answer = .value (f s.held.value) ∧ Renewed s (f s.held.value) s'
  | tryUpdate f =>
    answer = .value (f s.held.value) ∧ Renewed s (f s.held.value) s' ∨
      answer = .fault .concurrentUpdate ∧ s'.held = s.held

/-- The program that serves a request. -/
def program [BEq α] : Request α → Action α (Answer α)
  | get => .value <$> Slot.get
  | load => .handle <$> Slot.load
  | set value => (fun _ => .done) <$> Slot.set value
  | storeHandle handle => (fun _ => .done) <$> Slot.storeHandle handle
  | swapHandle handle => .handle <$> Slot.swapHandle handle
  | getAndSet value => .value <$> Slot.getAndSet value
  | compareAndSet expected value => .truth <$> Slot.compareAndSet expected value
  | compareAndSetHandle expected new => .truth <$> Slot.compareAndSetHandle expected new
  | update f => .value <$> Slot.update f
  | tryUpdate f =>
    (fun result => match result with | .ok v => .value v | .error reason => .fault reason) <$>
      Slot.tryUpdate f

/-- The operation that serves a request. -/
def operation [BEq α] : Request α → Operation α
  | get | load => .once .load
  | set value => .put value
  | storeHandle handle => .once (.store handle)
  | swapHandle handle => .once (.swap handle)
  | getAndSet value => .replace value
  | compareAndSet expected value => .putIf (· == expected) value
  | compareAndSetHandle expected new => .once (.exchange expected new)
  | update f => .update f
  | tryUpdate f => .tryUpdate f

/-- The answer that a request reads off what its operation did. -/
def answer (did : Transition (Handle α)) : Request α → Answer α
  | get | getAndSet _ => .value did.seen.value
  | load | swapHandle _ => .handle did.seen
  | set _ | storeHandle _ => .done
  | compareAndSet _ _ | compareAndSetHandle _ _ => .truth did.accepted
  | update _ => .value did.left.value
  | tryUpdate _ => if did.accepted then .value did.left.value else .fault .concurrentUpdate

variable [BEq α]

/-- A request makes one call and answers with what this call did. -/
theorem program_eq (request : Request α) :
    request.program = .call request.operation fun did => .done (request.answer did) := by
  cases request with
  | tryUpdate f =>
    show Program.call _ _ = _
    congr 1
    funext did
    cases did with
    | mk seen left accepted => cases accepted <;> rfl
  | _ => rfl

/-- What is said of a request holds of the operation that serves it. -/
theorem performs_of_operation {request : Request α} {s s' : Slot α}
    {did : Transition (Handle α)} (performs : request.operation.Performs s did s') :
    request.Performs s (request.answer did) s' := by
  cases request with
  | get | load | storeHandle handle | swapHandle handle =>
    cases performs with
    | applies unused piece =>
      cases piece
      exact ⟨rfl, rfl⟩
  | set value | getAndSet value | update f =>
    cases performs with
    | applies unused piece =>
      cases piece
      exact ⟨rfl, rfl, unused, Nat.lt_succ_self _⟩
  | tryUpdate f =>
    cases performs with
    | applies unused piece =>
      cases piece
      exact Or.inl ⟨rfl, rfl, unused, Nat.lt_succ_self _⟩
    | givesUp => exact Or.inr ⟨rfl, rfl⟩
  | compareAndSet expected value =>
    cases performs with
    | applies unused piece =>
      by_cases same : s.held.value == expected <;>
        simp [operation, Operation.apply, same] at piece <;>
        obtain ⟨rfl, rfl⟩ := piece <;>
        simp [Performs, answer, same, Renewed, allocate, Access.apply, unused]
  | compareAndSetHandle expected new =>
    cases performs with
    | applies unused piece =>
      cases piece
      by_cases same : s.held.id = expected.id <;>
        simp [Performs, answer, Access.apply, beq_handle, same]

end Request

/-! ## Accesses -/

/-- The operation looks at the contents before it writes. -/
def Operation.IsConditional : Operation α → Prop
  | putIf _ _ | update _ | tryUpdate _ => True
  | _ => False

/-- The contents that the operation is going to install after it has read an allocation. -/
def Operation.Installs (seen : Handle α) (value : α) : Operation α → Prop
  | putIf test new => test seen.value ∧ value = new
  | update f | tryUpdate f => value = f seen.value
  | _ => False

/-- Contents that are going to be installed are those that the operation in one piece installs. -/
theorem Operation.Installs.apply_eq {s : Slot α} {value : α} {operation : Operation α}
    (installs : operation.Installs s.held value) :
    operation.apply s =
      ({ held := ⟨s.made, value⟩, made := s.made + 1 }, ⟨s.held, ⟨s.made, value⟩, true⟩) := by
  cases operation with
  | putIf test new =>
    obtain ⟨passed, rfl⟩ := installs
    simp [apply, passed, allocate, access, Access.apply]
  | update f | tryUpdate f =>
    cases installs
    rfl
  | _ => exact installs.elim

namespace Stage

/-- The operation that a stage belongs to. -/
def operation : Stage α → Operation α
  | single access => .once access
  | putting value => .put value
  | replacing value => .replace value
  | reading plan | installing plan _ _ => plan

/-- What an operation in progress has settled so far. -/
def Valid : Stage α → Prop
  | reading plan => plan.IsConditional
  | installing plan seen value => plan.Installs seen value
  | _ => True

theorem operation_ofOperation (operation : Operation α) :
    (ofOperation operation).operation = operation := by
  cases operation <;> rfl

theorem valid_ofOperation (operation : Operation α) : (ofOperation operation).Valid := by
  cases operation <;> trivial

/-- The reply tells that an exchange was lost. -/
def GivesUp (reply : Transition (Handle α)) : Stage α → Bool
  | installing _ _ _ => !reply.accepted
  | _ => false

/-- What one access may do: the whole operation in one piece, or a part of it that leaves the held
allocation alone. An exchange is lost if the slot holds another allocation than the one read. -/
inductive Moves (s : Slot α) :
    Stage α → Slot α → Progress (Stage α) (Transition (Handle α)) → Prop where
  | decides {stage : Stage α} {s' : Slot α} {did : Transition (Handle α)}
      (piece : stage.operation.apply s = (s', did)) (kept : stage.GivesUp did = false) :
      Moves s stage s' (.finished did)
  | reads {plan : Operation α} {value : α} (installs : plan.Installs s.held value) :
      Moves s (.reading plan) s (.ongoing (.installing plan s.held value))
  | retries {plan : Operation α} {seen : Handle α} {value : α} (other : s.held.id ≠ seen.id)
      (conditional : plan.IsConditional) :
      Moves s (.installing plan seen value) { s with made := s.made + 1 } (.ongoing (.reading plan))
  | givesUp {f : α → α} {seen : Handle α} {value : α} (other : s.held.id ≠ seen.id) :
      Moves s (.installing (.tryUpdate f) seen value) { s with made := s.made + 1 }
        (.finished ⟨seen, seen, false⟩)

/-- Handles that refer to the same allocation are taken to be equal here. -/
theorem advance_moves {stage : Stage α} {s : Slot α} (valid : stage.Valid)
    (identity : ∀ plan seen value, stage = .installing plan seen value → s.held.id = seen.id →
      s.held = seen) :
    stage.Moves s (stage.advance s).1 (stage.advance s).2 := by
  cases stage with
  | single a => exact .decides rfl rfl
  | putting value => exact .decides rfl rfl
  | replacing value => exact .decides rfl rfl
  | reading plan =>
    cases plan with
    | putIf test value =>
      by_cases passed : test s.held.value
      · simp only [advance, decide, passed, if_true]
        exact .reads ⟨passed, rfl⟩
      · simp only [advance, decide, passed, Bool.false_eq_true, if_false]
        exact .decides (by simp [operation, Operation.apply, passed]) rfl
    | update f => exact .reads rfl
    | tryUpdate f => exact .reads rfl
    | once | put | replace => exact valid.elim
  | installing plan seen value =>
    have installs : plan.Installs seen value := valid
    by_cases same : s.held.id = seen.id
    · have found := identity plan seen value rfl same
      subst found
      simp only [advance, allocate, access, Access.apply, beq_handle, decide_true, if_true]
      exact .decides installs.apply_eq rfl
    · simp only [advance, allocate, access, Access.apply, beq_handle, same, decide_false,
        Bool.false_eq_true, if_false]
      cases plan with
      | putIf test new => exact .retries same trivial
      | update f => exact .retries same trivial
      | tryUpdate f => exact .givesUp same
      | once | put | replace => exact installs.elim

/-- The allocation that an exchange expects. -/
def seen? : Stage α → Option (Handle α)
  | installing _ seen _ => some seen
  | _ => none

end Stage

/-! ## Allocations -/

/-- The handle that an operation brings along and that it may leave in the slot. -/
def Operation.brought? : Operation α → Option (Handle α)
  | once (.store handle) | once (.swap handle) | once (.exchange _ handle) => some handle
  | _ => none

/-- An operation leaves the held allocation, or it puts the one that it has brought or a new one in
its place. -/
theorem Operation.held_apply (operation : Operation α) (s : Slot α) :
    s.made ≤ (operation.apply s).1.made ∧
      ((operation.apply s).1.held = s.held ∨
        operation.brought? = some (operation.apply s).1.held ∨
        (operation.apply s).1.held.id = s.made ∧ (operation.apply s).1.made = s.made + 1) := by
  cases operation with
  | once a =>
    refine ⟨Nat.le_refl _, ?_⟩
    cases a with
    | load => exact Or.inl rfl
    | store handle | swap handle => exact Or.inr (Or.inl rfl)
    | exchange expected new =>
      by_cases same : s.held.id = expected.id
      · exact Or.inr (Or.inl (by simp [brought?, apply, access, Access.apply, beq_handle, same]))
      · exact Or.inl (by simp [apply, access, Access.apply, beq_handle, same])
  | put value | replace value => exact ⟨Nat.le_succ _, Or.inr (Or.inr ⟨rfl, rfl⟩)⟩
  | update f | tryUpdate f => exact ⟨Nat.le_succ _, Or.inr (Or.inr ⟨rfl, rfl⟩)⟩
  | putIf test value =>
    by_cases passed : test s.held.value <;>
      simp [apply, allocate, access, Access.apply, passed]

namespace Stage

variable {s s' : Slot α} {stage next : Stage α}
  {progress : Progress (Stage α) (Transition (Handle α))}

/-- An access changes the held allocation as an operation does. -/
theorem Moves.held (moves : stage.Moves s s' progress) :
    s.made ≤ s'.made ∧ (s'.held = s.held ∨ stage.operation.brought? = some s'.held ∨
      s'.held.id = s.made ∧ s'.made = s.made + 1) := by
  cases moves with
  | decides piece kept => simpa [piece] using stage.operation.held_apply s
  | reads installs => exact ⟨Nat.le_refl _, Or.inl rfl⟩
  | retries other conditional => exact ⟨Nat.le_succ _, Or.inl rfl⟩
  | givesUp other => exact ⟨Nat.le_succ _, Or.inl rfl⟩

/-- An operation that goes on remembers no allocation but the one that it has just read. -/
theorem Moves.ongoing (moves : stage.Moves s s' (.ongoing next)) :
    next.Valid ∧ ∀ handle, next.seen? = some handle → handle = s.held := by
  cases moves with
  | reads installs => exact ⟨installs, fun handle seen => (Option.some.inj seen).symm⟩
  | retries other conditional => exact ⟨conditional, fun handle seen => by cases seen⟩

end Stage

/-- The handle refers to one of the allocations made so far, whose contents are given. -/
def Refers (contents : Nat → α) (made : Nat) (handle : Handle α) : Prop :=
  handle.id < made ∧ handle.value = contents handle.id

/-- Handles that refer to the same allocation are equal. -/
theorem Refers.eq {contents : Nat → α} {made : Nat} {first second : Handle α}
    (left : Refers contents made first) (right : Refers contents made second)
    (same : first.id = second.id) : first = second := by
  cases first
  cases second
  simp_all [Refers]

/-- More allocations do not change what a handle refers to. -/
theorem Refers.mono {contents contents' : Nat → α} {made made' : Nat} {handle : Handle α}
    (refers : Refers contents made handle) (more : made ≤ made')
    (kept : ∀ id < made, contents' id = contents id) : Refers contents' made' handle :=
  ⟨Nat.lt_of_lt_of_le refers.1 more, refers.2.trans (kept handle.id refers.1).symm⟩

/-- Threads bring along only handles of allocations that were made before the run, and handles that
an access before has found in the slot. -/
def Genuine (contents : Nat → α) (made : Nat) : List (Turn (shared α)) → Prop
  | [] => True
  | a :: older =>
    (∀ handle ∈ a.stage.operation.brought?,
      Refers contents made handle ∨ ∃ b ∈ older, handle = b.before.held) ∧
    Genuine contents made older

instance [DecidableEq α] : DecidableEq (Handle α) := fun a b =>
  decidable_of_iff (a.id = b.id ∧ a.value = b.value) (by cases a; cases b; simp)

instance [DecidableEq α] (contents : Nat → α) (made : Nat) (handle : Handle α) :
    Decidable (Refers contents made handle) :=
  inferInstanceAs (Decidable (_ ∧ _))

instance Genuine.decidable [DecidableEq α] (contents : Nat → α) (made : Nat) :
    ∀ trace, Decidable (Genuine contents made trace)
  | [] => isTrue trivial
  | _ :: older =>
    have := Genuine.decidable contents made older
    inferInstanceAs (Decidable (_ ∧ _))

/-- All handles around refer to allocations, and every access is one that the operations make of
such handles. -/
structure Sound (contents current : Nat → α) (made : Nat) (s : Slot α)
    (stages : Nat → Option (Stage α)) (trace : List (Turn (shared α))) : Prop where
  more : made ≤ s.made
  kept : ∀ id < made, current id = contents id
  held : Refers current s.made s.held
  valid : ∀ {t stage}, stages t = some stage → stage.Valid
  seen : ∀ {t stage handle}, stages t = some stage → stage.seen? = some handle →
    Refers current s.made handle
  found : ∀ a ∈ trace, Refers current s.made a.before.held
  moves : ∀ a ∈ trace, a.stage.Moves a.before a.after a.progress

namespace Sound

variable {contents current : Nat → α} {made : Nat} {s : Slot α}
  {stages : Nat → Option (Stage α)} {trace : List (Turn (shared α))}

/-- An operation begins without having read anything. -/
theorem enters (sound : Sound contents current made s stages trace) (t : Nat)
    (operation : Operation α) :
    Sound contents current made s
      (Function.update stages t (some (Stage.ofOperation operation))) trace := by
  refine { sound with valid := ?_, seen := ?_ }
  · intro r stage busy
    rcases stage_of_update busy with begins | remains
    · exact Option.some.inj begins ▸ Stage.valid_ofOperation operation
    · exact sound.valid remains
  · intro r stage handle busy seen
    rcases stage_of_update busy with begins | remains
    · cases begins
      cases operation <;> cases seen
    · exact sound.seen remains seen

/-- The allocation that the slot holds after an access, and the contents of all allocations. -/
theorem held_after {a : Turn (shared α)} (sound : Sound contents current made a.before stages trace)
    (moves : a.stage.Moves a.before a.after a.progress)
    (genuine : ∀ handle ∈ a.stage.operation.brought?,
      Refers contents made handle ∨ ∃ b ∈ trace, handle = b.before.held) :
    ∃ current' : Nat → α, (∀ id < a.before.made, current' id = current id) ∧
      Refers current' a.after.made a.after.held := by
  obtain ⟨more, same | brought | ⟨new, last⟩⟩ := moves.held
  · exact ⟨current, fun _ _ => rfl, same ▸ sound.held.mono more fun _ _ => rfl⟩
  · refine ⟨current, fun _ _ => rfl, ?_⟩
    rcases genuine _ brought with refers | ⟨b, member, found⟩
    · exact refers.mono (Nat.le_trans sound.more more) sound.kept
    · rw [found]
      exact (sound.found b member).mono more fun _ _ => rfl
  · refine ⟨Function.update current a.before.made a.after.held.value, ?_, ?_⟩
    · intro id earlier
      exact Function.update_of_ne (Nat.ne_of_lt earlier) _ _
    · refine ⟨?_, ?_⟩
      · omega
      · rw [new, Function.update_self]

/-- An access that is taken is one that the operations make. -/
theorem moves_of_taken {a : Turn (shared α)}
    (sound : Sound contents current made a.before stages trace)
    (busy : stages a.thread = some a.stage) (taken : a.Taken) :
    a.stage.Moves a.before a.after a.progress := by
  have granted : a.stage.advance a.before = (a.after, a.progress) := Option.some.inj taken
  have advanced := Stage.advance_moves (sound.valid busy) (s := a.before) (by
    intro plan seen value installing same
    refine sound.held.eq (sound.seen busy ?_) same
    rw [installing]
    rfl)
  rwa [granted] at advanced

theorem takes {a : Turn (shared α)} (sound : Sound contents current made a.before stages trace)
    (busy : stages a.thread = some a.stage) (taken : a.Taken)
    (genuine : ∀ handle ∈ a.stage.operation.brought?,
      Refers contents made handle ∨ ∃ b ∈ trace, handle = b.before.held) :
    ∃ current', Sound contents current' made a.after
      (Function.update stages a.thread a.progress.stage?) (a :: trace) := by
  have moves := sound.moves_of_taken busy taken
  obtain ⟨current', kept, held⟩ := sound.held_after moves genuine
  have more : a.before.made ≤ a.after.made := moves.held.1
  have remains : ∀ {handle}, Refers current a.before.made handle →
      Refers current' a.after.made handle := fun refers => refers.mono more kept
  have goes_on_moves : ∀ {next}, a.progress.stage? = some next →
      next.Valid ∧ ∀ handle, next.seen? = some handle → handle = a.before.held := by
    intro next goes_on
    rw [Progress.eq_ongoing goes_on] at moves
    exact moves.ongoing
  refine ⟨current', ?_⟩
  exact
    { more := Nat.le_trans sound.more more
      kept := fun id earlier =>
        (kept id (Nat.lt_of_lt_of_le earlier sound.more)).trans (sound.kept id earlier)
      held
      valid := by
        intro t stage later
        rcases stage_of_update later with goes_on | before
        · exact (goes_on_moves goes_on).1
        · exact sound.valid before
      seen := by
        intro t stage handle later seen
        rcases stage_of_update later with goes_on | before
        · rw [(goes_on_moves goes_on).2 handle seen]
          exact remains sound.held
        · exact remains (sound.seen before seen)
      found := by
        intro b member
        rcases List.mem_cons.mp member with rfl | member
        · exact remains sound.held
        · exact remains (sound.found b member)
      moves := by
        intro b member
        rcases List.mem_cons.mp member with rfl | member
        · exact moves
        · exact sound.moves b member }

end Sound

/-- In a run whose handles are genuine, all handles refer to allocations. -/
theorem sound_of_run {β : Type} {allowed : Nat → Action α β → Prop} {start : Slot α}
    {u : System (shared α) β} {trace : List (Turn (shared α))} {contents : Nat → α}
    (run : System.Run (O := shared α) allowed { state := start } u trace)
    (held : Refers contents start.made start.held) (genuine : Genuine contents start.made trace) :
    ∃ current, Sound contents current start.made u.state u.stage? trace := by
  revert genuine
  refine run.stages_induction (M := fun _ => True)
    (I := fun s stages trace => Genuine contents start.made trace →
      ∃ current, Sound contents current start.made s stages trace)
    (System.stage?_start start) (fun _ _ _ => trivial) ?_ ?_ ?_ ?_
  · intro _
    refine ⟨contents, Nat.le_refl _, fun _ _ => rfl, held, ?_, ?_, ?_, ?_⟩
    · intro t stage busy
      cases busy
    · intro t stage handle busy
      cases busy
    · intro a member
      cases member
    · intro a member
      cases member
  · intro s stages trace t operation ih _ _ genuine
    obtain ⟨current, sound⟩ := ih genuine
    exact ⟨current, sound.enters t operation⟩
  · intro stages trace a ih busy _ taken genuine
    obtain ⟨current, sound⟩ := ih genuine.2
    exact sound.takes busy taken genuine.1
  · exact fun _ ih => ih

/-! ## The order of the operations -/

/-- An operation that has ended: the access with which it took effect, and the one that ended it. -/
structure Decision (α : Type) where
  access : Turn (shared α)
  ending : Turn (shared α)

/-- The operations that have ended, in the order in which they took effect. An update that gives up
took effect with the access of its thread before. `lost` holds the ends of such updates of which
this access comes next, looking back. -/
def order (lost : Nat → Option (Turn (shared α))) : List (Turn (shared α)) → List (Decision α)
  | [] => []
  | a :: older =>
    match a.progress, lost a.thread with
    | .finished reply, _ =>
      if a.stage.GivesUp reply then order (Function.update lost a.thread (some a)) older
      else order lost older ++ [⟨a, a⟩]
    | .ongoing _, some ending =>
      order (Function.update lost a.thread none) older ++ [⟨a, ending⟩]
    | .ongoing _, none => order lost older

/-- The operations that have ended in a run, in the order in which they took effect. -/
def linearization (trace : List (Turn (shared α))) : List (Decision α) :=
  order (fun _ => none) trace

/-- The accesses with which the operations of a thread have ended, in order. -/
def endings (t : Nat) (trace : List (Turn (shared α))) : List (Turn (shared α)) :=
  trace.reverse.filter fun a => a.thread = t && a.ends

/-- The access ends an update that has found another allocation than the one it has read. -/
def GaveUp (f : α → α) (seen : Handle α) (value : α) (a : Turn (shared α)) : Prop :=
  a.stage = .installing (.tryUpdate f) seen value ∧ a.before.held.id ≠ seen.id ∧
    a.progress = .finished ⟨seen, seen, false⟩

namespace Decision

/-- What the operation does with the slot where it takes effect, with the reply that it ends
with. -/
def Does (s : Slot α) (d : Decision α) (s' : Slot α) : Prop :=
  ∃ reply, d.ending.progress = .finished reply ∧ d.ending.stage.operation.Performs s reply s'

/-- The operation takes effect with its last access, or it is an update that takes effect with its
read and then gives up. -/
def Placed (d : Decision α) : Prop :=
  d.access = d.ending ∧ (∃ reply, d.ending.progress = .finished reply ∧
      d.ending.stage.GivesUp reply = false) ∨
    ∃ f value, d.access.thread = d.ending.thread ∧ d.access.stage = .reading (.tryUpdate f) ∧
      d.access.progress = .ongoing (.installing (.tryUpdate f) d.access.before.held value) ∧
      GaveUp f d.access.before.held value d.ending

end Decision

theorem endings_cons (t : Nat) (a : Turn (shared α)) (older : List (Turn (shared α))) :
    endings t (a :: older) =
      endings t older ++ if a.thread = t ∧ a.ends then [a] else [] := by
  by_cases ends : a.thread = t ∧ a.ends <;> simp [endings, List.filter_append, ends]

/-- The accesses at which threads are about to lose an exchange, by the thread. -/
def Pending (stages : Nat → Option (Stage α)) (lost : Nat → Option (Turn (shared α))) : Prop :=
  ∀ t ending, lost t = some ending → ending.thread = t ∧
    ∃ f seen value, stages t = some (.installing (.tryUpdate f) seen value) ∧
      GaveUp f seen value ending

/-- What decisions account for: they are a sequential run to the slot as it is, they come in the
order of their accesses, and each thread finds its operations with the endings they had, the one
that it is about to lose included. -/
structure Accounts (start s : Slot α) (trace : List (Turn (shared α)))
    (lost : Nat → Option (Turn (shared α))) (decisions : List (Decision α)) : Prop where
  serial : ∃ final, Serial Decision.Does start decisions final ∧ final.held = s.held ∧
    final.made ≤ s.made
  inOrder : (decisions.map Decision.access).Sublist trace.reverse
  answered : ∀ t, (decisions.map Decision.ending).filter (·.thread = t) =
    endings t trace ++ (lost t).toList
  placed : ∀ d ∈ decisions, d.Placed

namespace Accounts

variable {start s s' : Slot α} {trace : List (Turn (shared α))} {a : Turn (shared α)}
  {lost lost' : Nat → Option (Turn (shared α))} {decisions : List (Decision α)}

theorem of_start (none_lost : ∀ t, lost t = none) : Accounts s s [] lost [] := by
  refine ⟨⟨s, rfl, rfl, Nat.le_refl _⟩, List.Sublist.refl _, ?_, ?_⟩
  · intro t
    simp [endings, none_lost]
  · intro d member
    cases member

/-- An access that decides nothing. -/
theorem skip (accounts : Accounts start a.before trace lost decisions)
    (same : a.after.held = a.before.held) (more : a.before.made ≤ a.after.made)
    (answers : ∀ t, endings t (a :: trace) ++ (lost' t).toList =
      endings t trace ++ (lost t).toList) :
    Accounts start a.after (a :: trace) lost' decisions := by
  obtain ⟨⟨final, serial, held, made⟩, inOrder, answered, placed⟩ := accounts
  refine ⟨⟨final, serial, held.trans same.symm, Nat.le_trans made more⟩, ?_, ?_, placed⟩
  · rw [List.reverse_cons]
    exact inOrder.trans (List.sublist_append_left _ _)
  · intro t
    rw [answered t, answers t]

/-- An access with which an operation takes effect. -/
theorem concat {ending : Turn (shared α)} (accounts : Accounts start a.before trace lost decisions)
    (does : ∀ final : Slot α, final.held = a.before.held → final.made ≤ a.before.made →
      ∃ next, Decision.Does final ⟨a, ending⟩ next ∧ next.held = a.after.held ∧
        next.made ≤ a.after.made)
    (placed : Decision.Placed ⟨a, ending⟩)
    (answers : ∀ t, endings t (a :: trace) ++ (lost' t).toList =
      endings t trace ++ (lost t).toList ++ if ending.thread = t then [ending] else []) :
    Accounts start a.after (a :: trace) lost' (decisions ++ [⟨a, ending⟩]) := by
  obtain ⟨⟨final, serial, held, made⟩, inOrder, answered, placed_before⟩ := accounts
  obtain ⟨next, does, held_next, made_next⟩ := does final held made
  refine ⟨⟨next, serial.concat does, held_next, made_next⟩, ?_, ?_, ?_⟩
  · rw [List.reverse_cons, List.map_append]
    exact inOrder.append (List.Sublist.refl _)
  · intro t
    rw [answers t, ← answered t, List.map_append, List.filter_append]
    congr 1
    by_cases same : ending.thread = t <;> simp [same]
  · intro d member
    rcases List.mem_append.mp member with member | member
    · exact placed_before d member
    · rw [List.mem_singleton.mp member]
      exact placed

variable {stages : Nat → Option (Stage α)}

/-- A thread that is about to lose no exchange may be at any stage. -/
theorem pending_of_update {t : Nat} {stage? : Option (Stage α)}
    (pending : Pending (Function.update stages t stage?) lost) (none_lost : lost' t = none)
    (others : ∀ r, r ≠ t → lost' r = lost r) : Pending stages lost' := by
  intro r ending losing
  have other : r ≠ t := by
    rintro rfl
    rw [none_lost] at losing
    cases losing
  have remains := pending r ending ((others r other).symm.trans losing)
  rwa [Function.update_of_ne other] at remains

/-- A thread that is not about to exchange is about to lose no exchange. -/
theorem none_of_pending {t : Nat} {stage? : Option (Stage α)}
    (pending : Pending (Function.update stages t stage?) lost)
    (harmless : ∀ f seen value, stage? ≠ some (.installing (.tryUpdate f) seen value)) :
    lost t = none := by
  cases losing : lost t with
  | none => rfl
  | some ending =>
    obtain ⟨-, f, seen, value, stage, -⟩ := pending t ending losing
    rw [Function.update_self] at stage
    exact absurd stage (harmless f seen value)

/-- What one access adds to the order of the operations. -/
theorem takes (moves : a.stage.Moves a.before a.after a.progress)
    (busy : stages a.thread = some a.stage)
    (accounts : ∀ lost, Pending stages lost →
      Accounts start a.before trace lost (order lost trace))
    (pending : Pending (Function.update stages a.thread a.progress.stage?) lost) :
    Accounts start a.after (a :: trace) lost (order lost (a :: trace)) := by
  obtain ⟨thread, chance, before, stage, after, progress⟩ := a
  replace moves : stage.Moves before after progress := moves
  cases moves with
  | decides piece kept =>
    have none_lost := none_of_pending pending (by intro f seen value same; cases same)
    replace pending := pending_of_update pending none_lost fun _ _ => rfl
    simp only [order, kept]
    refine (accounts lost pending).concat ?_ (Or.inl ⟨rfl, _, rfl, kept⟩) ?_
    · intro final held made
      have same : ({ final with made := before.made } : Slot α) = before := by rw [held]
      exact ⟨after, ⟨_, rfl, .applies made (same ▸ piece)⟩, rfl, Nat.le_refl _⟩
    · intro t
      by_cases same : thread = t
      · subst same
        simp [endings_cons, Turn.ends, Progress.stage?, none_lost]
      · simp [endings_cons, same]
  | retries other conditional =>
    have none_lost := none_of_pending pending (by intro f seen value same; cases same)
    replace pending := pending_of_update pending none_lost fun _ _ => rfl
    simp only [order, none_lost]
    refine (accounts lost pending).skip rfl (Nat.le_succ _) ?_
    intro t
    simp [endings_cons, Turn.ends, Progress.stage?]
  | @givesUp f seen value other =>
    have none_lost := none_of_pending pending (by intro f seen value same; cases same)
    replace pending := pending_of_update pending none_lost fun _ _ => rfl
    simp only [order, Stage.GivesUp, Bool.not_false, if_true]
    refine (accounts _ ?_).skip rfl (Nat.le_succ _) ?_
    · intro t ending losing
      by_cases same : t = thread
      · subst same
        rw [Function.update_self] at losing
        cases losing
        exact ⟨rfl, f, seen, value, busy, rfl, other, rfl⟩
      · rw [Function.update_of_ne same] at losing
        exact pending t ending losing
    · intro t
      by_cases same : t = thread
      · subst same
        simp [endings_cons, Turn.ends, Progress.stage?, none_lost]
      · simp [endings_cons, Ne.symm same, Function.update_of_ne same]
  | @reads plan value installs =>
    cases losing : lost thread with
    | none =>
      simp only [order, losing]
      replace pending := pending_of_update pending losing fun _ _ => rfl
      refine (accounts lost pending).skip rfl (Nat.le_refl _) ?_
      intro t
      simp [endings_cons, Turn.ends, Progress.stage?]
    | some ending =>
      obtain ⟨thread_eq, f, seen, value, stage, gaveUp⟩ := pending thread ending losing
      rw [Function.update_self] at stage
      cases stage
      replace pending : Pending stages (Function.update lost thread none) :=
        pending_of_update pending (Function.update_self ..)
          fun _ other => Function.update_of_ne other ..
      simp only [order, losing]
      refine (accounts _ pending).concat ?_ (Or.inr ⟨f, value, thread_eq.symm, rfl, rfl, gaveUp⟩) ?_
      · intro final held made
        obtain ⟨stage_eq, -, progress_eq⟩ := gaveUp
        refine ⟨final, ⟨_, progress_eq, ?_⟩, held, made⟩
        rw [stage_eq, ← show final.held = before.held from held]
        exact .givesUp
      · intro t
        by_cases same : t = thread
        · subst same
          simp [endings_cons, Turn.ends, Progress.stage?, losing, thread_eq]
        · have other : ending.thread ≠ t := fun equal => same (equal.symm.trans thread_eq)
          simp [endings_cons, Turn.ends, Progress.stage?, Function.update_of_ne same, other]

end Accounts

/-- In a run whose accesses are those of operations, the order of the operations is a sequential
run. -/
theorem accounts_of_run {β : Type} {allowed : Nat → Action α β → Prop} {start : Slot α}
    {u : System (shared α) β} {trace : List (Turn (shared α))}
    (run : System.Run (O := shared α) allowed { state := start } u trace)
    (moves : ∀ a ∈ trace, a.stage.Moves a.before a.after a.progress) :
    Accounts start u.state trace (fun _ => none) (linearization trace) := by
  have every : ∀ lost, Pending u.stage? lost →
      Accounts start u.state trace lost (order lost trace) := by
    revert moves
    refine run.stages_induction (M := fun _ => True)
      (I := fun s stages (trace : List (Turn (shared α))) =>
        (∀ a ∈ trace, a.stage.Moves a.before a.after a.progress) →
        ∀ lost, Pending stages lost → Accounts start s trace lost (order lost trace))
      (System.stage?_start start) (fun _ _ _ => trivial) ?_ ?_ ?_ ?_
    · intro _ lost pending
      have none_lost : ∀ t, lost t = none := by
        intro t
        cases losing : lost t with
        | none => rfl
        | some ending =>
          obtain ⟨-, f, seen, value, stage, -⟩ := pending t ending losing
          cases stage
      exact .of_start none_lost
    · intro s stages trace t operation ih _ _ moves lost pending
      have none_lost : lost t = none := by
        refine Accounts.none_of_pending pending ?_
        intro f seen value
        cases operation <;> nofun
      exact ih moves lost (Accounts.pending_of_update pending none_lost fun _ _ => rfl)
    · intro stages trace a ih busy _ _ moves lost pending
      have earlier : ∀ b ∈ trace, b.stage.Moves b.before b.after b.progress :=
        fun b member => moves b (List.mem_cons_of_mem a member)
      exact .takes (moves a (List.mem_cons_self ..)) busy (ih earlier) pending
    · exact fun _ ih => ih
  refine every _ ?_
  intro t ending losing
  cases losing

/-- Threads that share a slot find it as if one operation came after the other, in the order in
which they took effect: with the store, swap or exchange that they ended with, with the read that
they declined after, or, if they are updates that gave up, with their read. Every operation finds
the reply that it ended with, and the slot ends with the allocation that it holds. The answers of
requests are read off these replies. -/
theorem operations_linearize [BEq α] {β : Type} {allowed : Nat → Action α β → Prop}
    {start : Slot α} {u : System (shared α) β} {trace : List (Turn (shared α))}
    {contents : Nat → α} (run : System.Run (O := shared α) allowed { state := start } u trace)
    (held : Refers contents start.made start.held) (genuine : Genuine contents start.made trace) :
    (∃ final, Serial Decision.Does start (linearization trace) final ∧
      final.held = u.state.held) ∧
    ((linearization trace).map Decision.access).Sublist trace.reverse ∧
    (∀ t, ((linearization trace).map Decision.ending).filter (·.thread = t) = endings t trace) ∧
    (∀ d ∈ linearization trace, d.Placed) ∧
    ∀ request : Request α,
      request.program = .call request.operation (fun did => .done (request.answer did)) ∧
        ∀ {s did s'}, request.operation.Performs s did s' →
          request.Performs s (request.answer did) s' := by
  obtain ⟨current, sound⟩ := sound_of_run run held genuine
  obtain ⟨⟨final, serial, ends, -⟩, inOrder, answered, placed⟩ := accounts_of_run run sound.moves
  refine ⟨⟨final, serial, ends⟩, inOrder, ?_, placed, ?_⟩
  · intro t
    simpa using answered t
  · intro request
    exact ⟨request.program_eq, Request.performs_of_operation⟩

/-- A slot with the contents 7, and three threads. The last one stores the first allocation once
more, after it has stored another one. -/
def rivals : System (shared Nat) (Answer Nat) :=
  let s : System (shared Nat) (Answer Nat) := { state := Slot.new 7 }
  let s := (s.assign 0 (Request.update (· + 1)).program).1
  let s := (s.assign 1 (Request.tryUpdate (· * 2)).program).1
  (s.assign 2 do
    let first ← load
    set 9
    storeHandle first
    return .done).1

/-- The first two threads read the slot. The second one loses its exchange, while the other
allocation is there, and the first one wins it, when the first allocation is back. -/
def comeback : System (shared Nat) (Answer Nat) × List (Turn (shared Nat)) :=
  rivals.follow [] [(0, {}), (1, {}), (2, {}), (2, {}), (1, {}), (2, {}), (0, {})]

theorem operations_linearize_comeback :
    (linearization comeback.2).map (fun d => d.access.thread) = [1, 2, 2, 2, 0] ∧
      (comeback.2.reverse.filter Turn.ends).map Turn.thread = [2, 2, 1, 2, 0] ∧
      ∃ final, Serial Decision.Does (Slot.new 7) (linearization comeback.2) final ∧
        final.held = ⟨3, 8⟩ := by
  have begun : System.Run (O := shared Nat) (fun _ _ => True) { state := Slot.new 7 } rivals [] :=
    .assign 2 _ (.assign 1 _ (.assign 0 _ .start rfl trivial) rfl trivial) rfl trivial
  have genuine : Genuine (fun _ => 7) (Slot.new 7).made comeback.2 := by decide +kernel
  have linearizes := operations_linearize (begun.follow _) ⟨by decide, rfl⟩ genuine
  obtain ⟨final, serial, held⟩ := linearizes.1
  refine ⟨by decide +kernel, by decide +kernel, final, serial, held.trans ?_⟩
  decide +kernel

end Interlock.Slot

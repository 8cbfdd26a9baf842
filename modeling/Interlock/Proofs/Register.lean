import Interlock.Proofs.Run
import Interlock.Register.Basic
import Mathlib.Data.List.Forall2

/-!
# Operations on a register are indivisible

An operation on a register takes effect with its last access, the one that it is answered with: up
to then it leaves the value alone, and with this access it does what it does in one piece
(`Stage.advance_moves`). Hence programs that make one call each do what they do in one piece
(`Indivisible.does`), and the programs of any number of threads, in the order in which they end, are
a sequential run, in which each finds the value that the one before it has left
(`Indivisible.serial`).

`Serial` says that a list of events leads from one state to another.
-/

namespace Interlock

/-- Events that happen one after the other lead from a state to another one. -/
def Serial {σ ε : Type} (Does : σ → ε → σ → Prop) : σ → List ε → σ → Prop
  | s, [], s' => s = s'
  | s, event :: rest, s' => ∃ middle, Does s event middle ∧ Serial Does middle rest s'

namespace Serial

variable {σ ε κ : Type} {Does : σ → ε → σ → Prop} {Does' : σ → κ → σ → Prop} {s s' s'' : σ}
  {events : List ε} {event : ε}

theorem concat (serial : Serial Does s events s') (next : Does s' event s'') :
    Serial Does s (events ++ [event]) s'' := by
  induction events generalizing s with
  | nil =>
    cases serial
    exact ⟨s'', next, rfl⟩
  | cons first rest ih =>
    obtain ⟨middle, does, serial⟩ := serial
    exact ⟨middle, does, ih serial⟩

/-- Later events find what the earlier ones have left. -/
theorem of_append {later : List ε} (serial : Serial Does s (events ++ later) s'') :
    ∃ s', Serial Does s events s' ∧ Serial Does s' later s'' := by
  induction events generalizing s with
  | nil => exact ⟨s, rfl, serial⟩
  | cons first rest ih =>
    obtain ⟨middle, does, serial⟩ := serial
    obtain ⟨s', before, after⟩ := ih serial
    exact ⟨s', ⟨middle, does, before⟩, after⟩

/-- The last one of some events finds what the others have left. -/
theorem of_concat (serial : Serial Does s (events ++ [event]) s'') :
    ∃ s', Serial Does s events s' ∧ Does s' event s'' := by
  obtain ⟨s', before, _, last, rfl⟩ := serial.of_append
  exact ⟨s', before, last⟩

/-- The events of a sequential run may be told in another way, one by one. -/
theorem retold {Tells : ε → κ → Prop} {told : List κ} (serial : Serial Does s events s')
    (tells : List.Forall₂ Tells events told)
    (does : ∀ {s event tale s'}, Tells event tale → Does s event s' → Does' s tale s') :
    Serial Does' s told s' := by
  induction tells generalizing s with
  | nil => exact serial
  | cons first _ ih =>
    obtain ⟨middle, here, serial⟩ := serial
    exact ⟨middle, does first here, ih serial⟩

end Serial

namespace Register

variable {α : Type}

/-- The operation that a stage belongs to. -/
def Stage.operation : Stage α → Operation α
  | single access => .once access
  | reading f | trying f _ _ => .modify f

/-- The value that an exchange is about to write is the successor of the one it expects. -/
def Stage.Valid : Stage α → Prop
  | trying f seen next => f seen = some next
  | _ => True

theorem Stage.operation_ofOperation (operation : Operation α) :
    (ofOperation operation).operation = operation := by
  cases operation <;> rfl

theorem Stage.valid_ofOperation (operation : Operation α) : (ofOperation operation).Valid := by
  cases operation <;> trivial

/-- An operation that goes on after a read is about to exchange what was read. -/
theorem Stage.eq_trying_of_attempt {f : α → Option α} {seen : α} {stage : Stage α}
    (goes_on : attempt f seen = .ongoing stage) :
    ∃ next, f seen = some next ∧ stage = trying f seen next := by
  unfold attempt at goes_on
  cases result : f seen with
  | none => simp [result] at goes_on
  | some next =>
    simp only [result, Progress.ongoing.injEq] at goes_on
    exact ⟨next, rfl, goes_on.symm⟩

variable [BEq α]

/-- What one access does. The exchange of a loop writes and ends the loop, or is lost and reads. -/
inductive Stage.Accesses (spurious : Bool) (held : α) :
    Stage α → α → Progress (Stage α) (Transition α) → Prop where
  | single (access : Access α) :
    Accesses spurious held (single access) (access.apply held).left (.finished (access.apply held))
  | reads (f : α → Option α) : Accesses spurious held (reading f) held (attempt f held)
  | wins {f : α → Option α} {seen next : α} (found : (held == seen && !spurious) = true) :
    Accesses spurious held (trying f seen next) next (.finished ⟨held, next, true⟩)
  | loses {f : α → Option α} {seen next : α} (lost : (held == seen && !spurious) = false) :
    Accesses spurious held (trying f seen next) held (attempt f held)

theorem Stage.accesses_of_taken {a : Turn (shared α)} (taken : a.Taken) :
    a.stage.Accesses a.chance.spurious a.before a.after a.progress := by
  obtain ⟨t, chance, before, stage, after, progress⟩ := a
  have moved : stage.advance chance.spurious before = (after, progress) := Option.some.inj taken
  cases stage with
  | single access =>
    cases moved
    exact .single access
  | reading f =>
    cases moved
    exact .reads f
  | trying f seen next =>
    cases found : before == seen && !chance.spurious with
    | true =>
      obtain ⟨same, steady⟩ := Bool.and_eq_true_iff.mp found
      simp only [advance, Access.apply, same, steady, Bool.and_self, if_true] at moved
      cases moved
      exact .wins found
    | false =>
      have kept : (trying f seen next).advance chance.spurious before =
          (before, attempt f before) := by
        cases same : before == seen <;> simp_all [advance, Access.apply]
      rw [kept] at moved
      cases moved
      exact .loses found

/-- The access is an exchange that takes place. That of a loop may fail for no reason. -/
def exchanged (a : Turn (shared α)) : Bool :=
  match a.stage with
  | .single (.exchange expected _) => a.before == expected
  | .trying _ seen _ => a.before == seen && !a.chance.spurious
  | _ => false

/-- What one access of an operation may do: it leaves the value alone and the operation goes on, or
it does what the operation does in one piece and ends it. -/
inductive Stage.Moves (held : α) (stage : Stage α) :
    α → Progress (Stage α) (Transition α) → Prop where
  | waits {next : Stage α} (same : next.operation = stage.operation) (valid : next.Valid) :
    Moves held stage held (.ongoing next)
  | acts {did : Transition α} (piece : stage.operation.apply held = did) :
    Moves held stage did.left (.finished did)

/-- What follows the read of a value. -/
theorem Stage.moves_attempt {f : α → Option α} {held : α} {stage : Stage α}
    (here : stage.operation = .modify f) : stage.Moves held held (attempt f held) := by
  cases result : f held with
  | some next =>
    simp only [attempt, result]
    exact .waits here.symm result
  | none =>
    have declined : stage.operation.apply held = ⟨held, held, false⟩ := by
      simp only [here, Operation.apply, result]
    simp only [attempt, result]
    exact .acts declined

theorem Stage.advance_moves [LawfulBEq α] {stage : Stage α} (valid : stage.Valid) (spurious : Bool)
    (held : α) :
    stage.Moves held (stage.advance spurious held).1 (stage.advance spurious held).2 := by
  cases stage with
  | single access => exact .acts rfl
  | reading f => exact moves_attempt rfl
  | trying f seen next =>
    by_cases same : held = seen
    · subst same
      cases spurious with
      | false =>
        have applied : (trying f held next).operation.apply held = ⟨held, next, true⟩ := by
          have successor : f held = some next := valid
          simp only [operation, Operation.apply, successor]
        simpa [advance, Access.apply] using Moves.acts applied
      | true =>
        simp only [advance, Bool.not_true, Bool.and_false, Bool.false_eq_true, if_false]
        exact moves_attempt rfl
    · have refused : (held == seen) = false := by simpa using same
      simp only [advance, Access.apply, refused, Bool.false_eq_true, if_false, Bool.false_and]
      exact moves_attempt rfl

/-- A program that makes one call at most, and of which something is true whatever value the call
finds. `Does` relates this value, the result, and the value that the program leaves. -/
inductive Indivisible {β : Type} (Does : α → β → α → Prop) : Action α β → Prop where
  | done {result : β} (does : ∀ held, Does held result held) : Indivisible Does (.done result)
  | call {operation : Operation α} {result : Transition α → β}
      (does : ∀ held, Does held (result (operation.apply held)) (operation.apply held).left) :
      Indivisible Does (.call operation fun t => .done (result t))

namespace Indivisible

variable {β : Type} {Does : α → β → α → Prop} {allowed : Nat → Action α β → Prop}

/-- The result of an indivisible program may be put differently. -/
theorem map {γ : Type} {Puts : α → γ → α → Prop} {program : Action α β} {f : β → γ}
    (indivisible : Indivisible Does program)
    (put : ∀ {held result left}, Does held result left → Puts held (f result) left) :
    Indivisible Puts (f <$> program) := by
  cases indivisible with
  | done does => exact .done fun held => put (does held)
  | call does => exact .call fun held => put (does held)

/-- What a thread does in the middle of an indivisible program. -/
def Within (Does : α → β → α → Prop) : Activity (shared α) β → Prop
  | .idle => True
  | .busy stage next =>
    stage.Valid ∧ ∃ result : Transition α → β, (next = fun t => .done (result t)) ∧
      ∀ held, Does held (result (stage.operation.apply held)) (stage.operation.apply held).left

/-- A program begins with a call or is at its end. -/
theorem within_ofProgram {program : Action α β} (indivisible : Indivisible Does program) :
    Within Does (Activity.ofProgram (O := shared α) program).1 := by
  cases indivisible with
  | done => trivial
  | @call operation result does =>
    refine ⟨Stage.valid_ofOperation operation, result, rfl, ?_⟩
    intro held
    have same : (Stage.ofOperation operation).operation = operation :=
      Stage.operation_ofOperation operation
    show Does held (result ((Stage.ofOperation operation).operation.apply held)) _
    rw [same]
    exact does held

variable [LawfulBEq α] {u v : System (shared α) β} {t : Nat} {chance : Chance}
  {outcome : Option β} {initial : α} {results : List (Nat × β)}

/-- What one step may do: it leaves the value alone and the program goes on, or it does what the
program does in one piece and ends it. -/
theorem step_within (within : Within Does (u.threads.get t))
    (moves : u.step t chance = some (v, outcome)) :
    Within Does (v.threads.get t) ∧
      (outcome = none ∧ v.state = u.state ∨
        ∃ result, outcome = some result ∧ Does u.state result v.state) := by
  obtain ⟨⟨thread, chosen, before, stage, after, progress⟩, next, rfl, rfl, here, taken, busy, rfl,
    rfl⟩ := System.step_eq_some moves
  rw [busy] at within
  obtain ⟨valid, result, rfl, does⟩ := within
  have moved : stage.Moves before after progress := by
    have granted : stage.advance chosen.spurious before = (after, progress) := Option.some.inj taken
    simpa [granted] using Stage.advance_moves valid chosen.spurious before
  rw [here]
  cases moved with
  | @waits later same fits =>
    refine ⟨?_, Or.inl ⟨rfl, rfl⟩⟩
    have remains : Within Does (.busy later fun t => .done (result t)) := by
      refine ⟨fits, result, rfl, ?_⟩
      intro held
      rw [same]
      exact does held
    simpa [Activity.after] using remains
  | acts piece =>
    subst piece
    refine ⟨?_, Or.inr ⟨_, rfl, does before⟩⟩
    simp [Activity.after, Activity.ofProgram, Within]

/-- In the middle of a run, every thread is in the middle of an indivisible program. -/
theorem within_of_reaches (indivisible : ∀ t program, allowed t program → Indivisible Does program)
    (reached : System.Reaches (O := shared α) allowed { state := initial } u results) :
    ∀ t, Within Does (u.threads.get t) := by
  induction reached with
  | start =>
    intro t
    simp only [Table.get_empty]
    trivial
  | @assign u results t program _ free may ih =>
    intro r
    by_cases same : r = t
    · subst same
      simpa [System.assign] using within_ofProgram (indivisible r program may)
    · simpa [System.assign, Table.get_set_other _ _ same] using ih r
  | @step u v results result t chance _ moves ih =>
    intro r
    by_cases same : r = t
    · subst same
      exact (step_within (ih r) moves).1
    · obtain ⟨a, next, rfl, -, -, -, -, -, rfl⟩ := System.step_eq_some moves
      simpa [Table.get_set_other _ _ same] using ih r
  | elapse time _ ih => exact ih

/-- Every step of a run leaves the value alone, or it does what a program does and ends it. -/
theorem does (indivisible : ∀ t program, allowed t program → Indivisible Does program)
    (reached : System.Reaches (O := shared α) allowed { state := initial } u results)
    (moves : u.step t chance = some (v, outcome)) :
    outcome = none ∧ v.state = u.state ∨
      ∃ result, outcome = some result ∧ Does u.state result v.state :=
  (step_within (within_of_reaches indivisible reached t) moves).2

/-- The results of a run, in the order in which the programs have ended, are those of a sequential
run that ends with the same value. -/
theorem serial (indivisible : ∀ t program, allowed t program → Indivisible Does program)
    (reached : System.Reaches (O := shared α) allowed { state := initial } u results) :
    Serial Does initial (results.map Prod.snd) u.state := by
  induction reached with
  | start => rfl
  | @assign u results t program before free may ih =>
    cases indivisible t program may with
    | @done result does =>
      simpa [System.assign, Activity.ofProgram, System.tagged] using ih.concat (does u.state)
    | call does => simpa [System.assign, Activity.ofProgram, System.tagged] using ih
  | @step u v results outcome t chance before moves ih =>
    rcases Indivisible.does indivisible before moves with ⟨rfl, same⟩ | ⟨result, rfl, does⟩
    · rw [same]
      simpa [System.tagged] using ih
    · simpa [System.tagged] using ih.concat does
  | elapse time _ ih => exact ih

end Indivisible

end Register

end Interlock

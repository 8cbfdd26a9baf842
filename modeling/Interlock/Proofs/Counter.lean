import Interlock.Proofs.Register
import Interlock.Register.Counter
import Mathlib.Algebra.Group.Int.Defs

/-!
# Counters that threads share

What a counter does when nobody else touches it is said by `Request.Performs`, in terms of the
integers that the 64-bit values stand for: plain arithmetic ends at the nearest bound, checked
arithmetic is exact or refused, and nothing else changes the value.

A request makes one call at most (`Request.indivisible`), so threads that share a counter find it
as if one request came after the other (`requests_linearize`).
-/

namespace Interlock.Counter

open Register

/-- The integer that 64 bits can hold nearest to an integer. -/
def clamped (n : Int) : Int :=
  max (-2 ^ 63) (min n (2 ^ 63 - 1))

/-- 64 bits can hold the integer. -/
def Fits (n : Int) : Prop :=
  -2 ^ 63 ≤ n ∧ n < 2 ^ 63

instance (n : Int) : Decidable (Fits n) :=
  inferInstanceAs (Decidable (_ ∧ _))

/-- Plain arithmetic stops at the bounds. -/
theorem toInt_saturated (n : Int) : (saturated n).toInt = clamped n := by
  have least : Numeral.least = -2 ^ 63 := Int64.toInt_minValue
  have greatest : Numeral.greatest = 2 ^ 63 - 1 := Int64.toInt_maxValue
  unfold saturated clamped
  by_cases low : n < Numeral.least
  · rw [if_pos low, Int64.toInt_minValue]
    omega
  · by_cases high : Numeral.greatest < n
    · rw [if_neg low, if_pos high, Int64.toInt_maxValue]
      omega
    · rw [if_neg low, if_neg high, Int64.toInt_ofInt_of_le (by omega) (by omega)]
      omega

/-- Checked arithmetic has a result if the exact one fits, and this is the exact one. -/
theorem ofInt?_of_fits {n : Int} (fits : Fits n) : ∃ v, ofInt? n = some v ∧ v.toInt = n := by
  obtain ⟨low, high⟩ := fits
  have least : Numeral.least = -2 ^ 63 := Int64.toInt_minValue
  have greatest : Numeral.greatest = 2 ^ 63 - 1 := Int64.toInt_maxValue
  refine ⟨Int64.ofInt n, ?_, Int64.toInt_ofInt_of_le low high⟩
  have within : Numeral.least ≤ n ∧ n ≤ Numeral.greatest := by omega
  simp [ofInt?, Numeral.fitting, within]

theorem ofInt?_of_not_fits {n : Int} (exceeds : ¬ Fits n) : ofInt? n = none := by
  have least : Numeral.least = -2 ^ 63 := Int64.toInt_minValue
  have greatest : Numeral.greatest = 2 ^ 63 - 1 := Int64.toInt_maxValue
  have outside : ¬ (Numeral.least ≤ n ∧ n ≤ Numeral.greatest) := by
    unfold Fits at exceeds
    omega
  simp [ofInt?, Numeral.fitting, outside]

/-- What a thread can ask of a counter. -/
inductive Request where
  | value
  | set (new : Int64)
  | trySet (new : Numeral)
  | replace (new : Int64)
  | increment
  | decrement
  | incrementBy (delta : Int64)
  | decrementBy (delta : Int64)
  | checkedIncrementBy (delta : Int64)
  | checkedDecrementBy (delta : Int64)
  | compareAndSet (expected new : Int64)
  | tryCompareAndSet (expected new : Numeral)
  | update (f : Int64 → Int64)

/-- What a counter answers. -/
inductive Answer where
  | done
  | value (v : Int64)
  | truth (answer : Bool)
  | fault (reason : Fault)
  deriving DecidableEq, Repr

namespace Answer

/-- The answer of a request that may be refused. -/
def ofExcept {α : Type} (answer : α → Answer) : Except Fault α → Answer
  | .ok a => answer a
  | .error reason => .fault reason

/-- The answer of arithmetic on a value that stops at the bounds, and the value that it leaves. -/
def Saturates (change : Int) (held : Int64) (answer : Answer) (left : Int64) : Prop :=
  answer = .value left ∧ left.toInt = clamped (held.toInt + change)

/-- The answer of arithmetic on a value that is exact or refused, and the value that it leaves. -/
def Checks (change : Int) (held : Int64) (answer : Answer) (left : Int64) : Prop :=
  if Fits (held.toInt + change) then answer = .value left ∧ left.toInt = held.toInt + change
  else answer = .fault .overflow ∧ left = held

/-- The answer of replacing an expected value, and the value that this leaves. -/
def Compares (expected new held : Int64) (answer : Answer) (left : Int64) : Prop :=
  if held = expected then answer = .truth true ∧ left = new
  else answer = .truth false ∧ left = held

/-- A request with an argument that may be refused: if it is, the value is left alone. -/
def Judges {α : Type} (argument : Except Fault α)
    (Accepted : α → Int64 → Answer → Int64 → Prop) (held : Int64) (answer : Answer)
    (left : Int64) : Prop :=
  match argument with
  | .ok a => Accepted a held answer left
  | .error reason => answer = .fault reason ∧ left = held

end Answer

namespace Request

/-- The request in one piece: its answer when it finds the value `held`, and the value it leaves. -/
def Performs (held : Int64) (answer : Answer) (left : Int64) : Request → Prop
  | value => answer = .value held ∧ left = held
  | set new => answer = .done ∧ left = new
  | trySet new =>
    Answer.Judges new.toInt64 (fun new _ answer left => answer = .done ∧ left = new)
      held answer left
  | replace new => answer = .value held ∧ left = new
  | increment => Answer.Saturates 1 held answer left
  | decrement => Answer.Saturates (-1) held answer left
  | incrementBy delta => Answer.Saturates delta.toInt held answer left
  | decrementBy delta => Answer.Saturates (-delta.toInt) held answer left
  | checkedIncrementBy delta => Answer.Checks delta.toInt held answer left
  | checkedDecrementBy delta => Answer.Checks (-delta.toInt) held answer left
  | compareAndSet expected new => Answer.Compares expected new held answer left
  | tryCompareAndSet expected new =>
    Answer.Judges expected.toInt64 (fun expected =>
      Answer.Judges new.toInt64 fun new => Answer.Compares expected new) held answer left
  | update f => answer = .value left ∧ left = f held

/-- The program that serves a request. -/
def program : Request → Action Answer
  | value => .value <$> Counter.value
  | set new => (fun _ => .done) <$> Counter.set new
  | trySet new => .ofExcept (fun _ => .done) <$> Counter.trySet new
  | replace new => .value <$> Counter.replace new
  | increment => .value <$> Counter.increment
  | decrement => .value <$> Counter.decrement
  | incrementBy delta => .value <$> Counter.incrementBy delta
  | decrementBy delta => .value <$> Counter.decrementBy delta
  | checkedIncrementBy delta => .ofExcept .value <$> Counter.checkedIncrementBy delta
  | checkedDecrementBy delta => .ofExcept .value <$> Counter.checkedDecrementBy delta
  | compareAndSet expected new => .truth <$> Counter.compareAndSet expected new
  | tryCompareAndSet expected new => .ofExcept .truth <$> Counter.tryCompareAndSet expected new
  | update f => .value <$> Counter.update f

/-- The program that serves a request and tells which one it has served. -/
def labelled (request : Request) : Action (Request × Answer) :=
  (fun answer => (request, answer)) <$> request.program

end Request

/-- What is said of an answer, said of the request and its answer. -/
def Served (held : Int64) (served : Request × Answer) (left : Int64) : Prop :=
  served.1.Performs held served.2 left

theorem indivisible_update (f : Int64 → Int64) :
    Indivisible (fun held answer left => answer = left ∧ left = f held) (update f) :=
  .call fun _ => ⟨rfl, rfl⟩

theorem indivisible_shift (change : Int) :
    Indivisible (fun held answer left => Answer.Saturates change held (.value answer) left)
      (shift change) := by
  refine .call fun held => ⟨rfl, ?_⟩
  exact toInt_saturated (held.toInt + change)

theorem indivisible_shiftChecked (change : Int) :
    Indivisible (fun held answer left =>
      Answer.Checks change held (.ofExcept .value answer) left) (shiftChecked change) := by
  refine .call fun held => ?_
  unfold Answer.Checks
  by_cases fits : Fits (held.toInt + change)
  · obtain ⟨v, exact_sum, same⟩ := ofInt?_of_fits fits
    rw [if_pos fits]
    simp [Operation.apply, exact_sum, Answer.ofExcept, same]
  · rw [if_neg fits]
    simp [Operation.apply, ofInt?_of_not_fits fits, Answer.ofExcept]

theorem indivisible_compareAndSet (expected new : Int64) :
    Indivisible (fun held answer left => Answer.Compares expected new held (.truth answer) left)
      (compareAndSet expected new) := by
  refine .call fun held => ?_
  unfold Answer.Compares
  by_cases same : held = expected <;> simp [Operation.apply, Access.apply, same]

theorem indivisible_trySet (new : Numeral) :
    Indivisible (fun held answer left => (Request.trySet new).Performs held
      (.ofExcept (fun _ => .done) answer) left) (trySet new) := by
  cases judged : new.toInt64 with
  | error reason =>
    simp only [trySet, Request.Performs, Answer.Judges, judged]
    exact .done fun _ => ⟨rfl, rfl⟩
  | ok new =>
    simp only [trySet, Request.Performs, Answer.Judges, judged]
    exact .call fun _ => ⟨rfl, rfl⟩

/-- The numerals are judged in their order, and both before the value is read. -/
theorem indivisible_tryCompareAndSet (expected new : Numeral) :
    Indivisible (fun held answer left => (Request.tryCompareAndSet expected new).Performs held
      (.ofExcept .truth answer) left) (tryCompareAndSet expected new) := by
  cases first : expected.toInt64 with
  | error reason =>
    simp only [tryCompareAndSet, Request.Performs, Answer.Judges, first]
    exact .done fun _ => ⟨rfl, rfl⟩
  | ok expected =>
    cases second : new.toInt64 with
    | error reason =>
      simp only [tryCompareAndSet, Request.Performs, Answer.Judges, first, second]
      exact .done fun _ => ⟨rfl, rfl⟩
    | ok new =>
      simp only [tryCompareAndSet, Request.Performs, Answer.Judges, first, second]
      exact (indivisible_compareAndSet expected new).map fun does => does

/-- A request makes one call at most and does what is said of it. -/
theorem Request.indivisible (request : Request) :
    Indivisible (fun held answer left => request.Performs held answer left) request.program := by
  cases request with
  | value => exact .call fun _ => ⟨rfl, rfl⟩
  | set new => exact .call fun _ => ⟨rfl, rfl⟩
  | trySet new => exact (indivisible_trySet new).map fun does => does
  | replace new => exact .call fun _ => ⟨rfl, rfl⟩
  | increment => exact (indivisible_shift 1).map fun does => does
  | decrement => exact (indivisible_shift (-1)).map fun does => does
  | incrementBy delta => exact (indivisible_shift delta.toInt).map fun does => does
  | decrementBy delta => exact (indivisible_shift (-delta.toInt)).map fun does => does
  | checkedIncrementBy delta => exact (indivisible_shiftChecked delta.toInt).map fun does => does
  | checkedDecrementBy delta => exact (indivisible_shiftChecked (-delta.toInt)).map fun does => does
  | compareAndSet expected new =>
    exact (indivisible_compareAndSet expected new).map fun does => does
  | tryCompareAndSet expected new =>
    exact (indivisible_tryCompareAndSet expected new).map fun does => does
  | update f => exact (indivisible_update f).map fun ⟨same, does⟩ => ⟨congrArg _ same, does⟩

/-- Threads that share a counter find it as if one request came after the other. Each request takes
effect with the access that answers it: this access finds the value that the answer is computed
from and leaves the value that the request leaves, and no other access changes the value. -/
theorem requests_linearize {initial : Int64} {u : System (shared Int64) (Request × Answer)}
    {results : List (Nat × Request × Answer)}
    (reached : System.Reaches (O := shared Int64)
      (fun _ program => ∃ request : Request, program = request.labelled)
      { state := initial } u results) :
    Serial Served initial (results.map Prod.snd) u.state ∧
      ∀ {t : Nat} {chance : Chance} {v : System (shared Int64) (Request × Answer)}
        {outcome : Option (Request × Answer)}, u.step t chance = some (v, outcome) →
        outcome = none ∧ v.state = u.state ∨
          ∃ served, outcome = some served ∧ Served u.state served v.state := by
  have indivisible : ∀ (t : Nat) (program : Action (Request × Answer)),
      (∃ request : Request, program = request.labelled) → Indivisible Served program := by
    rintro t program ⟨request, rfl⟩
    exact request.indivisible.map fun performs => performs
  exact ⟨Indivisible.serial indivisible reached, Indivisible.does indivisible reached⟩

/-- A counter one below its upper bound, and three threads that are about to change it. -/
def contenders : System (shared Int64) (Request × Answer) :=
  let s : System (shared Int64) (Request × Answer) := { state := Int64.maxValue - 1 }
  let s := (s.assign 0 (Request.checkedIncrementBy 1).labelled).1
  let s := (s.assign 1 Request.increment.labelled).1
  (s.assign 2 (Request.update (· - 3)).labelled).1

/-- The second thread takes the last step up to the bound, so that the first one has to start again
and is refused. An exchange of the third one fails for no reason. -/
def contest : System (shared Int64) (Request × Answer) × List (Nat × Request × Answer) :=
  contenders.steps [] [(0, {}), (1, {}), (1, {}), (2, {}), (0, {}), (2, { spurious := true }),
    (2, {})]

theorem requests_linearize_contest :
    (contest.2.map fun (t, _, answer) => (t, answer)) =
        [(1, .value Int64.maxValue), (0, .fault .overflow), (2, .value (Int64.maxValue - 3))] ∧
      Serial Served (Int64.maxValue - 1) (contest.2.map Prod.snd) contest.1.state ∧
      contest.1.state = Int64.maxValue - 3 := by
  have begun : System.Reaches (O := shared Int64)
      (fun _ program => ∃ request : Request, program = request.labelled)
      { state := Int64.maxValue - 1 } contenders [] :=
    .assign 2 _ (.assign 1 _ (.assign 0 _ .start rfl ⟨_, rfl⟩) rfl ⟨_, rfl⟩) rfl ⟨_, rfl⟩
  refine ⟨by decide +kernel, (requests_linearize (begun.steps _)).1, by decide +kernel⟩

end Interlock.Counter

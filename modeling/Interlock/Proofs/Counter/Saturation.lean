import Interlock.Proofs.Counter
import Interlock.Proofs.Register.Shares
import Mathlib.Algebra.Order.BigOperators.Group.List
import Mathlib.Algebra.Order.Ring.Int

/-!
# Arithmetic that stops at the bounds, in any order

Plain arithmetic neither commutes nor associates: what a bound has cut off is not given back by a
change to the other side. It does not matter in which order changes are made if all of them go to
one side, or if no order of them can reach a bound (`Steady`). Both are kept while the changes are
made (`Steady.step`), so whatever the interleaving of the threads, the value that is left is the
exact sum, cut off at the bounds once (`saturation_converges`).
-/

namespace Interlock.Counter

open Register

/-- A request of plain arithmetic. -/
inductive Shift where
  | increment
  | decrement
  | incrementBy (delta : Int64)
  | decrementBy (delta : Int64)

namespace Shift

/-- What the request adds to the value, as an exact integer. -/
def change : Shift → Int
  | increment => 1
  | decrement => -1
  | incrementBy delta => delta.toInt
  | decrementBy delta => -delta.toInt

/-- The program that serves the request. -/
def program : Shift → Action Int64
  | increment => Counter.increment
  | decrement => Counter.decrement
  | incrementBy delta => Counter.incrementBy delta
  | decrementBy delta => Counter.decrementBy delta

end Shift

/-- The operation that adds an integer. -/
def adding (change : Int) : Operation Int64 :=
  .modify fun v => some (saturated (v.toInt + change))

/-- What the changes add that go up. -/
def gains (changes : List Int) : Int :=
  (changes.filter fun c => 0 < c).sum

/-- What the changes add that go down. -/
def losses (changes : List Int) : Int :=
  (changes.filter fun c => c < 0).sum

/-- Changes to a value whose order does not matter: all go to one side, or those to each side
together stay within the bounds. -/
def Steady (start : Int) (changes : List Int) : Prop :=
  (∀ c ∈ changes, 0 ≤ c) ∨ (∀ c ∈ changes, c ≤ 0) ∨
    start + gains changes ≤ Int64.maxValue.toInt ∧ Int64.minValue.toInt ≤ start + losses changes

instance (start : Int) (changes : List Int) : Decidable (Steady start changes) :=
  inferInstanceAs (Decidable (_ ∨ _ ∨ _))

theorem Shift.program_eq (shift : Shift) :
    shift.program = .call (adding shift.change) fun did => .done did.left := by
  cases shift <;> rfl

theorem left_adding (change : Int) (held : Int64) :
    ((adding change).apply held).left.toInt = clamped (held.toInt + change) :=
  toInt_saturated _

theorem clamped_toInt (v : Int64) : clamped v.toInt = v.toInt := by
  have lower := v.le_toInt
  have upper := v.toInt_lt
  unfold clamped
  omega

theorem gains_nonneg (changes : List Int) : 0 ≤ gains changes :=
  List.sum_nonneg fun _ member => (of_decide_eq_true (List.mem_filter.mp member).2).le

theorem sum_nonpos {changes : List Int} (falls : ∀ c ∈ changes, c ≤ 0) : changes.sum ≤ 0 :=
  (List.sum_le_card_nsmul changes 0 falls).trans_eq (nsmul_zero _)

theorem losses_nonpos (changes : List Int) : losses changes ≤ 0 :=
  sum_nonpos fun _ member => (of_decide_eq_true (List.mem_filter.mp member).2).le

theorem sum_filter_cons (counts : Int → Bool) (change : Int) (changes : List Int) :
    ((change :: changes).filter counts).sum =
      (if counts change then change else 0) + (changes.filter counts).sum := by
  rw [List.filter_cons]
  split
  · exact List.sum_cons
  · exact (zero_add _).symm

theorem gains_cons (change : Int) (changes : List Int) :
    gains (change :: changes) = max change 0 + gains changes := by
  unfold gains
  simp only [sum_filter_cons, decide_eq_true_eq]
  omega

theorem losses_cons (change : Int) (changes : List Int) :
    losses (change :: changes) = min change 0 + losses changes := by
  unfold losses
  simp only [sum_filter_cons, decide_eq_true_eq]
  omega

namespace Steady

variable {start next : Int64} {change : Int} {changes changes' : List Int}

theorem perm (same : changes.Perm changes') (steady : Steady start.toInt changes) :
    Steady start.toInt changes' := by
  rcases steady with rises | falls | ⟨upper, lower⟩
  · exact .inl fun c member => rises c (same.mem_iff.mpr member)
  · exact .inr (.inl fun c member => falls c (same.mem_iff.mpr member))
  · refine .inr (.inr ⟨?_, ?_⟩)
    · rwa [gains, ← (same.filter _).sum_eq]
    · rwa [losses, ← (same.filter _).sum_eq]

/-- The first of the changes leaves the others steady, and cuts off nothing that they need. -/
theorem step (steady : Steady start.toInt (change :: changes))
    (left : next.toInt = clamped (start.toInt + change)) :
    Steady next.toInt changes ∧
      clamped (next.toInt + changes.sum) = clamped (start.toInt + (change :: changes).sum) := by
  have lower := start.le_toInt
  have upper := start.toInt_lt
  rw [List.sum_cons]
  unfold clamped at left ⊢
  rcases steady with rises | falls | ⟨room_above, room_below⟩
  · have first := rises change (List.mem_cons_self ..)
    have others : ∀ c ∈ changes, 0 ≤ c := fun c member => rises c (List.mem_cons_of_mem _ member)
    have sum := List.sum_nonneg others
    exact ⟨.inl others, by omega⟩
  · have first := falls change (List.mem_cons_self ..)
    have others : ∀ c ∈ changes, c ≤ 0 := fun c member => falls c (List.mem_cons_of_mem _ member)
    have sum := sum_nonpos others
    exact ⟨.inr (.inl others), by omega⟩
  · rw [gains_cons, Int64.toInt_maxValue] at room_above
    rw [losses_cons, Int64.toInt_minValue] at room_below
    have gained := gains_nonneg changes
    have lost := losses_nonpos changes
    -- nothing is cut off: the sum so far lies between what all losses and all gains would leave
    have exact_sum : next.toInt = start.toInt + change := by omega
    refine ⟨.inr (.inr ⟨?_, ?_⟩), by rw [exact_sum, add_assoc]⟩
    · rw [Int64.toInt_maxValue]
      omega
    · rw [Int64.toInt_minValue]
      omega

end Steady

/-- Calls that make steady changes one after the other leave the sum, cut off once. -/
theorem toInt_of_serial {start left : Int64} {calls : List (Answered Int64)} {changes : List Int}
    (serial : Serial Answered.Does start calls left)
    (adds : List.Forall₂ (fun call change => call.operation = adding change) calls changes)
    (steady : Steady start.toInt changes) :
    left.toInt = clamped (start.toInt + changes.sum) := by
  induction adds generalizing start with
  | nil =>
    cases serial
    rw [List.sum_nil, add_zero, clamped_toInt]
  | @cons call change calls changes first _ ih =>
    obtain ⟨next, ⟨piece, here⟩, serial⟩ := serial
    have moved : next.toInt = clamped (start.toInt + change) := by
      rw [← here, ← piece, first, left_adding]
    obtain ⟨steady, same⟩ := steady.step moved
    rw [ih serial steady, same]

/-- Threads that share a counter make requests of plain arithmetic. If the order of the changes
does not matter, the value that they leave is the exact sum, cut off at the bounds once, whatever
the interleaving. -/
theorem saturation_converges {start : Int64} {shares : List (List Shift)}
    {u : System (shared Int64) (List Int64)} {trace : List (Turn (shared Int64))}
    (run : System.Run (O := shared Int64) (fun _ _ => False)
      (System.launch start (shares.map fun share => share.mapM Shift.program)) u trace)
    (rests : ∀ t, (u.threads.get t).isIdle)
    (steady : Steady start.toInt (shares.flatten.map Shift.change)) :
    u.state.toInt = clamped (start.toInt + (shares.flatten.map Shift.change).sum) := by
  obtain ⟨order, same, made⟩ := answered_in_order Shift.program_eq run rests
  have adds : List.Forall₂ (fun call change => call.operation = adding change) (answered trace)
      (order.map Shift.change) :=
    List.forall₂_map_right_iff.mpr made
  have changes := same.map Shift.change
  rw [toInt_of_serial (stands_of_run run).1 adds (steady.perm changes.symm), changes.sum_eq]

/-- Two threads around -1. One subtracts the least integer, which has no opposite of 64 bits; while
it does, the other one goes down by 1, so that it has to start again. -/
def lifted : System (shared Int64) (List Int64) × List (Turn (shared Int64)) :=
  (System.launch (O := shared Int64) (-1)
    ([[Shift.decrementBy Int64.minValue], [Shift.decrement]].map
      fun share => share.mapM Shift.program)).follow []
    [(0, {}), (1, {}), (1, {}), (0, {}), (0, {})]

/-- Two threads that only go up, from one below the bound. -/
def stopped : System (shared Int64) (List Int64) × List (Turn (shared Int64)) :=
  (System.launch (O := shared Int64) (Int64.maxValue - 1)
    ([[Shift.increment, Shift.incrementBy 5], [Shift.incrementBy 0]].map
      fun share => share.mapM Shift.program)).follow []
    [(0, {}), (1, {}), (0, {}), (1, {}), (0, {}), (1, { spurious := true }), (0, {}), (1, {})]

theorem saturation_converges_lifted :
    lifted.1.state.toInt = 2 ^ 63 - 2 ∧ stopped.1.state.toInt = 2 ^ 63 - 1 := by
  have first : System.Run (fun _ _ => False) _ lifted.1 lifted.2 := System.Run.start.follow _
  have second : System.Run (fun _ _ => False) _ stopped.1 stopped.2 := System.Run.start.follow _
  have exact_sum := saturation_converges first (System.rests_of_all (by decide +kernel))
    (by decide +kernel)
  have cut_off := saturation_converges second (System.rests_of_all (by decide +kernel))
    (by decide +kernel)
  exact ⟨exact_sum.trans (by decide +kernel), cut_off.trans (by decide +kernel)⟩

end Interlock.Counter

import Interlock.Proofs.Counter
import Interlock.Proofs.Register.Shares
import Mathlib.Algebra.Order.Ring.Int

/-!
# Checked arithmetic, in any order

Checked arithmetic is exact or refused, so the value is always the one at the start and the changes
of the calls that were not refused (`exact_of_serial`). Which calls are refused depends on the order
in general. It does not if all make the same change: then a call is refused once the value has no
room for the change, and stays refused, so that the number of the others is how often the change
goes into the room at the start (`accepted_of_serial`).
-/

namespace Interlock.Counter

open Register

/-- A request of checked arithmetic. -/
inductive CheckedShift where
  | incrementBy (delta : Int64)
  | decrementBy (delta : Int64)

namespace CheckedShift

/-- What the request adds to the value if it is not refused, as an exact integer. -/
def change : CheckedShift → Int
  | incrementBy delta => delta.toInt
  | decrementBy delta => -delta.toInt

/-- The program that serves the request. -/
def program : CheckedShift → Action (Except Fault Int64)
  | incrementBy delta => checkedIncrementBy delta
  | decrementBy delta => checkedDecrementBy delta

theorem program_eq (shift : CheckedShift) : shift.program = shiftChecked shift.change := by
  cases shift <;> rfl

/-- The request in one piece: what it returns when it finds the value `held`, and the value that it
leaves. -/
def Does (held : Int64) (served : CheckedShift × Except Fault Int64) (left : Int64) : Prop :=
  Answer.Checks served.1.change held (.ofExcept .value served.2) left

/-- Either the exact sum has 64 bits and is returned, or the request is refused. -/
theorem Does.cases {held left : Int64} {served : CheckedShift × Except Fault Int64}
    (does : Does held served left) :
    Fits (held.toInt + served.1.change) ∧ served.2 = .ok left ∧
        left.toInt = held.toInt + served.1.change ∨
      ¬ Fits (held.toInt + served.1.change) ∧ served.2 = .error .overflow ∧ left = held := by
  obtain ⟨shift, result⟩ := served
  unfold Does Answer.Checks at does
  by_cases fits : Fits (held.toInt + shift.change)
  · rw [if_pos fits] at does
    obtain ⟨answer, sum⟩ := does
    cases result with
    | ok v => exact .inl ⟨fits, congrArg _ (Answer.value.inj answer), sum⟩
    | error reason => cases answer
  · rw [if_neg fits] at does
    obtain ⟨answer, same⟩ := does
    cases result with
    | ok v => cases answer
    | error reason => exact .inr ⟨fits, congrArg _ (Answer.fault.inj answer), same⟩

/-- What the program for a request returns is what the request returns in one piece. -/
theorem does_of_returns {held left : Int64} {call : Answered Int64}
    {served : CheckedShift × Except Fault Int64} (returns : Returns program call served)
    (does : call.Does held left) : Does held served left := by
  have indivisible : Indivisible (fun held result left =>
      Answer.Checks served.1.change held (.ofExcept .value result) left) served.1.program := by
    rw [program_eq]
    exact indivisible_shiftChecked served.1.change
  exact indivisible.does_of_returns returns does

end CheckedShift

/-- The requests that were not refused. -/
def accepted (served : List (CheckedShift × Except Fault Int64)) : List CheckedShift :=
  (served.filter fun s => s.2.isOk).map Prod.fst

/-- How far the value can still go in the direction of a change. -/
def room (change : Int) (held : Int64) : Int :=
  if 0 < change then Int64.maxValue.toInt - held.toInt else held.toInt - Int64.minValue.toInt

section Serial

variable {start left held : Int64} {change : Int} {shift : CheckedShift}
  {result : Except Fault Int64} {served : List (CheckedShift × Except Fault Int64)}

theorem accepted_cons_ok (v : Int64) :
    accepted ((shift, .ok v) :: served) = shift :: accepted served := rfl

theorem accepted_cons_error (reason : Fault) :
    accepted ((shift, .error reason) :: served) = accepted served := rfl

/-- Nothing is lost and nothing is cut off. -/
theorem exact_of_serial (serial : Serial CheckedShift.Does start served left) :
    left.toInt = start.toInt + ((accepted served).map CheckedShift.change).sum := by
  induction served generalizing start with
  | nil =>
    cases serial
    exact (add_zero _).symm
  | cons first served ih =>
    obtain ⟨middle, does, serial⟩ := serial
    obtain ⟨shift, result⟩ := first
    rcases does.cases with ⟨-, rfl, sum⟩ | ⟨-, rfl, rfl⟩
    · rw [ih serial, accepted_cons_ok, List.map_cons, List.sum_cons, sum, add_assoc]
    · rw [ih serial, accepted_cons_error]

/-- The sum has 64 bits if and only if there is room for the change. -/
theorem fits_iff_room (some_change : change ≠ 0) :
    Fits (held.toInt + change) ↔ (change.natAbs : Int) ≤ room change held := by
  have lower := held.le_toInt
  have upper := held.toInt_lt
  unfold Fits room
  rw [Int64.toInt_maxValue, Int64.toInt_minValue]
  rcases lt_or_gt_of_ne some_change with down | up <;> omega

theorem room_nonneg (change : Int) (held : Int64) : 0 ≤ room change held := by
  have lower := held.le_toInt
  have upper := held.toInt_lt
  unfold room
  rw [Int64.toInt_maxValue, Int64.toInt_minValue]
  omega

/-- A change takes its own size off the room. -/
theorem room_after (sum : left.toInt = held.toInt + change) :
    room change held = room change left + change.natAbs := by
  unfold room
  rw [sum]
  omega

/-- Of calls that all make the same change, as many are not refused as the room allows. -/
theorem accepted_of_serial (serial : Serial CheckedShift.Does start served left)
    (some_change : change ≠ 0) (same : ∀ s ∈ served, s.1.change = change) :
    ((accepted served).length : Int) =
      min (served.length : Int) (room change start / change.natAbs) := by
  have size_pos : (0 : Int) < change.natAbs := by omega
  induction served generalizing start with
  | nil =>
    have quotient := Int.ediv_nonneg (room_nonneg change start) size_pos.le
    exact (min_eq_left quotient).symm
  | cons first served ih =>
    obtain ⟨middle, does, serial⟩ := serial
    have others := ih serial fun s member => same s (List.mem_cons_of_mem _ member)
    obtain ⟨shift, result⟩ := first
    have mine : shift.change = change := same (shift, result) (List.mem_cons_self ..)
    subst mine
    rcases does.cases with ⟨fits, rfl, sum⟩ | ⟨exceeds, rfl, rfl⟩
    · have quotient : room shift.change start / shift.change.natAbs =
          room shift.change middle / shift.change.natAbs + 1 := by
        rw [room_after sum, Int.add_ediv_of_dvd_right (Int.dvd_refl _),
          Int.ediv_self size_pos.ne']
      rw [accepted_cons_ok, quotient, List.length_cons, List.length_cons]
      omega
    · -- what has been refused once has no room, now and later
      have none_left : room shift.change middle / shift.change.natAbs = 0 := by
        refine Int.ediv_eq_zero_of_lt (room_nonneg _ _) ?_
        exact lt_of_not_ge fun enough => exceeds ((fits_iff_room some_change).mpr enough)
      rw [none_left] at others
      rw [accepted_cons_error, none_left, others, List.length_cons]
      omega

/-- Requests that all make the same change make it as often as they are not refused. -/
theorem sum_of_uniform (same : ∀ s ∈ served, s.1.change = change) :
    ((accepted served).map CheckedShift.change).sum = (accepted served).length * change := by
  have equal : ∀ c ∈ (accepted served).map CheckedShift.change, c = change := by
    intro c member
    obtain ⟨shift, kept, rfl⟩ := List.mem_map.mp member
    obtain ⟨s, found, rfl⟩ := List.mem_map.mp kept
    exact same s (List.mem_filter.mp found).1
  rw [List.eq_replicate_of_mem equal, List.length_map, List.sum_replicate_int]

end Serial

/-- Threads that share a counter make requests of checked arithmetic. In the order in which they are
answered, the value that is left is the exact one of those that were not refused; a request is
refused with an overflow, by an access that finds a value to which its change cannot be added; and
if all make the same change, how many are not refused does not depend on the interleaving. -/
theorem checked_traffic_exact {start : Int64} {shares : List (List CheckedShift)}
    {u : System (shared Int64) (List (Except Fault Int64))} {trace : List (Turn (shared Int64))}
    (run : System.Run (O := shared Int64) (fun _ _ => False)
      (System.launch start (shares.map fun share => share.mapM CheckedShift.program)) u trace)
    (rests : ∀ t, (u.threads.get t).isIdle) :
    ∃ served : List (CheckedShift × Except Fault Int64),
      (served.map Prod.fst).Perm shares.flatten ∧
      List.Forall₂ (Returns CheckedShift.program) (answered trace) served ∧
      u.state.toInt = start.toInt + ((accepted served).map CheckedShift.change).sum ∧
      (∀ a ∈ trace, ∀ call shift reason, answered? a = some call →
        Returns CheckedShift.program call (shift, .error reason) →
          reason = .overflow ∧ ¬ Fits (a.before.toInt + shift.change)) ∧
      ∀ change : Int, change ≠ 0 → (∀ shift ∈ shares.flatten, shift.change = change) →
        ((accepted served).length : Int) =
            min (shares.flatten.length : Int) (room change start / change.natAbs) ∧
          u.state.toInt = start.toInt + (accepted served).length * change := by
  obtain ⟨served, same, returns⟩ := served_in_order
    (fun shift => (CheckedShift.program_eq shift).trans rfl) run rests
  have serial : Serial CheckedShift.Does start served u.state :=
    (stands_of_run run).1.retold returns CheckedShift.does_of_returns
  have sum := exact_of_serial serial
  refine ⟨served, same, returns, sum, ?_, ?_⟩
  · intro a member call shift reason answers refused
    have does := CheckedShift.does_of_returns refused (does_of_answered run member answers)
    rcases does.cases with ⟨-, ok, -⟩ | ⟨exceeds, overflow, -⟩
    · cases ok
    · exact ⟨Except.error.inj overflow, exceeds⟩
  · intro change some_change uniform
    have all_same : ∀ s ∈ served, s.1.change = change := fun s member =>
      uniform s.1 (same.mem_iff.mp (List.mem_map_of_mem member))
    have length : served.length = shares.flatten.length := by
      rw [← same.length_eq, List.length_map]
    rw [sum_of_uniform all_same] at sum
    exact ⟨length ▸ accepted_of_serial serial some_change all_same, sum⟩

/-- Two threads that both want to take the last step up to the bound. The first one has read the
value before the second one takes the step, so that its exchange is lost and it is refused. -/
def refused : System (shared Int64) (List (Except Fault Int64)) × List (Turn (shared Int64)) :=
  (System.launch (O := shared Int64) (Int64.maxValue - 1)
    ([[.incrementBy 1, .decrementBy 3], [.incrementBy 1]].map
      fun share => share.mapM CheckedShift.program)).follow []
    [(0, {}), (1, {}), (1, {}), (0, {}), (0, {}), (0, {})]

/-- Three threads that subtract the least integer, for which there is room once. -/
def leap : System (shared Int64) (List (Except Fault Int64)) × List (Turn (shared Int64)) :=
  (System.launch (O := shared Int64) (-5)
    ([[.decrementBy Int64.minValue], [.decrementBy Int64.minValue],
      [.decrementBy Int64.minValue]].map fun share => share.mapM CheckedShift.program)).follow []
    [(0, {}), (1, {}), (1, { spurious := true }), (1, {}), (0, {}), (2, {})]

theorem checked_traffic_exact_refused :
    (∃ served, List.Forall₂ (Returns CheckedShift.program) (answered refused.2) served ∧
        2 ^ 63 - 4 = 2 ^ 63 - 2 + ((accepted served).map CheckedShift.change).sum) ∧
      ∃ served, List.Forall₂ (Returns CheckedShift.program) (answered leap.2) served ∧
        (accepted served).length = 1 ∧ leap.1.state.toInt = 2 ^ 63 - 5 := by
  have first : System.Run (fun _ _ => False) _ refused.1 refused.2 := System.Run.start.follow _
  have second : System.Run (fun _ _ => False) _ leap.1 leap.2 := System.Run.start.follow _
  obtain ⟨served, -, returns, sum, -⟩ :=
    checked_traffic_exact first (System.rests_of_all (by decide +kernel))
  obtain ⟨served', -, returns', -, -, uniform⟩ :=
    checked_traffic_exact second (System.rests_of_all (by decide +kernel))
  obtain ⟨once, left⟩ := uniform (2 ^ 63) (by decide) (by decide +kernel)
  have one : (accepted served').length = 1 :=
    Int.natCast_inj.mp (once.trans (by decide +kernel))
  rw [one] at left
  have held : refused.1.state.toInt = 2 ^ 63 - 4 := by decide +kernel
  exact ⟨⟨served, returns, held ▸ sum⟩, served', returns', one, left⟩

end Interlock.Counter

import Interlock.Proofs.Counter
import Interlock.Proofs.Register.Shares
import Mathlib.Data.List.Induction
import Mathlib.Data.List.Nodup

/-!
# A ladder of exchanges

Some threads take a counter up a ladder. For one rung after the other, each of them tries to replace
the value below the rung by the one above it, and goes on whether or not it was the one that did.

Every rung that a thread has tried is below the value: either the thread has climbed it, or the
value was above it already (`Climbed`). So the rungs are climbed in their order, each one once.
-/

namespace Interlock.Counter

open Register

/-- The value below a rung. -/
def rung (start : Int64) (i : Nat) : Int64 :=
  Int64.ofInt (start.toInt + i)

/-- Try to climb a rung. -/
def attempt (start : Int64) (i : Nat) : Action Bool :=
  compareAndSet (rung start i) (rung start (i + 1))

/-- Try all rungs of a ladder in their order. -/
def climb (start : Int64) (length : Nat) : Action (List Bool) :=
  (List.range length).mapM (attempt start)

/-- The operation of an attempt. -/
def attempting (start : Int64) (i : Nat) : Operation Int64 :=
  .once (.exchange (rung start i) (rung start (i + 1)))

theorem attempt_eq (start : Int64) (i : Nat) :
    attempt start i = .call (attempting start i) fun did => .done did.accepted := rfl

/-- The rungs of the attempts that were successful. -/
def won (served : List (Nat × Bool)) : List Nat :=
  (served.filter Prod.snd).map Prod.fst

theorem won_append (served later : List (Nat × Bool)) :
    won (served ++ later) = won served ++ won later := by
  simp [won]

theorem length_won (served : List (Nat × Bool)) : (won served).length = served.countP Prod.snd := by
  rw [won, List.length_map, List.countP_eq_length_filter]

theorem count_won (served : List (Nat × Bool)) (i : Nat) :
    served.count (i, true) = (won served).count i := by
  unfold won
  induction served with
  | nil => rfl
  | cons first served ih =>
    obtain ⟨j, success⟩ := first
    cases success <;> simp [List.count_cons, ih]

section Ladder

variable {start held : Int64} {length i j : Nat} {calls : List (Answered Int64)}
  {served : List (Nat × Bool)}

theorem toInt_rung (fits : start.toInt + length ≤ Int64.maxValue.toInt) (within : i ≤ length) :
    (rung start i).toInt = start.toInt + i := by
  have lower := start.le_toInt
  rw [Int64.toInt_maxValue] at fits
  exact Int64.toInt_ofInt_of_le (by omega) (by omega)

theorem rung_inj (fits : start.toInt + length ≤ Int64.maxValue.toInt) (i_within : i ≤ length)
    (j_within : j ≤ length) (same : rung start i = rung start j) : i = j := by
  have values := congrArg Int64.toInt same
  rw [toInt_rung fits i_within, toInt_rung fits j_within] at values
  omega

/-- The call is the attempt at a rung of the ladder, and has told whether it was successful. -/
def Attempts (start : Int64) (length : Nat) (call : Answered Int64) (served : Nat × Bool) : Prop :=
  Returns (attempt start) call served ∧ served.1 < length

/-- It can be seen from the call which rung was tried and whether with success. -/
theorem Attempts.unique (fits : start.toInt + length ≤ Int64.maxValue.toInt) :
    Relator.RightUnique (Attempts start length) := by
  rintro call ⟨i, success⟩ ⟨j, success'⟩ ⟨⟨first, told⟩, i_within⟩ ⟨⟨second, told'⟩, j_within⟩
  cases told
  cases told'
  have same : attempting start i = attempting start j := first.symm.trans second
  rw [attempting, attempting] at same
  have feet : rung start i = rung start j := (Access.exchange.inj (Operation.once.inj same)).1
  have i_le : i ≤ length := Nat.le_of_lt i_within
  rw [rung_inj fits i_le (Nat.le_of_lt j_within) feet]

/-- How far the threads have got after some calls, with the value that they have left. -/
structure Climbed (start : Int64) (length : Nat) (calls : List (Answered Int64)) (held : Int64)
    (served : List (Nat × Bool)) : Prop where
  attempts : List.Forall₂ (Attempts start length) calls served
  in_order : won served = List.range (won served).length
  value : held.toInt = start.toInt + (won served).length
  /-- The rungs that a thread has tried have been climbed. -/
  passed : ∀ t, (callsOf t calls).length ≤ (won served).length

/-- Where a list of all items in their order is cut, the next item is the one with the number of
those before the cut. -/
theorem next_of_range {κ : Type} {f : Nat → κ} {before rest : List κ} {next : κ}
    (cut : (List.range length).map f = before ++ next :: rest) :
    before.length < length ∧ f before.length = next := by
  have lengths := congrArg List.length cut
  simp only [List.length_map, List.length_range, List.length_append, List.length_cons] at lengths
  have within : before.length < length := by omega
  have here := congrArg (fun items => items[before.length]?) cut
  simp only [List.getElem?_map, List.getElem?_range within, Option.map_some,
    List.getElem?_append_right (Nat.le_refl _), Nat.sub_self, List.getElem?_cons_zero] at here
  exact ⟨within, Option.some.inj here⟩

/-- One more attempt keeps the order of the rungs. It is successful only at the first rung that has
not been climbed, and fails only at one that has. -/
theorem Climbed.concat {middle : Int64} {call : Answered Int64}
    (fits : start.toInt + length ≤ Int64.maxValue.toInt)
    (climbed : Climbed start length calls middle served) (does : call.Does middle held)
    (within : (callsOf call.thread calls).length < length)
    (attempts : attempting start (callsOf call.thread calls).length = call.operation) :
    ∃ served, Climbed start length (calls ++ [call]) held served := by
  have reached := climbed.passed call.thread
  generalize next : (callsOf call.thread calls).length = i at within attempts reached
  have returns : Returns (attempt start) call (i, call.reply.accepted) := ⟨attempts.symm, rfl⟩
  have compares : Answer.Compares (rung start i) (rung start (i + 1)) middle
      (.truth call.reply.accepted) held :=
    (indivisible_compareAndSet _ _).does_of_returns returns does
  have log : List.Forall₂ (Attempts start length) (calls ++ [call])
      (served ++ [(i, call.reply.accepted)]) :=
    List.rel_append climbed.attempts (.cons ⟨returns, within⟩ .nil)
  have lengths (t : Nat) : (callsOf t (calls ++ [call])).length =
      (callsOf t calls).length + if call.thread = t then 1 else 0 := by
    rw [callsOf_append, List.length_append]
    split <;> simp [callsOf, *]
  have foot : (rung start i).toInt = start.toInt + i := toInt_rung fits (Nat.le_of_lt within)
  unfold Answer.Compares at compares
  rcases Nat.lt_or_eq_of_le reached with below | top
  · have above : middle ≠ rung start i := by
      intro same
      have value := climbed.value
      rw [same, foot] at value
      omega
    rw [if_neg above] at compares
    obtain ⟨failed, rfl⟩ := compares
    have same : won (served ++ [(i, call.reply.accepted)]) = won served := by
      rw [won_append, Answer.truth.inj failed]
      exact List.append_nil _
    refine ⟨_, log, same.symm ▸ climbed.in_order, same.symm ▸ climbed.value, fun t => ?_⟩
    rw [lengths, same]
    split
    next mine =>
      subst mine
      omega
    next => exact climbed.passed t
  · have there : middle = rung start i := Int64.toInt_inj.mp (by rw [foot, top, climbed.value])
    rw [if_pos there] at compares
    obtain ⟨succeeded, rfl⟩ := compares
    have more : won (served ++ [(i, call.reply.accepted)]) = won served ++ [i] := by
      rw [won_append, Answer.truth.inj succeeded]
      rfl
    have longer : (won (served ++ [(i, call.reply.accepted)])).length = i + 1 := by
      rw [more, List.length_append, ← top, List.length_singleton]
    refine ⟨_, log, ?_, ?_, fun t => ?_⟩
    · rw [longer, more, List.range_succ, top, ← climbed.in_order]
    · rw [longer]
      exact toInt_rung fits within
    · rw [lengths, longer]
      have passed := climbed.passed t
      split <;> omega

/-- Threads that try all rungs in their order have climbed as many as they have left behind. -/
theorem climbed_of_serial (fits : start.toInt + length ≤ Int64.maxValue.toInt)
    (serial : Serial Answered.Does start calls held)
    (starts : ∀ t, ∃ rest, (List.range length).map (attempting start) =
      (callsOf t calls).map Prod.fst ++ rest) :
    ∃ served, Climbed start length calls held served := by
  induction calls using List.reverseRecOn generalizing held with
  | nil =>
    cases serial
    exact ⟨[], .nil, rfl, (add_zero _).symm, fun _ => Nat.le_refl _⟩
  | append_singleton calls call ih =>
    obtain ⟨middle, before, does⟩ := serial.of_concat
    have earlier (t : Nat) : ∃ rest, (List.range length).map (attempting start) =
        (callsOf t calls).map Prod.fst ++ rest := by
      obtain ⟨rest, goes_on⟩ := starts t
      rw [callsOf_append, List.map_append, List.append_assoc] at goes_on
      exact ⟨_, goes_on⟩
    obtain ⟨served, climbed⟩ := ih before earlier
    obtain ⟨rest, goes_on⟩ := starts call.thread
    have mine : callsOf call.thread [call] = [(call.operation, call.reply)] := by simp [callsOf]
    rw [callsOf_append, mine, List.map_append, List.append_assoc] at goes_on
    obtain ⟨within, attempts⟩ := next_of_range goes_on
    rw [List.length_map] at within attempts
    exact climbed.concat fits does within attempts

/-- No more rungs are climbed than the ladder has. -/
theorem Climbed.length_le (climbed : Climbed start length calls held served)
    (tried : ∀ s ∈ served, s.1 < length) : (won served).length ≤ length := by
  by_contra more
  have beyond : length ∈ won served := by
    rw [climbed.in_order]
    exact List.mem_range.mpr (Nat.lt_of_not_le more)
  obtain ⟨s, member, same⟩ := List.mem_map.mp beyond
  exact Nat.lt_irrefl _ (same ▸ tried s (List.mem_filter.mp member).1)

theorem attempts_of_returns (returns : List.Forall₂ (Returns (attempt start)) calls served)
    (tried : ∀ s ∈ served, s.1 < length) :
    List.Forall₂ (Attempts start length) calls served := by
  induction returns with
  | nil => exact .nil
  | @cons call s _ served first _ ih =>
    refine .cons ⟨first, tried s (List.mem_cons_self ..)⟩ ?_
    exact ih fun s member => tried s (List.mem_cons_of_mem _ member)

/-- Every attempt is at a rung of the ladder, if each thread has tried all of them. -/
theorem tried_of_perm {threads : Nat} (same : (served.map Prod.fst).Perm
    (List.replicate threads (List.range length)).flatten) : ∀ s ∈ served, s.1 < length := by
  intro s member
  have found := same.mem_iff.mp (List.mem_map_of_mem member)
  obtain ⟨share, among, here⟩ := List.mem_flatten.mp found
  rw [List.eq_of_mem_replicate among] at here
  exact List.mem_range.mp here

/-- As many attempts are made at a rung as there are threads. -/
theorem count_of_perm {threads : Nat} (same : (served.map Prod.fst).Perm
    (List.replicate threads (List.range length)).flatten) (within : i < length) :
    served.countP (fun s => s.1 = i) = threads := by
  have count := same.count_eq i
  rw [List.count_flatten, List.map_replicate, List.sum_replicate_nat,
    List.count_eq_one_of_mem List.nodup_range (List.mem_range.mpr within), Nat.mul_one,
    List.count_eq_countP, List.countP_map] at count
  rw [← count]
  exact List.countP_congr fun s _ => by simp

/-- At every moment of a run a thread has tried the first rungs, and at its end all of them. -/
theorem starts_of_climb {threads : Nat} {u : System (shared Int64) (List Bool)}
    {trace : List (Turn (shared Int64))}
    (run : System.Run (O := shared Int64) (fun _ _ => False)
      (System.launch start ((List.replicate threads (List.range length)).map fun share =>
        share.mapM (attempt start))) u trace) (t : Nat) :
    ∃ rest, (List.range length).map (attempting start) =
        (callsOf t (answered trace)).map Prod.fst ++ rest ∧
      (t < threads → u.threads.get t = .idle → rest = []) := by
  obtain ⟨rest, made, all_made⟩ := starts_of_run (attempt_eq start) run t
  by_cases within : t < threads
  · rw [List.getElem?_replicate_of_lt within] at made
    exact ⟨rest, made, fun _ => all_made⟩
  · rw [List.getElem?_eq_none (by simpa using within)] at made
    rw [(List.append_eq_nil_iff.mp made.symm).1]
    exact ⟨_, rfl, fun member => absurd member within⟩

end Ladder

/-- Some threads take a counter up a ladder, and nobody else writes. At every moment the value is
above as many rungs as attempts have been successful. When all threads have come to the end, each
rung has been tried by all of them and climbed by exactly one, and the value is above the last one. -/
theorem one_winner_per_rung {start : Int64} {length threads : Nat}
    (fits : start.toInt + length ≤ Int64.maxValue.toInt) (some_thread : 0 < threads)
    {u : System (shared Int64) (List Bool)} {trace : List (Turn (shared Int64))}
    (run : System.Run (O := shared Int64) (fun _ _ => False)
      (System.launch start (List.replicate threads (climb start length))) u trace) :
    ∃ served : List (Nat × Bool),
      List.Forall₂ (Attempts start length) (answered trace) served ∧
      u.state.toInt = start.toInt + served.countP Prod.snd ∧
      ((∀ t, (u.threads.get t).isIdle) →
        (∀ i < length, served.countP (fun s => s.1 = i) = threads ∧ served.count (i, true) = 1) ∧
        served.countP Prod.snd = length ∧ u.state.toInt = start.toInt + length) := by
  have shares : List.replicate threads (climb start length) =
      (List.replicate threads (List.range length)).map fun share => share.mapM (attempt start) := by
    rw [List.map_replicate]
    rfl
  rw [shares] at run
  have starts := starts_of_climb run
  obtain ⟨served, climbed⟩ := climbed_of_serial fits (stands_of_run run).1 fun t =>
    (starts t).imp fun _ made => made.1
  refine ⟨served, climbed.attempts, length_won served ▸ climbed.value, fun rests => ?_⟩
  obtain ⟨served', same, returns⟩ := served_in_order (attempt_eq start) run rests
  have told : served = served' := List.right_unique_forall₂' (Attempts.unique fits)
    climbed.attempts (attempts_of_returns returns (tried_of_perm same))
  subst told
  have all_won : (won served).length = length := by
    refine Nat.le_antisymm (climbed.length_le (tried_of_perm same)) ?_
    obtain ⟨rest, made, all_made⟩ := starts 0
    rw [all_made some_thread (Activity.eq_idle (rests 0)), List.append_nil] at made
    have lengths := congrArg List.length made
    rw [List.length_map, List.length_map, List.length_range] at lengths
    exact lengths ▸ climbed.passed 0
  refine ⟨fun i within => ⟨count_of_perm same within, ?_⟩, length_won served ▸ all_won,
    all_won ▸ climbed.value⟩
  rw [count_won, climbed.in_order, all_won]
  exact List.count_eq_one_of_mem List.nodup_range (List.mem_range.mpr within)

/-- Two threads on a ladder whose top is the upper bound. The second one overtakes the first one, and
fails at the last rung. -/
def overtaken : System (shared Int64) (List Bool) × List (Turn (shared Int64)) :=
  (System.launch (O := shared Int64) (Int64.maxValue - 3)
    (List.replicate 2 (climb (Int64.maxValue - 3) 3))).follow []
    [(0, {}), (1, {}), (1, {}), (0, {}), (0, {}), (1, {})]

theorem one_winner_per_rung_overtaken :
    ∃ served, List.Forall₂ (Attempts (Int64.maxValue - 3) 3) (answered overtaken.2) served ∧
      (∀ i < 3, served.countP (fun s => s.1 = i) = 2 ∧ served.count (i, true) = 1) ∧
      overtaken.1.state.toInt = 2 ^ 63 - 1 := by
  have run : System.Run (fun _ _ => False) _ overtaken.1 overtaken.2 := System.Run.start.follow _
  obtain ⟨served, attempts, -, ended⟩ := one_winner_per_rung (by decide) (by decide) run
  obtain ⟨winners, -, value⟩ := ended (System.rests_of_all (by decide +kernel))
  exact ⟨served, attempts, winners, value.trans (by decide)⟩

end Interlock.Counter

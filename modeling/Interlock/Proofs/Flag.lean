import Interlock.Proofs.Register
import Interlock.Register.Flag

/-!
# Transitions of a flag

Three requests may change a flag, and each of them reports in its own way whether it has: raising
and lowering by their success, replacing by the previous bit. What they report is what happens
(`Does.reported?_eq`): a call reports a transition if and only if the flag is not what it was. Hence
the transitions that are reported take turns (`alternates_of_serial`), and their difference is that
of the flag (`balance_of_serial`).
-/

namespace Interlock.Flag

open Register

/-- A request that may change a flag. -/
inductive Request where
  | raise
  | lower
  | replace (bit : Bool)

/-- The program that serves a request. -/
def Request.program : Request → Action Bool
  | raise => Flag.raise
  | lower => Flag.lower
  | replace bit => Flag.replace bit

/-- The program that serves a request and tells which one it has served. -/
def Request.labelled (request : Request) : Action (Request × Bool) :=
  (fun answer => (request, answer)) <$> request.program

/-- The request in one piece: what it answers when it finds the bit `held`, and the bit that it
leaves. -/
def Does (held : Bool) (served : Request × Bool) (left : Bool) : Prop :=
  match served.1 with
  | .raise => served.2 = !held ∧ left = true
  | .lower => served.2 = held ∧ left = false
  | .replace bit => served.2 = held ∧ left = bit

/-- The transition that a call reports, by the bit that the flag has become: a successful call to
raise or lower it has done so, and one that replaces it has if the previous bit was another one. -/
def reported? : Request × Bool → Option Bool
  | (.raise, true) | (.replace true, false) => some true
  | (.lower, true) | (.replace false, true) => some false
  | _ => none

theorem Request.indivisible (request : Request) :
    Indivisible (fun held answer left => Does held (request, answer) left) request.program := by
  cases request with
  | raise => exact .call fun held => by cases held <;> exact ⟨rfl, rfl⟩
  | lower => exact .call fun held => by cases held <;> exact ⟨rfl, rfl⟩
  | replace bit => exact .call fun _ => ⟨rfl, rfl⟩

section Serial

variable {start held left : Bool} {served : List (Request × Bool)} {call : Request × Bool}

/-- A call reports the transition that it has made, and none if it has made none. -/
theorem Does.reported?_eq (does : Does held call left) :
    reported? call = if left = held then none else some left := by
  obtain ⟨request, answer⟩ := call
  cases request with
  | raise =>
    obtain ⟨rfl, rfl⟩ := does
    cases held <;> rfl
  | lower =>
    obtain ⟨rfl, rfl⟩ := does
    cases answer <;> rfl
  | replace bit =>
    obtain ⟨rfl, rfl⟩ := does
    cases answer <;> cases left <;> rfl

/-- A call leaves the flag alone and reports nothing, or turns it and reports that. -/
theorem Does.cases (does : Does held call left) :
    reported? call = none ∧ left = held ∨ reported? call = some left ∧ left = !held := by
  have reported := does.reported?_eq
  by_cases same : left = held
  · exact .inl ⟨reported.trans (if_pos same), same⟩
  · exact .inr ⟨reported.trans (if_neg same), Bool.eq_not_of_ne same⟩

/-- The reported transitions take turns, and the last one has made the flag what it is. -/
theorem alternates_of_serial (serial : Serial Does start served left) :
    (start :: served.filterMap reported?).IsChain (· ≠ ·) ∧
      (start :: served.filterMap reported?).getLast? = some left := by
  induction served generalizing start with
  | nil =>
    cases serial
    exact ⟨.singleton _, rfl⟩
  | cons first rest ih =>
    obtain ⟨middle, does, serial⟩ := serial
    obtain ⟨turns, last⟩ := ih serial
    rcases does.cases with ⟨silent, rfl⟩ | ⟨reports, rfl⟩
    · rw [List.filterMap_cons_none silent]
      exact ⟨turns, last⟩
    · rw [List.filterMap_cons_some reports]
      refine ⟨.cons_cons ?_ turns, List.getLast?_cons_cons.trans last⟩
      simp

/-- More transitions up than down have been reported by as much as the flag is higher. -/
theorem balance_of_serial (serial : Serial Does start served left) :
    (served.countP (fun call => reported? call = some true) : Int) -
        served.countP (fun call => reported? call = some false) = left.toInt - start.toInt := by
  induction served generalizing start with
  | nil =>
    cases serial
    exact (Int.sub_self _).symm
  | cons first rest ih =>
    obtain ⟨middle, does, serial⟩ := serial
    have later := ih serial
    rw [List.countP_cons, List.countP_cons]
    rcases does.cases with ⟨silent, rfl⟩ | ⟨reports, turned⟩
    · simpa [silent] using later
    · cases start <;> subst turned <;> simp [reports] at later ⊢ <;> omega

/-- A flag that was up and is down has been lowered by a call that reports it. -/
theorem exists_lowering (serial : Serial Does true served false) :
    ∃ call ∈ served, reported? call = some false := by
  induction served with
  | nil => cases serial
  | cons first rest ih =>
    obtain ⟨middle, does, serial⟩ := serial
    rcases does.cases with ⟨-, rfl⟩ | ⟨reports, rfl⟩
    · obtain ⟨call, member, reports⟩ := ih serial
      exact ⟨call, List.mem_cons_of_mem _ member, reports⟩
    · exact ⟨first, List.mem_cons_self, reports⟩

/-- Between two calls that have raised the flag, another one has lowered it. -/
theorem exists_lowering_between {before between after : List (Request × Bool)}
    (serial : Serial Does start
      (before ++ (.raise, true) :: (between ++ (.raise, true) :: after)) left) :
    ∃ call ∈ between, reported? call = some false := by
  obtain ⟨_, -, _, first, serial⟩ := serial.of_append
  obtain ⟨found, serial, _, second, -⟩ := serial.of_append
  obtain ⟨-, rfl⟩ := first
  obtain ⟨was_down, -⟩ := second
  obtain rfl : found = false := by simpa using was_down
  exact exists_lowering serial

end Serial

/-- Threads raise, lower and replace a flag that they share. In the order in which the calls take
effect the transitions that they report take turns, beginning with the one away from the first bit
and ending with the one to the last bit, so that those up and those down differ by as much as these
two bits; and between two calls that have raised the flag another one has lowered it. A call takes
effect with the access that answers it, and reports a transition if and only if this access makes
one. -/
theorem transitions_accounted {initial : Bool} {u : System (shared Bool) (Request × Bool)}
    {results : List (Nat × Request × Bool)}
    (reached : System.Reaches (O := shared Bool)
      (fun _ program => ∃ request : Request, program = request.labelled)
      { state := initial } u results) :
    ((results.map Prod.snd).countP (fun call => reported? call = some true) : Int) -
        (results.map Prod.snd).countP (fun call => reported? call = some false) =
          Bool.toInt u.state - initial.toInt ∧
      (initial :: (results.map Prod.snd).filterMap reported?).IsChain (· ≠ ·) ∧
      (initial :: (results.map Prod.snd).filterMap reported?).getLast? = some u.state ∧
      (∀ before between after,
        results.map Prod.snd =
            before ++ (.raise, true) :: (between ++ (.raise, true) :: after) →
          ∃ call ∈ between, reported? call = some false) ∧
      ∀ {t : Nat} {chance : Chance} {v : System (shared Bool) (Request × Bool)}
        {outcome : Option (Request × Bool)}, u.step t chance = some (v, outcome) →
        outcome = none ∧ v.state = u.state ∨
          ∃ call, outcome = some call ∧
            reported? call = if v.state = u.state then none else some v.state := by
  have indivisible : ∀ (t : Nat) (program : Action (Request × Bool)),
      (∃ request : Request, program = request.labelled) → Indivisible Does program := by
    rintro t program ⟨request, rfl⟩
    exact request.indivisible.map fun does => does
  have serial : Serial Does initial (results.map Prod.snd) u.state :=
    Indivisible.serial indivisible reached
  obtain ⟨turns, last⟩ := alternates_of_serial serial
  refine ⟨balance_of_serial serial, turns, last, ?_, ?_⟩
  · intro before between after told
    rw [told] at serial
    exact exists_lowering_between serial
  · intro t chance v outcome moves
    refine (Indivisible.does indivisible reached moves).imp_right ?_
    rintro ⟨call, answered, does⟩
    exact ⟨call, answered, does.reported?_eq⟩

/-- A flag that is down, and four threads that are about to turn it. -/
def contenders : System (shared Bool) (Request × Bool) :=
  let s : System (shared Bool) (Request × Bool) := { state := false }
  let s := (s.assign 0 Request.raise.labelled).1
  let s := (s.assign 1 Request.raise.labelled).1
  let s := (s.assign 2 (Request.replace false).labelled).1
  (s.assign 3 (Request.replace true).labelled).1

/-- The second thread raises the flag before the first one can, which fails; the third one takes it
down unnoticed by both, and the fourth one puts it up again. -/
def contest : System (shared Bool) (Request × Bool) × List (Nat × Request × Bool) :=
  contenders.steps [] [(1, {}), (0, {}), (2, {}), (3, {})]

theorem transitions_accounted_contest :
    contest.2 = [(1, .raise, true), (0, .raise, false), (2, .replace false, true),
      (3, .replace true, false)] ∧
      ((contest.2.map Prod.snd).countP (fun call => reported? call = some true) : Int) -
        (contest.2.map Prod.snd).countP (fun call => reported? call = some false) = 1 ∧
      contest.1.state = true := by
  have begun : System.Reaches (O := shared Bool)
      (fun _ program => ∃ request : Request, program = request.labelled)
      { state := false } contenders [] :=
    .assign 3 _ (.assign 2 _ (.assign 1 _ (.assign 0 _ .start rfl ⟨_, rfl⟩) rfl ⟨_, rfl⟩)
      rfl ⟨_, rfl⟩) rfl ⟨_, rfl⟩
  exact ⟨rfl, (transitions_accounted (begun.steps _)).1, rfl⟩

end Interlock.Flag

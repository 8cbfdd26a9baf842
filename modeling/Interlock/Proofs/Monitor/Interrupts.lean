import Interlock.Proofs.Monitor.Mail
import Mathlib.Data.List.Chain

/-!
# Interrupts and the waits that they end

A wait that sees an interrupt does not take it at once: it first returns to the lock, and other
interrupts may come meanwhile. `Heed` tells how far a wait has come in this, `Heed.Moves` what one
access does to it. A wait that has seen an interrupt still finds one when it is back on the lock,
since only its own thread can take it. From this every wait ends as cancelled if and only if it has
taken an interrupt itself, and it takes one at most (`reports_of_ended`).

What the cancelled wait is told is the message of the latest interrupt if the two accesses of an
interrupt, and the two of taking one, are never apart (`Whole`).
-/

namespace Interlock.Monitor

variable {V β : Type}

/-- How a wait stands to the interrupts of its thread. -/
inductive Heed where
  /-- There is no wait, or it is about to look for an interrupt on entry. -/
  | outside
  /-- It has not seen an interrupt. -/
  | calm
  /-- It has seen an interrupt and not yet taken it. -/
  | alert
  /-- It has cleared the flag of an interrupt. -/
  | taken
  /-- It is decided how the wait ends. -/
  | settled (result : Except Fault Ending)

/-- How a wait stands to the interrupts of its thread. -/
def Waiting.heed : Waiting → Heed
  | entering _ .clearing => .outside
  | entering _ .fetching | consuming _ _ .fetching => .taken
  | withdrawing _ _ true | returning _ true _ _ | consuming _ _ .clearing => .alert
  | passing _ result | handing _ _ result => .settled result
  | _ => .calm

/-- How a wait that has taken an access stands then, or how it has ended. -/
def heedOf : Progress Waiting (Except Fault Ending) → Progress Heed (Except Fault Ending)
  | .ongoing wait => .ongoing wait.heed
  | .finished result => .finished result

/-- What one access of a wait does to how the wait stands. `box` is the mailbox of its thread before
the access, and `clears` tells whether the access clears a flag that is set. -/
inductive Heed.Moves (box : Mailbox) :
    Heed → (clears : Bool) → Progress Heed (Except Fault Ending) → Prop where
  | begins (still : ¬ box.pending) : Moves box outside false (.ongoing calm)
  | finds (flag : box.pending) : Moves box outside true (.ongoing taken)
  | refuses :
    Moves box taken false
      (.finished (.error (.cancelled (box.message.getD Mailbox.defaultMessage))))
  | watches : Moves box calm false (.ongoing calm)
  | sees (flag : box.pending) : Moves box calm false (.ongoing alert)
  | returns : Moves box alert false (.ongoing alert)
  | takes (flag : box.pending) : Moves box alert true (.ongoing taken)
  | misses {next : Progress Heed (Except Fault Ending)} (still : ¬ box.pending) :
    Moves box alert false next
  | cancels :
    Moves box taken false
      (.ongoing (settled (.error (.cancelled (box.message.getD Mailbox.defaultMessage)))))
  | expires : Moves box calm false (.ongoing (settled (.ok .expired)))
  | succeeds : Moves box calm false (.finished (.ok .notified))
  | passes {result : Except Fault Ending} :
    Moves box (settled result) false (.ongoing (settled result))
  | ends {result : Except Fault Ending} : Moves box (settled result) false (.finished result)

/-- What an access of a wait does to how the wait stands. -/
theorem Waiting.advance_heed {t : Nat} {chance : Chance} {m m' : Monitor V} {wait : Waiting}
    {progress : Progress Waiting (Except Fault Ending)}
    (moves : wait.advance t chance m = some (m', progress)) :
    wait.heed.Moves (m.mailboxes.get t)
      (wait.taking? = some .clearing ∧ (m.mailboxes.get t).pending) (heedOf progress) := by
  cases wait with
  | entering timeout way =>
    cases way with
    | clearing =>
      by_cases flag : (m.mailboxes.get t).pending
      · rw [advance, Mailbox.Taking.advance, if_pos flag] at moves
        cases moves
        rw [decide_eq_true ⟨rfl, flag⟩]
        exact .finds flag
      · rw [advance, Mailbox.Taking.advance, if_neg flag] at moves
        rw [decide_eq_false fun both => flag both.2]
        cases timeout <;> cases moves <;> exact .begins flag
    | fetching =>
      cases moves
      exact .refuses
  | consuming node queued way =>
    cases way with
    | clearing =>
      by_cases flag : (m.mailboxes.get t).pending
      · rw [advance, Mailbox.Taking.advance, if_pos flag] at moves
        cases moves
        rw [decide_eq_true ⟨rfl, flag⟩]
        exact .takes flag
      · rw [decide_eq_false fun both => flag both.2]
        exact .misses flag
    | fetching =>
      cases moves
      exact .cancels
  | releasing node deadline lock =>
    simp only [advance] at moves
    split at moves <;> cases moves <;> exact .watches
  | watching node deadline levels glance =>
    cases glance with
    | park =>
      simp only [advance, Option.map_eq_some_iff] at moves
      obtain ⟨parked, -, moved⟩ := moves
      cases moved
      exact .watches
    | interrupt =>
      simp only [advance] at moves
      split at moves
      · cases moves
        exact .sees ‹_›
      · split at moves <;> cases moves <;> exact .watches
    | _ =>
      simp only [advance] at moves
      split at moves <;> cases moves <;> exact .watches
  | withdrawing node levels interrupted =>
    cases moves
    cases interrupted with
    | false => exact .watches
    | true => exact .returns
  | returning node interrupted queued lock =>
    simp only [advance] at moves
    split at moves
    · cases moves
    · cases moves
      cases interrupted with
      | false => exact .watches
      | true => exact .returns
    · cases interrupted with
      | true =>
        cases moves
        exact .returns
      | false =>
        cases queued with
        | true =>
          cases moves
          exact .expires
        | false =>
          cases moves
          exact .succeeds
  | passing node result =>
    simp only [advance] at moves
    split at moves <;> cases moves
    · exact .ends
    · exact .passes
  | handing node thread result =>
    cases moves
    exact .ends
  | dating | joining =>
    cases moves
    exact .watches

/-- Only on entry a wait has not begun yet. -/
theorem Waiting.heed_eq_outside {wait : Waiting} :
    wait.heed = .outside ↔ ∃ timeout, wait = entering timeout .clearing := by
  cases wait with
  | entering timeout way => cases way <;> simp [heed]
  | withdrawing node levels interrupted => cases interrupted <;> simp [heed]
  | returning node interrupted queued lock => cases interrupted <;> simp [heed]
  | consuming node queued way => cases way <;> simp [heed]
  | _ => simp [heed]

/-- A wait that has cleared its flag is about to take the message. -/
theorem Waiting.fetching_of_taken {wait : Waiting} (stands : wait.heed = .taken) :
    wait.taking? = some .fetching := by
  cases wait with
  | entering timeout way | consuming node queued way =>
    cases way with
    | clearing => cases stands
    | fetching => rfl
  | withdrawing node levels interrupted => cases interrupted <;> cases stands
  | returning node interrupted queued lock => cases interrupted <;> cases stands
  | _ => cases stands

/-- How the wait that a call is in stands. -/
def Stage.heed (stage : Stage V) : Heed :=
  stage.wait?.elim .outside Waiting.heed

/-- How the wait stands that thread `t` is in the middle of. -/
def standing (t : Nat) (trace : List (Turn (shared V))) : Heed :=
  (pending t trace).elim .outside Stage.heed

/-- The access is the first one of a wait. -/
def begins (a : Turn (shared V)) : Bool :=
  match a.stage.wait? with
  | some (.entering _ .clearing) => true
  | _ => false

/-- The texts of the interrupts that thread `t` has taken since it began its last wait: for each the
message of the latest interrupt before that, or the default message if it had none. -/
def consumed (t : Nat) : List (Turn (shared V)) → List String
  | [] => []
  | a :: older =>
    let now := if consumes t a then [(lastMessage t older).join.getD Mailbox.defaultMessage] else []
    if a.thread = t then now ++ if begins a then [] else consumed t older
    else consumed t older

/-- The texts that the result of a wait reports. -/
def reported : Except Fault Ending → List String
  | .error (.cancelled text) => [text]
  | _ => []

/-- An interrupt, or the taking of one, is half done. -/
def Stage.halfway (stage : Stage V) : Bool :=
  stage.taking? = some .fetching ∨ stage.raising?.any fun errand => errand.2 = .flagging

/-- The access leaves an interrupt, or the taking of one, half done. -/
def halfway (a : Turn (shared V)) : Bool :=
  a.progress.stage?.any Stage.halfway

/-- Interrupts are made, and taken, in one piece. -/
def Whole (trace : List (Turn (shared V))) : Prop :=
  trace.IsChain fun b a => halfway a → b.thread = a.thread

namespace Stage

variable {t : Nat} {chance : Chance} {m m' : Monitor V} {stage : Stage V}
  {progress : Progress (Stage V) (Reply V)}

theorem heed_ofCall (call : Call V) : (ofCall call).heed = .outside := by
  cases call with
  | waitUntil timeout condition => cases timeout <;> rfl
  | _ => rfl

/-- An access outside a wait leads to the beginning of one at most, and ends none. -/
theorem advance_outside (plain : stage.Plain) (apart : stage.wait? = none)
    (moves : stage.advance t chance m = some (m', progress)) :
    progress.stage?.elim .outside heed = .outside ∧ (stage.entry t chance m).ended = none := by
  cases stage with
  | identifying next =>
    cases moves
    rcases plain next rfl with rfl | ⟨lock, rfl⟩ <;> exact ⟨rfl, rfl⟩
  | waiting | pausing => cases apart
  | notifying all =>
    cases all <;> simp only [advance] at moves <;> split at moves <;> cases moves <;>
      exact ⟨rfl, rfl⟩
  | waking threads reply =>
    rcases threads with _ | ⟨_, _ | _⟩ <;> cases moves <;> exact ⟨rfl, rfl⟩
  | _ =>
    simp only [advance] at moves
    repeat' split at moves
    all_goals cases moves
    all_goals exact ⟨rfl, rfl⟩

theorem taking?_of_wait? {wait : Waiting} (waits : stage.wait? = some wait) :
    stage.taking? = wait.taking? := by
  cases stage with
  | waiting | pausing =>
    cases waits
    rfl
  | _ => cases waits

end Stage

theorem begins_iff {a : Turn (shared V)} :
    begins a ↔ ∃ wait, a.stage.wait? = some wait ∧ wait.heed = .outside := by
  unfold begins
  cases waits : a.stage.wait? with
  | none => simp
  | some wait =>
    simp only [Option.some.injEq, exists_eq_left', Waiting.heed_eq_outside]
    split
    · rename_i timeout entering
      exact iff_of_true rfl ⟨timeout, Option.some.inj entering⟩
    · rename_i other
      refine iff_of_false Bool.false_ne_true ?_
      rintro ⟨timeout, rfl⟩
      exact other timeout rfl

theorem standing_eq (t : Nat) (trace : List (Turn (shared V))) :
    standing t trace = ((pending t trace).bind Stage.wait?).elim .outside Waiting.heed := by
  rw [standing]
  cases pending t trace <;> rfl

theorem standing_cons_of_ne {t : Nat} {a : Turn (shared V)} {older : List (Turn (shared V))}
    (other : a.thread ≠ t) : standing t (a :: older) = standing t older := by
  rw [standing, standing, pending_cons_of_ne other]

section Access

variable {allowed : Nat → (shared V).Action β → Prop} {value : V} {settings : Settings}
  {v : System (shared V) β} {a : Turn (shared V)} {older : List (Turn (shared V))}
  (run : System.Run allowed { state := Monitor.new value settings } v older)
  (here : v.stage? a.thread = some a.stage) (taken : a.Taken)
include run here

theorem standing_of_stage : standing a.thread older = a.stage.heed := by
  rcases run.pending_or_enters (System.stage?_start _) here with left | ⟨left, call, entered⟩
  · rw [standing, left]
    rfl
  · rw [standing, left, entered]
    exact (Stage.heed_ofCall call).symm

theorem standing_of_wait {wait : Waiting} (waits : a.stage.wait? = some wait) :
    standing a.thread older = wait.heed := by
  rw [standing_of_stage run here, Stage.heed, waits]
  rfl

include taken

theorem standing_apart (apart : a.stage.wait? = none) :
    standing a.thread older = .outside ∧ standing a.thread (a :: older) = .outside ∧
      (entry a).ended = none := by
  obtain ⟨outside, ended⟩ := Stage.advance_outside (plain_of_run run here) apart taken
  refine ⟨?_, ?_, ended⟩
  · rw [standing_of_stage run here, Stage.heed, apart]
    rfl
  · rw [standing, pending_cons_self]
    exact outside

/-- An access of a wait changes how the wait stands, or ends it. -/
theorem standing_moves {wait : Waiting} (waits : a.stage.wait? = some wait) :
    (∃ next, (standing a.thread older).Moves (a.before.mailboxes.get a.thread)
        (consumes a.thread a) (.ongoing next) ∧
      standing a.thread (a :: older) = next ∧ (entry a).ended = none) ∨
    ∃ node? result, (standing a.thread older).Moves (a.before.mailboxes.get a.thread)
        (consumes a.thread a) (.finished result) ∧
      standing a.thread (a :: older) = .outside ∧ (entry a).ended = some (node?, result) := by
  obtain ⟨after, moved, enters, next⟩ := Stage.advance_wait waits taken
  have moves := Waiting.advance_heed moved
  have before := standing_of_wait run here waits
  have clears : consumes a.thread a = decide (wait.taking? = some .clearing ∧
      (a.before.mailboxes.get a.thread).pending) := by
    simp [consumes, Stage.taking?_of_wait? waits]
  have since : standing a.thread (a :: older) = after.stage?.elim .outside Waiting.heed := by
    rw [standing_eq, pending_cons_self, next]
  rw [before, clears, since]
  have ended : (entry a).ended = (wait.entry a.before.waiters after).ended :=
    congrArg Entry.ended enters
  rw [ended]
  cases after with
  | ongoing wait' => exact Or.inl ⟨wait'.heed, moves, rfl, rfl⟩
  | finished result => exact Or.inr ⟨wait.phase.node?, result, moves, rfl, rfl⟩

end Access

section Trace

variable {t : Nat} {a : Turn (shared V)} {older trace : List (Turn (shared V))} {stage : Stage V}

theorem Stage.halfway_of_fetching (fetching : stage.taking? = some .fetching) : stage.halfway := by
  simp [halfway, fetching]

theorem Stage.halfway_of_flagging : (raising t .flagging : Stage V).halfway := by
  simp [halfway, raising?]

theorem Whole.tail (whole : Whole (a :: older)) : Whole older :=
  List.IsChain.tail whole

/-- What is half done was begun with the last access of all. -/
theorem Whole.last_of_halfway (whole : Whole trace) (left : pending t trace = some stage)
    (half : stage.halfway) : ∃ a older, trace = a :: older ∧ a.thread = t ∧ halfway a := by
  obtain ⟨newer, a, older, rfl, mine, others, ongoing⟩ := exists_of_pending left
  have halfway_a : halfway a := by simpa [halfway, ongoing, Progress.stage?] using half
  rcases List.eq_nil_or_concat newer with rfl | ⟨init, c, rfl⟩
  · exact ⟨a, older, rfl, mine, halfway_a⟩
  · rw [List.concat_eq_append, List.append_assoc] at whole
    have next := (List.isChain_append_cons_cons.mp whole).2.1 halfway_a
    exact absurd (next.trans mine) (others c (by simp))

/-- Nobody comes between the two accesses of what is half done. -/
theorem Whole.mine (whole : Whole (a :: older)) (left : pending t older = some stage)
    (half : stage.halfway) : a.thread = t := by
  obtain ⟨b, before, rfl, mine, halfway_b⟩ := whole.tail.last_of_halfway left half
  exact ((List.isChain_cons_cons.mp whole).1 halfway_b).trans mine

end Trace

/-- What the mailboxes hold if interrupts are made and taken in one piece. -/
structure Undivided (m : Monitor V) (trace : List (Turn (shared V))) : Prop where
  /-- An interrupt that comes has the message that was written last. -/
  latest : ∀ t, Arriving t m trace → lastMessage t trace = some (m.mailboxes.get t).message
  /-- Between the two accesses of taking an interrupt no other one comes. -/
  cleared : ∀ t stage, pending t trace = some stage → stage.taking? = some .fetching →
    ¬ (m.mailboxes.get t).pending

section Access

variable {allowed : Nat → (shared V).Action β → Prop} {value : V} {settings : Settings}
  {u v : System (shared V) β} {t : Nat} {a : Turn (shared V)}
  {trace newer older : List (Turn (shared V))}

theorem fetches_false_of_arriving (undivided : Undivided a.before older)
    (run : System.Run allowed { state := Monitor.new value settings } v older)
    (here : v.stage? a.thread = some a.stage) (whole : Whole older)
    (arriving : Arriving t a.before older) : fetches t a = false := by
  rw [← Bool.not_eq_true, fetches_iff]
  rintro ⟨rfl, fetching⟩
  have left := run.pending_of_stage? (System.stage?_start _) here
    (Stage.ne_ofCall_of_fetching fetching)
  rcases arriving with flag | ⟨r, flagging⟩
  · exact undivided.cleared a.thread a.stage left fetching flag
  · obtain ⟨b, before, rfl, mine, -⟩ :=
      whole.last_of_halfway left (Stage.halfway_of_fetching fetching)
    obtain ⟨c, before', same, also, -⟩ :=
      whole.last_of_halfway flagging Stage.halfway_of_flagging
    obtain ⟨rfl, -⟩ := List.cons.inj same
    rw [← also, mine, left] at flagging
    rw [Option.some.inj flagging] at fetching
    cases fetching

/-- Every access keeps what the mailboxes hold. -/
theorem Undivided.access (undivided : Undivided a.before older)
    (run : System.Run allowed { state := Monitor.new value settings } v older)
    (here : v.stage? a.thread = some a.stage) (taken : a.Taken) (whole : Whole (a :: older)) :
    Undivided a.after (a :: older) := by
  refine ⟨fun t arriving => ?_, fun t stage left fetching => ?_⟩
  · rw [message_after taken, lastMessage, List.findSome?_cons]
    cases writes : written? t a with
    | some message => rfl
    | none =>
      have before := arriving.before run here taken writes
      rw [fetches_false_of_arriving undivided run here whole.tail before]
      exact undivided.latest t before
  · rcases consumes_or_fetching run here taken left fetching with clears | ⟨other, before⟩
    · obtain ⟨-, clearing, -⟩ := consumes_iff.mp clears
      have silent : raises t a = false := by
        rw [raises, decide_eq_false_iff_not]
        intro flags
        rw [Stage.taking?_of_raising? flags] at clearing
        cases clearing
      simp [pending_after taken, clears, silent]
    · exact absurd (whole.mine before (Stage.halfway_of_fetching fetching)) other

theorem undivided_of_run
    (run : System.Run allowed { state := Monitor.new value settings } u trace)
    (whole : Whole trace) : Undivided u.state trace := by
  revert whole
  refine run.accesses_induction
    (I := fun (m : Monitor V) trace => Whole trace → Undivided m trace) ?start ?takes ?elapses
  case start =>
    intro _
    refine ⟨fun t arriving => ?_, nofun⟩
    rcases arriving with flag | ⟨r, left⟩
    · rw [Monitor.new, Table.get_empty] at flag
      cases flag
    · cases left
  case takes =>
    intro v older a run_v _ here taken ih whole
    exact (ih whole.tail).access run_v here taken whole
  case elapses => exact fun _ ih whole => ⟨(ih whole).latest, (ih whole).cleared⟩

end Access

/-- A result tells of as many interrupts as a wait has taken, and of the very texts if interrupts are
made and taken in one piece. -/
def Reports (texts : List String) (whole : Prop) (result : Except Fault Ending) : Prop :=
  texts.length = (reported result).length ∧ (whole → texts = reported result)

namespace Heed

/-- What is known of the mailbox and of the texts that a wait has taken. -/
def Tells (box : Mailbox) (texts : List String) (whole : Prop) : Heed → Prop
  | outside => True
  | calm => texts = []
  | alert => texts = [] ∧ box.pending
  | taken =>
    texts.length = 1 ∧ (whole → texts = [box.message.getD Mailbox.defaultMessage])
  | settled result => Reports texts whole result

/-- What is known after an access of the wait. -/
def Told (box : Mailbox) (texts : List String) (whole : Prop) :
    Progress Heed (Except Fault Ending) → Prop
  | .ongoing heed => heed.Tells box texts whole
  | .finished result => Reports texts whole result

/-- The wait has taken an interrupt. -/
def Decided : Heed → Prop
  | taken | settled (.error (.cancelled _)) => True
  | _ => False

/-- The wait has seen an interrupt. -/
def Heeds (heed : Heed) : Prop :=
  heed = alert ∨ heed.Decided

/-- A wait of which this holds ends as cancelled, and it holds of the wait until then. -/
def Closed (P : Heed → Prop) : Prop :=
  ¬ P outside ∧ ∀ {heed box clears next texts whole}, heed.Moves box clears next →
    heed.Tells box texts whole → P heed →
      (∀ heed', next = .ongoing heed' → P heed') ∧
        ∀ result, next = .finished result → ∃ text, result = .error (.cancelled text)

variable {h : Heed} {box box' : Mailbox} {clears first : Bool} {text : String}
  {texts : List String} {whole whole' : Prop} {next : Progress Heed (Except Fault Ending)}

theorem Moves.told (moves : h.Moves box clears next) (tells : h.Tells box texts whole)
    (opens : first = true ↔ h = outside) (weaker : whole' → whole)
    (flag : clears = false → box.pending → box'.pending)
    (message : clears = true → whole' →
      text = box'.message.getD Mailbox.defaultMessage) :
    Told box' ((if clears then [text] else []) ++ if first then [] else texts) whole' next := by
  have carried : h ≠ outside → (if first then [] else texts) = texts :=
    fun inside => if_neg (mt opens.mp inside)
  cases moves with
  | begins => simp [Told, Tells, opens.mpr rfl]
  | finds =>
    rw [opens.mpr rfl]
    exact ⟨rfl, fun all => congrArg (fun text => [text]) (message rfl all)⟩
  | watches =>
    rw [carried nofun]
    exact tells
  | sees set =>
    rw [carried nofun]
    exact ⟨tells, flag rfl set⟩
  | returns =>
    rw [carried nofun]
    exact ⟨tells.1, flag rfl tells.2⟩
  | takes =>
    rw [carried nofun, tells.1]
    exact ⟨rfl, fun all => congrArg (fun text => [text]) (message rfl all)⟩
  | misses still => exact absurd tells.2 still
  | expires | succeeds =>
    have none_yet : texts = [] := tells
    rw [carried nofun, none_yet]
    exact ⟨rfl, fun _ => rfl⟩
  | refuses | cancels | passes | ends =>
    rw [carried nofun]
    exact ⟨tells.1, fun all => tells.2 (weaker all)⟩

theorem closed_decided : Closed Decided := by
  refine ⟨id, fun moves _ decided => ?_⟩
  cases moves with
  | refuses | cancels => simp [Decided]
  | @passes result | @ends result =>
    rcases result with (_ | _ | _ | _) | _ <;> simp_all [Decided]
  | _ => exact decided.elim

theorem closed_heeds : Closed Heeds := by
  refine ⟨by simp [Heeds, Decided], fun moves tells heeds => ?_⟩
  rcases heeds with rfl | decided
  · cases moves with
    | returns | takes => simp [Heeds, Decided]
    | misses still => exact absurd tells.2 still
  · obtain ⟨goes_on, ends⟩ := closed_decided.2 moves tells decided
    exact ⟨fun heed' next => Or.inr (goes_on heed' next), ends⟩

end Heed

section Run

variable {allowed : Nat → (shared V).Action β → Prop} {value : V} {settings : Settings}
  {u v : System (shared V) β} {t : Nat} {a : Turn (shared V)}
  {trace newer older : List (Turn (shared V))} {node? : Option Nat} {result : Except Fault Ending}

/-- What is known of how thread `t` stands to its interrupts. -/
def Tells (t : Nat) (m : Monitor V) (trace : List (Turn (shared V))) : Prop :=
  (standing t trace).Tells (m.mailboxes.get t) (consumed t trace) (Whole trace)

theorem consumed_cons_of_ne (other : a.thread ≠ t) :
    consumed t (a :: older) = consumed t older := by
  rw [consumed, if_neg other]

theorem consumed_cons_self : consumed a.thread (a :: older) =
    (if consumes a.thread a
      then [(lastMessage a.thread older).join.getD Mailbox.defaultMessage] else []) ++
    if begins a then [] else consumed a.thread older := by
  rw [consumed, if_pos rfl]

theorem not_consumes_of_ne (other : a.thread ≠ t) : consumes t a = false := by
  rw [← Bool.not_eq_true, consumes_iff]
  exact fun clears => other clears.1

/-- A flag that the access does not clear stays set. -/
theorem pending_kept (taken : a.Taken) (keeps : consumes t a = false)
    (flag : (a.before.mailboxes.get t).pending) : (a.after.mailboxes.get t).pending := by
  simp [pending_after taken, keeps, flag]

/-- A thread that has cleared its flag is about to take the message. -/
theorem fetching_of_standing (stands : standing t trace = .taken) :
    ∃ stage, pending t trace = some stage ∧ stage.taking? = some .fetching := by
  rw [standing_eq] at stands
  cases waits : (pending t trace).bind Stage.wait? with
  | none =>
    rw [waits] at stands
    cases stands
  | some wait =>
    rw [waits] at stands
    obtain ⟨stage, left, waits⟩ := Option.bind_eq_some_iff.mp waits
    refine ⟨stage, left, ?_⟩
    rw [Stage.taking?_of_wait? waits]
    exact Waiting.fetching_of_taken stands

/-- An access of another thread keeps what is known. -/
theorem Tells.other (tells : Tells t a.before older) (taken : a.Taken) (other : a.thread ≠ t) :
    Tells t a.after (a :: older) := by
  unfold Tells at tells ⊢
  rw [standing_cons_of_ne other, consumed_cons_of_ne other]
  cases stands : standing t older with
  | outside => trivial
  | calm =>
    rw [stands] at tells
    exact tells
  | alert =>
    rw [stands] at tells
    exact ⟨tells.1, pending_kept taken (not_consumes_of_ne other) tells.2⟩
  | taken =>
    rw [stands] at tells
    refine ⟨tells.1, fun whole => ?_⟩
    obtain ⟨stage, left, fetching⟩ := fetching_of_standing stands
    exact absurd (whole.mine left (Stage.halfway_of_fetching fetching)) other
  | settled result =>
    rw [stands] at tells
    exact ⟨tells.1, fun whole => tells.2 whole.tail⟩

/-- What is known after an access of a wait. -/
theorem Tells.told {next : Progress Heed (Except Fault Ending)} {wait : Waiting}
    (tells : Tells a.thread a.before older)
    (run : System.Run allowed { state := Monitor.new value settings } v older)
    (same : v.state = a.before) (here : v.stage? a.thread = some a.stage) (taken : a.Taken)
    (waits : a.stage.wait? = some wait)
    (moves : (standing a.thread older).Moves (a.before.mailboxes.get a.thread)
      (consumes a.thread a) next) :
    Heed.Told (a.after.mailboxes.get a.thread) (consumed a.thread (a :: older))
      (Whole (a :: older)) next := by
  rw [consumed_cons_self]
  refine moves.told tells ?opens Whole.tail (fun keeps => pending_kept taken keeps) ?message
  case opens =>
    rw [begins_iff, waits, standing_of_wait run here waits]
    simp
  case message =>
    intro clears whole
    obtain ⟨-, clearing, flag⟩ := consumes_iff.mp clears
    have undivided := undivided_of_run run whole.tail
    rw [same] at undivided
    have arriving : Arriving a.thread a.before older := Or.inl flag
    have silent : written? a.thread a = none := by
      unfold written?
      cases raising : a.stage.raising? with
      | none => rfl
      | some errand =>
        rw [Stage.taking?_of_raising? raising] at clearing
        cases clearing
    rw [undivided.latest a.thread arriving, message_after taken, silent,
      fetches_false_of_arriving undivided run here whole.tail arriving]
    rfl

theorem tells_of_run
    (run : System.Run allowed { state := Monitor.new value settings } u trace) :
    Tells t u.state trace := by
  refine run.accesses_induction (I := fun (m : Monitor V) trace => Tells t m trace)
    ?start ?takes ?elapses
  case start => trivial
  case takes =>
    intro v older a run_v same here taken ih
    by_cases other : a.thread ≠ t
    · exact ih.other taken other
    obtain rfl : a.thread = t := not_not.mp other
    cases waits : a.stage.wait? with
    | none =>
      obtain ⟨-, outside, -⟩ := standing_apart run_v here taken waits
      rw [Tells, outside]
      trivial
    | some wait =>
      rcases standing_moves run_v here taken waits with
        ⟨next, moves, since, -⟩ | ⟨node?, result, -, outside, -⟩
      · rw [Tells, since]
        exact ih.told run_v same here taken waits moves
      · rw [Tells, outside]
        trivial
  case elapses => exact fun _ ih => ih

/-- A wait ends with as many interrupts reported as it has taken. -/
theorem reports_of_ended
    (run : System.Run allowed { state := Monitor.new value settings } u (a :: older))
    (ended : (entry a).ended = some (node?, result)) :
    Reports (consumed a.thread (a :: older)) (Whole (a :: older)) result := by
  obtain ⟨v, run_v, same, here, taken⟩ := run.at_access
  have tells : Tells a.thread v.state older := tells_of_run run_v
  rw [same] at tells
  cases waits : a.stage.wait? with
  | none =>
    rw [(standing_apart run_v here taken waits).2.2] at ended
    cases ended
  | some wait =>
    rcases standing_moves run_v here taken waits with
      ⟨next, -, -, goes_on⟩ | ⟨node', result', moves, -, ends⟩
    · rw [goes_on] at ended
      cases ended
    · rw [ends] at ended
      cases ended
      exact tells.told run_v same here taken waits moves

/-- How the wait ends that thread `t` is in the middle of, if it ends with one of the accesses. -/
def ending? (t : Nat) : List (Turn (shared V)) → Option (Except Fault Ending)
  | [] => none
  | a :: earlier =>
    (ending? t earlier).or (if a.thread = t then (entry a).ended.map (·.2) else none)

/-- If the wait ends that thread `t` is in the middle of, it ends as cancelled. -/
def EndsCancelled (t : Nat) (newer : List (Turn (shared V))) : Prop :=
  ∀ result, ending? t newer = some result → ∃ text, result = .error (.cancelled text)

/-- A wait that is bound to be cancelled is cancelled if it ends. -/
theorem ends_of_closed {P : Heed → Prop} (closed : Heed.Closed P)
    (run : System.Run allowed { state := Monitor.new value settings } u (newer ++ older))
    (bound : P (standing t older)) :
    (ending? t newer = none → P (standing t (newer ++ older))) ∧ EndsCancelled t newer := by
  induction newer generalizing u with
  | nil => exact ⟨fun _ => bound, nofun⟩
  | cons a newer ih =>
    rw [List.cons_append] at run ⊢
    obtain ⟨v, run_v, same, here, taken⟩ := run.at_access
    obtain ⟨goes_on, ends⟩ := ih run_v
    unfold EndsCancelled at ends ⊢
    rw [ending?]
    cases before : ending? t newer with
    | some result => exact ⟨nofun, fun result' told => ends result' (before.trans told)⟩
    | none =>
      have bound := goes_on before
      rw [Option.none_or]
      by_cases mine : a.thread = t
      · subst mine
        rw [if_pos rfl]
        cases waits : a.stage.wait? with
        | none =>
          rw [(standing_apart run_v here taken waits).1] at bound
          exact absurd bound closed.1
        | some wait =>
          have tells : Tells a.thread v.state (newer ++ older) := tells_of_run run_v
          rw [same] at tells
          rcases standing_moves run_v here taken waits with
            ⟨next, moves, since, ended⟩ | ⟨node?, result, moves, -, ended⟩
          · rw [since, ended]
            exact ⟨fun _ => (closed.2 moves tells bound).1 next rfl, nofun⟩
          · rw [ended]
            refine ⟨nofun, fun result' told => ?_⟩
            obtain rfl : result = result' := Option.some.inj told
            exact (closed.2 moves tells bound).2 result rfl
      · rw [if_neg mine, standing_cons_of_ne mine]
        exact ⟨fun _ => bound, nofun⟩

/-- Nothing blocks a wait that has taken an interrupt. -/
theorem Waiting.isSome_advance {wait : Waiting} (decided : wait.heed.Decided) (chance : Chance)
    (m : Monitor V) : (wait.advance t chance m).isSome := by
  cases wait with
  | entering timeout way =>
    cases way with
    | clearing => exact decided.elim
    | fetching => rfl
  | consuming node queued way =>
    cases way with
    | clearing => exact decided.elim
    | fetching => rfl
  | withdrawing node levels interrupted => cases interrupted <;> exact decided.elim
  | returning node interrupted queued lock => cases interrupted <;> exact decided.elim
  | passing node result =>
    simp only [advance]
    split <;> rfl
  | handing node thread result => rfl
  | _ => exact decided.elim

/-- A wait that clears the flag of an interrupt has taken it. -/
theorem standing_of_consumes
    (run : System.Run allowed { state := Monitor.new value settings } v older)
    (here : v.stage? a.thread = some a.stage) (taken : a.Taken) {wait : Waiting}
    (waits : a.stage.wait? = some wait) (clears : consumes a.thread a) :
    standing a.thread (a :: older) = .taken := by
  rcases standing_moves run here taken waits with
    ⟨next, moves, since, -⟩ | ⟨node?, result, moves, -, -⟩
  · rw [since]
    rw [clears] at moves
    generalize standing a.thread older = heed at moves
    cases moves <;> rfl
  · rw [clears] at moves
    generalize standing a.thread older = heed at moves
    cases moves

/-- The wait that thread `t` is in the middle of ends as cancelled, and nothing blocks it until
then. -/
structure Cancels (u : System (shared V) β) (t : Nat) (newer : List (Turn (shared V))) : Prop where
  ends : EndsCancelled t newer
  moves : ending? t newer = none →
    ∃ stage, u.stage? t = some stage ∧ ∀ chance, (stage.advance t chance u.state).isSome

theorem cancels_of_taken
    (run : System.Run allowed { state := Monitor.new value settings } u (newer ++ older))
    (stands : standing t older = .taken) : Cancels u t newer := by
  have decided : (standing t older).Decided := by
    rw [stands]
    trivial
  obtain ⟨goes_on, ends⟩ := ends_of_closed Heed.closed_decided run decided
  refine ⟨ends, fun still => ?_⟩
  have decided := goes_on still
  unfold standing at decided
  cases left : pending t (newer ++ older) with
  | none =>
    rw [left] at decided
    exact decided.elim
  | some stage =>
    rw [left] at decided
    refine ⟨stage, (run.stage?_eq (System.stage?_start _) t).1 stage left, fun chance => ?_⟩
    change (stage.wait?.elim .outside Waiting.heed).Decided at decided
    cases stage with
    | waiting wait | pausing deadline condition tests wait =>
      obtain ⟨⟨m, progress⟩, moved⟩ :=
        Option.isSome_iff_exists.mp (Waiting.isSome_advance decided chance u.state)
      rw [Stage.advance, moved]
      cases progress with
      | ongoing wait => rfl
      | finished result => cases result <;> rfl
    | _ => exact decided.elim

theorem Stage.eq_taking {stage : Stage V} {way : Mailbox.Taking} (apart : stage.wait? = none)
    (takes : stage.taking? = some way) : stage = .taking way := by
  cases stage with
  | taking =>
    cases takes
    rfl
  | waiting | pausing => cases apart
  | _ => cases takes

/-- Only the thread itself clears its flag: with a call for that, or in a wait that is cancelled
then. -/
theorem consumes_of_cleared
    (run : System.Run allowed { state := Monitor.new value settings } u (newer ++ a :: older))
    (flag : (a.before.mailboxes.get t).pending) (cleared : ¬ (a.after.mailboxes.get t).pending) :
    consumes t a ∧ (a.stage = .taking .clearing ∨ a.stage.wait?.isSome ∧ Cancels u t newer) := by
  obtain ⟨w, run_w, -⟩ := run.split
  obtain ⟨v, run_v, -, here, taken⟩ := run_w.at_access
  have clears : consumes t a := by
    by_contra keeps
    exact cleared (pending_kept taken (Bool.not_eq_true _ ▸ keeps) flag)
  obtain ⟨rfl, clearing, -⟩ := consumes_iff.mp clears
  refine ⟨clears, ?_⟩
  cases waits : a.stage.wait? with
  | none => exact Or.inl (Stage.eq_taking waits clearing)
  | some wait =>
    refine Or.inr ⟨rfl, cancels_of_taken run ?_⟩
    exact standing_of_consumes run_v here taken waits clears

/-- The access leads a wait out of its loop because it has seen an interrupt. -/
def sees (a : Turn (shared V)) : Prop :=
  ∃ node levels, a.progress.stage?.bind Stage.wait? = some (.withdrawing node levels true)

theorem ends_of_sees
    (run : System.Run allowed { state := Monitor.new value settings } u (newer ++ a :: older))
    (leaves : sees a) : EndsCancelled a.thread newer := by
  obtain ⟨node, levels, next⟩ := leaves
  have stands : standing a.thread (a :: older) = .alert := by
    rw [standing_eq, pending_cons_self, next]
    rfl
  exact (ends_of_closed Heed.closed_heeds run (Or.inl stands)).2

/-- An interrupt that was pending at some moment of the last wait of thread `t` is pending still. -/
def KeepsInterrupts (t : Nat) (trace : List (Turn (shared V))) : Prop :=
  ∀ newer a older, trace = newer ++ a :: older → (∀ b ∈ newer, b.thread = t → ¬ begins b) →
    raised t (a :: older) → raised t trace

/-- A thread with a pending interrupt takes it when it begins its next wait, which is cancelled,
unless it takes the interrupt with a call before. -/
def CancelsNext (u : System (shared V) β) (t : Nat) (newer older : List (Turn (shared V))) : Prop :=
  raised t older → ∀ later b between, newer = later ++ b :: between → b.thread = t → begins b →
    (∀ c ∈ between, c.thread = t → ¬ begins c ∧ c.stage ≠ .taking .clearing) →
    consumes t b ∧ Cancels u t later

theorem raised_append (keep : ∀ b ∈ newer, consumes t b = false) (before : raised t older) :
    raised t (newer ++ older) := by
  induction newer with
  | nil => exact before
  | cons b newer ih =>
    have since := ih fun c inside => keep c (List.mem_cons_of_mem b inside)
    rw [List.cons_append, raised, since, keep b (List.mem_cons_self ..)]
    simp

/-- A wait that has taken nothing has left the flag alone all the time. -/
theorem not_consumes_of_consumed (nothing : consumed t (newer ++ older) = [])
    (last : ∀ b ∈ newer, b.thread = t → ¬ begins b) : ∀ b ∈ newer, consumes t b = false := by
  induction newer with
  | nil => exact fun b inside => absurd inside List.not_mem_nil
  | cons b newer ih =>
    have later : ∀ c ∈ newer, c.thread = t → ¬ begins c := fun c inside =>
      last c (List.mem_cons_of_mem b inside)
    rw [List.cons_append] at nothing
    by_cases mine : b.thread = t
    · subst mine
      rw [consumed_cons_self, if_neg (last b (List.mem_cons_self ..) rfl),
        List.append_eq_nil_iff] at nothing
      intro c inside
      rcases List.mem_cons.mp inside with rfl | inside
      · rw [← Bool.not_eq_true]
        intro clears
        rw [if_pos clears] at nothing
        cases nothing.1
      · exact ih nothing.2 later c inside
    · rw [consumed_cons_of_ne mine] at nothing
      intro c inside
      rcases List.mem_cons.mp inside with rfl | inside
      · exact not_consumes_of_ne mine
      · exact ih nothing later c inside

theorem keepsInterrupts_of_ended
    (run : System.Run allowed { state := Monitor.new value settings } u (a :: older))
    {ending : Ending} (ended : (entry a).ended = some (node?, .ok ending)) :
    KeepsInterrupts a.thread (a :: older) := by
  have nothing : consumed a.thread (a :: older) = [] :=
    List.eq_nil_of_length_eq_zero (reports_of_ended run ended).1
  intro newer b before split last since
  rw [split] at nothing ⊢
  exact raised_append (not_consumes_of_consumed nothing last) since

/-- A thread whose wait has ended is in no wait. -/
theorem standing_of_ended
    (run : System.Run allowed { state := Monitor.new value settings } u (a :: older))
    (ended : (entry a).ended = some (node?, result)) :
    standing a.thread (a :: older) = .outside := by
  obtain ⟨v, run_v, -, here, taken⟩ := run.at_access
  cases waits : a.stage.wait? with
  | none => exact (standing_apart run_v here taken waits).2.1
  | some wait =>
    rcases standing_moves run_v here taken waits with
      ⟨next, -, -, goes_on⟩ | ⟨node', result', -, since, -⟩
    · rw [goes_on] at ended
      cases ended
    · exact since

/-- A thread that is in no wait is in none until it begins one. -/
theorem outside_until_begins
    (run : System.Run allowed { state := Monitor.new value settings } u (newer ++ older))
    (outside : standing t older = .outside) (none_begun : ∀ b ∈ newer, b.thread = t → ¬ begins b) :
    standing t (newer ++ older) = .outside ∧
      ∀ b ∈ newer, b.thread = t → b.stage.wait? = none := by
  induction newer generalizing u with
  | nil => exact ⟨outside, fun b inside => absurd inside List.not_mem_nil⟩
  | cons b newer ih =>
    rw [List.cons_append] at run ⊢
    obtain ⟨v, run_v, -, here, taken⟩ := run.at_access
    obtain ⟨still, apart⟩ := ih run_v fun c inside =>
      none_begun c (List.mem_cons_of_mem b inside)
    by_cases mine : b.thread = t
    · subst mine
      have apart_b : b.stage.wait? = none := by
        by_contra waits
        obtain ⟨wait, waits⟩ := Option.ne_none_iff_exists'.mp waits
        have first : wait.heed = .outside := (standing_of_wait run_v here waits).symm.trans still
        exact none_begun b (List.mem_cons_self ..) rfl (begins_iff.mpr ⟨wait, waits, first⟩)
      refine ⟨(standing_apart run_v here taken apart_b).2.1, ?_⟩
      intro c inside mine
      rcases List.mem_cons.mp inside with rfl | inside
      · exact apart_b
      · exact apart c inside mine
    · rw [standing_cons_of_ne mine]
      refine ⟨still, fun c inside mine_c => ?_⟩
      rcases List.mem_cons.mp inside with rfl | inside
      · exact absurd mine_c mine
      · exact apart c inside mine_c

theorem cancelsNext_of_ended
    (run : System.Run allowed { state := Monitor.new value settings } u (newer ++ a :: older))
    (ended : (entry a).ended = some (node?, result)) :
    CancelsNext u a.thread newer (a :: older) := by
  intro pending later b between split mine first untaken
  subst split
  rw [List.append_assoc, List.cons_append] at run
  obtain ⟨w, run_w, -⟩ := run.split
  obtain ⟨v, run_v, same, here, taken⟩ := run_w.at_access
  obtain ⟨x, run_x, -⟩ := run_v.split
  have outside := standing_of_ended run_x ended
  have none_begun : ∀ c ∈ between, c.thread = a.thread → ¬ begins c :=
    fun c inside mine_c => (untaken c inside mine_c).1
  obtain ⟨-, apart⟩ := outside_until_begins run_v outside none_begun
  have keep : ∀ c ∈ between, consumes a.thread c = false := by
    intro c inside
    rw [← Bool.not_eq_true, consumes_iff]
    rintro ⟨mine_c, clearing, -⟩
    exact (untaken c inside mine_c).2 (Stage.eq_taking (apart c inside mine_c) clearing)
  have flag : (b.before.mailboxes.get a.thread).pending := by
    rw [← same, pending_eq_raised run_v]
    exact raised_append keep pending
  obtain ⟨wait, waits, stands⟩ := begins_iff.mp first
  rw [← mine] at flag ⊢
  have clears : consumes b.thread b := by
    refine consumes_iff.mpr ⟨rfl, ?_, flag⟩
    obtain ⟨timeout, rfl⟩ := Waiting.heed_eq_outside.mp stands
    exact Stage.taking?_of_wait? waits
  exact ⟨clears, cancels_of_taken run (standing_of_consumes run_v here taken waits clears)⟩

/-- Interrupts are reported once each and are not lost. Let every interrupt be made in one piece,
and taken in one piece. In every state of every run the flag of a thread is set if and only if the
thread has been interrupted since it last took an interrupt; and for every access so far:
an access that clears the flag of a thread is the thread's own, and either one of a call that takes
the interrupt, or one of a wait that ends as cancelled and is never blocked until then;
a wait that has left its loop because it has seen an interrupt ends as cancelled, if it ends;
a wait that ends has taken just the interrupts that its result reports, which are none, or one with
the message of the latest interrupt before it was taken; and if there are none, then an interrupt
that was pending at some time during the wait is pending still, and the next wait of the thread is
cancelled on entry unless the thread takes the interrupt before. -/
theorem interrupts_reported
    (run : System.Run allowed { state := Monitor.new value settings } u trace)
    (whole : Whole trace) :
    (∀ t, (u.state.mailboxes.get t).pending = raised t trace) ∧
    ∀ newer a older, trace = newer ++ a :: older →
      (∀ t, (a.before.mailboxes.get t).pending → ¬ (a.after.mailboxes.get t).pending →
        consumes t a ∧ (a.stage = .taking .clearing ∨ a.stage.wait?.isSome ∧ Cancels u t newer)) ∧
      (sees a → EndsCancelled a.thread newer) ∧
      ∀ node? result, (entry a).ended = some (node?, result) →
        consumed a.thread (a :: older) = reported result ∧
        ∀ ending, result = .ok ending →
          KeepsInterrupts a.thread (a :: older) ∧ CancelsNext u a.thread newer (a :: older) := by
  refine ⟨fun t => pending_eq_raised run, ?_⟩
  rintro newer a older rfl
  obtain ⟨w, run_w, -⟩ := run.split
  refine ⟨fun t => consumes_of_cleared run, ends_of_sees run, ?_⟩
  intro node? result ended
  have whole_w : Whole (a :: older) := List.IsChain.right_of_append whole
  refine ⟨(reports_of_ended run_w ended).2 whole_w, ?_⟩
  rintro ending rfl
  exact ⟨keepsInterrupts_of_ended run_w ended, cancelsNext_of_ended run ended⟩

end Run

/-- Thread `0` waits. Thread `1` interrupts it, and again while thread `0` queues for the lock. -/
@[irreducible]
def reminder : System (shared Unit) Unit × List (Turn (shared Unit)) :=
  let start : System (shared Unit) Unit := { state := Monitor.new () { spinLimit := 1 } }
  let waiter : Action Unit Unit := Action.synchronized do
    let _ ← Action.wait none
  let raiser : Action Unit Unit := Action.synchronized do
    Action.interrupt 0 (some "first")
    Action.interrupt 0 (some "second")
  let turns := List.replicate 12 0 ++ List.replicate 8 1 ++ List.replicate 5 0 ++
    List.replicate 7 1 ++ List.replicate 12 0
  ((start.assign 0 waiter).1.assign 1 raiser).1.follow [] (turns.map fun t => (t, {}))

theorem interrupts_reported_reminder : Whole reminder.2 ∧
    (reminder.1.state.mailboxes.get 0).pending = raised 0 reminder.2 ∧
    ∃ newer a older, reminder.2 = newer ++ a :: older ∧ (entry a).ended.isSome ∧
      consumed 0 (a :: older) = ["second"] := by
  have run : System.Run (fun _ _ => True) { state := Monitor.new () { spinLimit := 1 } }
      reminder.1 reminder.2 := by
    unfold reminder
    exact System.Run.follow (.assign 1 _ (.assign 0 _ .start (by decide +kernel) trivial)
      (by decide +kernel) trivial) _
  have whole : Whole reminder.2 := by
    unfold Whole
    decide +kernel
  have told : reminder.2.filterMap
      (fun a => (entry a).ended.map fun ending => (a.thread, reported ending.2)) =
        [(0, ["second"])] := by
    decide +kernel
  obtain ⟨flags, accesses⟩ := interrupts_reported run whole
  refine ⟨whole, flags 0, ?_⟩
  have last : (0, ["second"]) ∈ reminder.2.filterMap
      (fun a => (entry a).ended.map fun ending => (a.thread, reported ending.2)) := by
    rw [told]
    exact List.mem_cons_self ..
  obtain ⟨a, inside, ends⟩ := List.mem_filterMap.mp last
  obtain ⟨⟨node?, result⟩, ended, same⟩ := Option.map_eq_some_iff.mp ends
  obtain ⟨mine, reports⟩ := Prod.mk.inj same
  obtain ⟨newer, older, split⟩ := List.append_of_mem inside
  obtain ⟨-, -, results⟩ := accesses newer a older split
  obtain ⟨takes, -⟩ := results node? result ended
  rw [mine, show reported result = _ from reports] at takes
  exact ⟨newer, a, older, split, by rw [ended]; rfl, takes⟩

end Interlock.Monitor

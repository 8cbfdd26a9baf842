import Interlock.Proofs.Register
import Interlock.System.Race
import Mathlib.Data.List.Perm.Basic

/-!
# Calls that are dealt out to threads

Each of some threads has a program, and all begin at once (`System.launch`). `answered` are the
calls of a run in the order in which they have been answered. In this order they are a sequential
run, and those of one thread are calls that its program makes (`stands_of_run`). So when each thread
makes the calls of a list and all have come to the end, the calls that were answered are the calls
of all lists, in some order (`answered_in_order`).
-/

namespace Interlock

namespace Program

variable {κ ρ β γ ι : Type}

/-- A program that has made some calls and got their replies goes on as another program. -/
def Leads : List (κ × ρ) → Program κ ρ β → Program κ ρ β → Prop
  | [], p, q => p = q
  | (asked, reply) :: later, call request next, q => asked = request ∧ (next reply).Leads later q
  | _ :: _, done _, _ => False

theorem Leads.concat {p : Program κ ρ β} {log : List (κ × ρ)} {request : κ}
    {next : ρ → Program κ ρ β} (leads : p.Leads log (call request next)) (reply : ρ) :
    p.Leads (log ++ [(request, reply)]) (next reply) := by
  induction log generalizing p with
  | nil =>
    cases leads
    exact ⟨rfl, rfl⟩
  | cons first later ih =>
    cases p with
    | done => exact leads.elim
    | call asked goes_on => exact ⟨leads.1, ih leads.2⟩

instance : LawfulMonad (Program κ ρ) :=
  LawfulMonad.mk' (Program κ ρ) bind_done_right (fun _ _ => rfl) fun p f g => bind_assoc p f g

/-- A program that makes one call for each item of a list has made the calls of the first items,
and of all items if it is at its end. -/
theorem Leads.of_mapM {serve : ι → Program κ ρ γ} {request : ι → κ} {answer : ι → ρ → γ}
    (calls : ∀ item, serve item = call (request item) fun reply => done (answer item reply))
    {items : List ι} {finish : List γ → β} {log : List (κ × ρ)} {q : Program κ ρ β}
    (leads : (finish <$> items.mapM serve).Leads log q) :
    ∃ rest, items.map request = log.map Prod.fst ++ rest ∧
      ∀ result, q = done result → rest = [] := by
  induction items generalizing finish log with
  | nil =>
    cases log with
    | nil => exact ⟨[], rfl, fun _ _ => rfl⟩
    | cons first later =>
      rw [List.mapM_nil, map_pure] at leads
      exact leads.elim
  | cons item items ih =>
    have unfolded : finish <$> (item :: items).mapM serve =
        call (request item) fun reply =>
          (fun answers => finish (answer item reply :: answers)) <$> items.mapM serve := by
      rw [List.mapM_cons, calls]
      simp only [map_bind, map_pure]
      rfl
    rw [unfolded] at leads
    cases log with
    | nil =>
      refine ⟨(item :: items).map request, rfl, ?_⟩
      rintro result rfl
      cases leads
    | cons first later =>
      obtain ⟨asked, reply⟩ := first
      obtain ⟨rfl, leads⟩ := leads
      obtain ⟨rest, made, ended⟩ := ih leads
      exact ⟨rest, congrArg (request item :: ·) made, ended⟩

end Program

theorem Activity.eq_idle {O : Shared} {β : Type} {activity : Activity O β}
    (rests : activity.isIdle) : activity = .idle := by
  cases activity with
  | idle => rfl
  | busy stage next => cases rests

namespace System

variable {O : Shared} {β : Type}

/-- Threads that each begin a program around an object, the first one being thread 0. -/
def launch (state : O.State) (programs : List (O.Action β)) : System O β :=
  (({ state } : System O β).assignAll #[] 0 programs).1

theorem state_assignAll (s : System O β) (results : Array (Nat × β)) (first : Nat)
    (programs : List (O.Action β)) :
    (s.assignAll results first programs).1.state = s.state := by
  induction programs generalizing s results first with
  | nil => rfl
  | cons program rest ih => exact ih ..

theorem threads_assignAll (s : System O β) (results : Array (Nat × β)) (first : Nat)
    (programs : List (O.Action β)) (t : Nat) :
    (s.assignAll results first programs).1.threads.get t =
      if t < first then s.threads.get t
      else (programs[t - first]?.map fun program => (Activity.ofProgram program).1).getD
        (s.threads.get t) := by
  induction programs generalizing s results first with
  | nil => simp [assignAll]
  | cons program rest ih =>
    rw [assignAll, ih]
    rcases Nat.lt_trichotomy t first with before | rfl | after
    · simp [assign, Table.get_set_other _ _ (Nat.ne_of_lt before), before, Nat.lt_succ_of_lt before]
    · simp [assign]
    · have index : t - first = t - (first + 1) + 1 := by omega
      simp [assign, Table.get_set_other _ _ (Nat.ne_of_gt after), Nat.not_lt_of_gt after,
        Nat.not_lt.mpr (Nat.succ_le_of_lt after), index]

theorem state_launch (state : O.State) (programs : List (O.Action β)) :
    (launch state programs).state = state :=
  state_assignAll ..

theorem threads_launch (state : O.State) (programs : List (O.Action β)) (t : Nat) :
    (launch state programs).threads.get t =
      (programs[t]?.map fun program => (Activity.ofProgram program).1).getD .idle := by
  rw [launch, threads_assignAll]
  simp
  rfl

/-- All threads are at rest if those that have ever begun something are. -/
theorem rests_of_all {u : System O β} (all : u.threads.entries.all Activity.isIdle) (t : Nat) :
    (u.threads.get t).isIdle := by
  rw [Table.get, Array.getD_eq_getD_getElem?]
  cases here : u.threads.entries[t]? with
  | none => rfl
  | some activity => exact Array.all_eq_true'.mp all activity (Array.mem_of_getElem? here)

end System

/-- A list whose entries are told apart by a key is made up of the parts with one key each. -/
theorem perm_flatten_of_keys {ε κ : Type} (f : ε → κ) {entries : List ε} {key : ε → Nat}
    {parts : List (List κ)}
    (each : ∀ t, (entries.filter (fun e => key e = t)).map f = parts[t]?.getD []) :
    (entries.map f).Perm parts.flatten := by
  -- the entries with key 0 are the first part, and with one less the keys fit the other parts
  induction parts generalizing entries key with
  | nil =>
    have none_left : entries = [] := by
      refine List.eq_nil_iff_forall_not_mem.mpr fun e member => ?_
      have empty : (entries.filter fun e' => key e' = key e) = [] := List.map_eq_nil_iff.mp (each _)
      exact List.not_mem_nil (empty ▸ List.mem_filter.mpr ⟨member, decide_eq_true rfl⟩)
    rw [none_left]
    exact .refl _
  | cons part parts ih =>
    have first : (entries.filter fun e => key e = 0).map f = part := each 0
    have others : ∀ t, ((entries.filter fun e => !decide (key e = 0)).filter
        (fun e => key e - 1 = t)).map f = parts[t]?.getD [] := by
      intro t
      have same : (entries.filter fun e => key e = t + 1).map f = parts[t]?.getD [] := each (t + 1)
      rw [← same, List.filter_filter]
      congr 1
      refine List.filter_congr fun e _ => ?_
      rw [Bool.eq_iff_iff]
      simp only [Bool.and_eq_true, Bool.not_eq_true', decide_eq_true_eq, decide_eq_false_iff_not]
      omega
    have split := (List.filter_append_perm (fun e => decide (key e = 0)) entries).map f
    rw [List.map_append, first] at split
    exact split.symm.trans ((ih others).append_left part)

namespace Register

variable {α β : Type}

/-- A call that has been answered: who has made it, what it was, and the reply. -/
structure Answered (α : Type) where
  thread : Nat
  operation : Operation α
  reply : Transition α

/-- The call does in one piece what it was asked to do. -/
def Answered.Does [BEq α] (held : α) (call : Answered α) (left : α) : Prop :=
  call.operation.apply held = call.reply ∧ call.reply.left = left

/-- The calls of one thread, with the replies. -/
def callsOf (t : Nat) (calls : List (Answered α)) : List (Operation α × Transition α) :=
  (calls.filter fun call => call.thread = t).map fun call => (call.operation, call.reply)

theorem callsOf_append (t : Nat) (calls later : List (Answered α)) :
    callsOf t (calls ++ later) = callsOf t calls ++ callsOf t later := by
  simp [callsOf]

variable [BEq α]

/-- The call that ends with an access. -/
def answered? (a : Turn (shared α)) : Option (Answered α) :=
  match a.progress with
  | .ongoing _ => none
  | .finished reply => some ⟨a.thread, a.stage.operation, reply⟩

/-- The calls of a run in the order in which they have been answered. -/
def answered (trace : List (Turn (shared α))) : List (Answered α) :=
  trace.reverse.filterMap answered?

/-- Where a thread is that is going to run a program. -/
def Doing (program : Action α β) : Activity (shared α) β → Prop
  | .idle => ∃ result, program = .done result
  | .busy stage next => stage.Valid ∧ program = .call stage.operation next

variable {a : Turn (shared α)} {trace older : List (Turn (shared α))} {program : Action α β}
  {next : Transition α → Action α β}

theorem answered_cons (a : Turn (shared α)) (older : List (Turn (shared α))) :
    answered (a :: older) = answered older ++ (answered? a).toList := by
  cases ends : answered? a <;> simp [answered, ends]

theorem doing_ofProgram (program : Action α β) :
    Doing program (Activity.ofProgram (O := shared α) program).1 := by
  cases program with
  | done result => exact ⟨result, rfl⟩
  | call operation next =>
    exact ⟨Stage.valid_ofOperation operation, by rw [Stage.operation_ofOperation]⟩

/-- An access leaves the value alone and its program where it is, or it answers a call, which does
what it does in one piece. -/
theorem answers_of_taken [LawfulBEq α] (taken : a.Taken)
    (doing : Doing program (.busy a.stage next)) :
    (answered? a = none ∧ a.after = a.before ∧ Doing program (Activity.after next a.progress).1) ∨
      ∃ reply, answered? a = some ⟨a.thread, a.stage.operation, reply⟩ ∧
        Answered.Does a.before ⟨a.thread, a.stage.operation, reply⟩ a.after ∧
        Doing (next reply) (Activity.after next a.progress).1 := by
  obtain ⟨t, chance, before, stage, after, progress⟩ := a
  obtain ⟨valid, rfl⟩ := doing
  have moved : stage.Moves before after progress := by
    have granted : stage.advance chance.spurious before = (after, progress) := Option.some.inj taken
    simpa [granted] using Stage.advance_moves valid chance.spurious before
  cases moved with
  | @waits later same fits => exact .inl ⟨rfl, rfl, fits, by rw [same]⟩
  | @acts did piece => exact .inr ⟨did, rfl, ⟨piece, rfl⟩, doing_ofProgram (next did)⟩

/-- A call that has been answered is the one that the program for a request makes, and with the
reply the program has ended with a result. -/
def Returns {ι γ : Type} (serve : ι → Action α γ) (call : Answered α) (served : ι × γ) : Prop :=
  (serve served.1).Leads [(call.operation, call.reply)] (.done served.2)

/-- What is true of an indivisible program is true of what it returns. -/
theorem Indivisible.does_of_returns {ι γ : Type} {serve : ι → Action α γ} {request : ι} {result : γ}
    {Does : α → γ → α → Prop} {call : Answered α} {held left : α}
    (indivisible : Indivisible Does (serve request)) (returns : Returns serve call (request, result))
    (does : call.Does held left) : Does held result left := by
  obtain ⟨piece, rfl⟩ := does
  have leads : (serve request).Leads [(call.operation, call.reply)] (.done result) := returns
  rw [← piece] at leads ⊢
  generalize serve request = program at indivisible leads
  cases indivisible with
  | done _ => exact leads.elim
  | call does =>
    obtain ⟨rfl, ended⟩ := leads
    cases ended
    exact does held

/-- How far a thread has got with the program that it was launched with, if with any. -/
def Stands (program? : Option (Action α β)) (calls : List (Operation α × Transition α))
    (doing : Activity (shared α) β) : Prop :=
  match program? with
  | some program => ∃ rest, program.Leads calls rest ∧ Doing rest doing
  | none => calls = [] ∧ doing = .idle

theorem stands_launch (program? : Option (Action α β)) :
    Stands program? []
      ((program?.map fun program => (Activity.ofProgram (O := shared α) program).1).getD .idle) := by
  cases program? with
  | none => exact ⟨rfl, rfl⟩
  | some program => exact ⟨program, rfl, doing_ofProgram program⟩

/-- A thread in the middle of a call is running the program that it was launched with. -/
theorem Stands.exists_doing {program? : Option (Action α β)}
    {made : List (Operation α × Transition α)} {stage : Stage α}
    (stands : Stands program? made (.busy stage next)) :
    ∃ program rest, program? = some program ∧ program.Leads made rest ∧
      Doing rest (.busy stage next) := by
  cases program? with
  | none => cases stands.2
  | some program =>
    obtain ⟨rest, leads, doing⟩ := stands
    exact ⟨program, rest, rfl, leads, doing⟩

variable {ι γ : Type} {serve : ι → Action α γ} {operation : ι → Operation α}
  {answer : ι → Transition α → γ}

/-- A thread has made the first calls of its share, and all of them if it has come to the end. -/
theorem Stands.operations
    (calls : ∀ request, serve request =
      .call (operation request) fun reply => .done (answer request reply))
    {share? : Option (List ι)} {made : List (Operation α × Transition α)}
    {doing : Activity (shared α) (List γ)}
    (stands : Stands (share?.map fun share => share.mapM serve) made doing) :
    ∃ rest, (share?.map (List.map operation)).getD [] = made.map Prod.fst ++ rest ∧
      (doing = .idle → rest = []) := by
  cases share? with
  | none =>
    rw [stands.1]
    exact ⟨[], rfl, fun _ => rfl⟩
  | some share =>
    obtain ⟨later, leads, here⟩ := stands
    have goes_on : (id <$> share.mapM serve).Leads made later := by
      rw [id_map]
      exact leads
    obtain ⟨rest, same, ended⟩ := goes_on.of_mapM calls
    refine ⟨rest, same, ?_⟩
    rintro rfl
    obtain ⟨result, rfl⟩ := here
    exact ended result rfl

section Run

variable [LawfulBEq α] {start : α} {programs : List (Action α β)} {u : System (shared α) β}
  {shares : List (List ι)} {v : System (shared α) (List γ)}

/-- Every run from where threads have been launched answers calls that are a sequential run, and
those of one thread are calls of its program. -/
theorem stands_of_run
    (run : System.Run (O := shared α) (fun _ _ => False) (System.launch start programs) u trace) :
    Serial Answered.Does start (answered trace) u.state ∧
      ∀ t, Stands programs[t]? (callsOf t (answered trace)) (u.threads.get t) := by
  induction run with
  | start =>
    refine ⟨(System.state_launch (O := shared α) start programs).symm, fun t => ?_⟩
    rw [System.threads_launch]
    exact stands_launch _
  | assign t program _ free may => exact may.elim
  | @access u older a next _ here busy taken ih =>
    obtain ⟨serial, stands⟩ := ih
    have mine := stands a.thread
    rw [busy] at mine
    obtain ⟨program, rest, begun, leads, doing⟩ := mine.exists_doing
    rw [here] at serial
    rw [answered_cons]
    rcases answers_of_taken taken doing with ⟨silent, kept, goes_on⟩ | ⟨reply, ends, does, goes_on⟩
    · rw [silent, Option.toList_none, List.append_nil]
      refine ⟨kept ▸ serial, fun t => ?_⟩
      by_cases same : t = a.thread
      · subst same
        rw [Table.get_set_same, begun]
        exact ⟨rest, leads, goes_on⟩
      · rw [Table.get_set_other _ _ same]
        exact stands t
    · rw [ends, Option.toList_some]
      refine ⟨serial.concat does, fun t => ?_⟩
      rw [callsOf_append]
      by_cases same : t = a.thread
      · subst same
        obtain ⟨-, rfl⟩ := doing
        rw [Table.get_set_same, begun]
        refine ⟨next reply, ?_, goes_on⟩
        simpa [callsOf] using leads.concat reply
      · rw [Table.get_set_other _ _ same]
        simpa [callsOf, Ne.symm same] using stands t
  | elapse time _ ih => exact ih

/-- The access that a call is answered with does what the call does in one piece. -/
theorem does_of_answered
    (run : System.Run (O := shared α) (fun _ _ => False) (System.launch start programs) u trace)
    {a : Turn (shared α)} (member : a ∈ trace) {call : Answered α}
    (answers : answered? a = some call) : call.Does a.before a.after := by
  induction run with
  | start => cases member
  | assign t program _ free may => exact may.elim
  | @access u older b next before here busy taken ih =>
    rcases List.mem_cons.mp member with rfl | earlier
    · have mine := (stands_of_run before).2 a.thread
      rw [busy] at mine
      obtain ⟨-, rest, -, -, doing⟩ := mine.exists_doing
      rcases answers_of_taken taken doing with ⟨silent, -, -⟩ | ⟨reply, ends, does, -⟩
      · rw [silent] at answers
        cases answers
      · rw [ends] at answers
        cases answers
        exact does
    · exact ih earlier
  | elapse time _ ih => exact ih member

/-- In every run of threads that make one call for each request of their shares, a thread has made
the first calls of its share. -/
theorem starts_of_run
    (calls : ∀ request, serve request =
      .call (operation request) fun reply => .done (answer request reply))
    (run : System.Run (O := shared α) (fun _ _ => False)
      (System.launch start (shares.map fun share => share.mapM serve)) v trace) (t : Nat) :
    ∃ rest, (shares[t]?.map (List.map operation)).getD [] =
        (callsOf t (answered trace)).map Prod.fst ++ rest ∧
      (v.threads.get t = .idle → rest = []) := by
  have stands := (stands_of_run run).2 t
  rw [List.getElem?_map] at stands
  exact stands.operations calls

/-- When threads that make one call for each request of their shares have come to the end, the
calls that have been answered are those of all requests, in some order. -/
theorem answered_in_order
    (calls : ∀ request, serve request =
      .call (operation request) fun reply => .done (answer request reply))
    (run : System.Run (O := shared α) (fun _ _ => False)
      (System.launch start (shares.map fun share => share.mapM serve)) v trace)
    (rests : ∀ t, (v.threads.get t).isIdle) :
    ∃ order, order.Perm shares.flatten ∧
      List.Forall₂ (fun call request => call.operation = operation request) (answered trace)
        order := by
  have each (t : Nat) : ((answered trace).filter fun call => call.thread = t).map
      Answered.operation = ((shares.map (List.map operation))[t]?).getD [] := by
    obtain ⟨rest, made, all_made⟩ := starts_of_run calls run t
    rw [all_made (Activity.eq_idle (rests t)), List.append_nil, callsOf, List.map_map] at made
    rw [List.getElem?_map]
    exact made.symm
  have perm := perm_flatten_of_keys Answered.operation each
  rw [← List.map_flatten] at perm
  have paired : List.Forall₂ (fun made request => made = operation request)
      (shares.flatten.map operation) shares.flatten := by
    rw [List.forall₂_map_left_iff]
    exact List.forall₂_same.mpr fun _ _ => rfl
  obtain ⟨order, ordered, same⟩ := List.perm_comp_forall₂ perm paired
  exact ⟨order, same, List.forall₂_map_left_iff.mp ordered⟩

/-- The same, with what each request has returned. -/
theorem served_in_order
    (calls : ∀ request, serve request =
      .call (operation request) fun reply => .done (answer request reply))
    (run : System.Run (O := shared α) (fun _ _ => False)
      (System.launch start (shares.map fun share => share.mapM serve)) v trace)
    (rests : ∀ t, (v.threads.get t).isIdle) :
    ∃ served : List (ι × γ), (served.map Prod.fst).Perm shares.flatten ∧
      List.Forall₂ (Returns serve) (answered trace) served := by
  obtain ⟨order, same, made⟩ := answered_in_order calls run rests
  have returns : ∃ served : List (ι × γ), served.map Prod.fst = order ∧
      List.Forall₂ (Returns serve) (answered trace) served := by
    clear same
    generalize answered trace = made_calls at made ⊢
    induction made with
    | nil => exact ⟨[], rfl, .nil⟩
    | @cons call request _ _ first _ ih =>
      obtain ⟨served, firsts, ih⟩ := ih
      refine ⟨(request, answer request call.reply) :: served, congrArg _ firsts, .cons ?_ ih⟩
      unfold Returns
      rw [calls]
      exact ⟨first, rfl⟩
  obtain ⟨served, firsts, returns⟩ := returns
  exact ⟨served, firsts ▸ same, returns⟩

end Run

end Register

end Interlock

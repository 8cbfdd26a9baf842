import Interlock.Proofs.WaitSet

/-!
# A wait set is a first-in first-out queue

A `Fifo` is the queue of a wait set as a list, with the flags that have been set, one after the
other. Any sequence of operations that only pushes nodes which are not queued is answered by a wait
set as by its `Fifo`, and the links of the wait set then lead through the list
(`links_follow_queue`).

The loops of a wait set are bounded by the number of nodes. `Seeks` and `Pops` are the loops
without a bound, as `Segment` is that of a walk; they end where the bounded ones do.
-/

namespace Interlock.WaitSet

/-- What can be asked of a wait set. A node is made outside of the queue. -/
inductive Operation where
  | make (thread : Nat)
  | push (n : Nat)
  | remove (n : Nat)
  | notifyOne
  | notifyAll
  | count
  | isEmpty
  deriving DecidableEq, Repr

inductive Answer where
  | done
  | node (n : Nat)
  | truth (answer : Bool)
  /-- A number of nodes. -/
  | number (nodes : Nat)
  deriving DecidableEq, Repr

/-- One operation on a wait set. -/
def perform (s : WaitSet) : Operation → WaitSet × Answer
  | .make thread => ((s.make thread).2, .node (s.make thread).1)
  | .push n => (s.push n, .done)
  | .remove n => ((s.remove n).1, .truth (s.remove n).2)
  | .notifyOne =>
    match s.pop with
    | none => (s, .truth false)
    | some (s, _) => (s, .truth true)
  | .notifyAll => (s.popAll.1, .number s.popAll.2.length)
  | .count => (s, .number s.count)
  | .isEmpty => (s, .truth s.isEmpty)

/-- A queue of nodes as a list. -/
structure Fifo where
  /-- The queued nodes, the longest waiting first. -/
  queue : List Nat := []
  /-- The nodes whose flags have been set, in order, each as often as it was set. -/
  flagged : List Nat := []
  /-- How many nodes have been made. -/
  made : Nat := 0
  deriving DecidableEq, Repr

/-- One operation on a list of nodes. -/
def Fifo.perform (q : Fifo) : Operation → Fifo × Answer
  | .make _ => ({ q with made := q.made + 1 }, .node q.made)
  | .push n => ({ q with queue := q.queue ++ [n] }, .done)
  | .remove n => ({ q with queue := q.queue.erase n }, .truth (n ∈ q.queue))
  | .notifyOne =>
    match q.queue with
    | [] => (q, .truth false)
    | n :: rest => ({ q with queue := rest, flagged := q.flagged ++ [n] }, .truth true)
  | .notifyAll =>
    ({ q with queue := [], flagged := q.flagged ++ q.queue }, .number q.queue.length)
  | .count => (q, .number q.queue.length)
  | .isEmpty => (q, .truth q.queue.isEmpty)

/-- Operations one after the other, with their answers. -/
def performAll {σ : Type} (perform : σ → Operation → σ × Answer) (s : σ) :
    List Operation → σ × List Answer
  | [] => (s, [])
  | operation :: rest =>
    let (s, answer) := perform s operation
    let (s, answers) := performAll perform s rest
    (s, answer :: answers)

/-- Only a node that has been made and is not queued is pushed. -/
def Operation.Fits (q : Fifo) : Operation → Prop
  | push n => n < q.made ∧ n ∉ q.queue
  | _ => True

instance (q : Fifo) : ∀ operation : Operation, Decidable (operation.Fits q)
  | .push n => inferInstanceAs (Decidable (n < q.made ∧ n ∉ q.queue))
  | .make _ | .remove _ | .notifyOne | .notifyAll | .count | .isEmpty =>
    inferInstanceAs (Decidable True)

/-- Each operation fits the queue that the ones before it leave. -/
def AllFit (q : Fifo) : List Operation → Prop
  | [] => True
  | operation :: rest => operation.Fits q ∧ AllFit (q.perform operation).1 rest

instance decidableAllFit : ∀ (q : Fifo) (operations : List Operation),
    Decidable (AllFit q operations)
  | _, [] => inferInstanceAs (Decidable True)
  | q, operation :: rest =>
    have : Decidable (AllFit (q.perform operation).1 rest) := decidableAllFit _ rest
    inferInstanceAs (Decidable (operation.Fits q ∧ _))

/-- The loop of a removal: from a cursor, which a node precedes, follow the links until node `n` or
the end. The result is the node before `n` if `n` was met. -/
inductive Seeks (next : Nat → Option Nat) (n : Nat) :
    Option Nat → Option Nat → Option (Option Nat) → Prop where
  | ends {before : Option Nat} : Seeks next n before none none
  | meets {before : Option Nat} : Seeks next n before (some n) (some before)
  | passes {before : Option Nat} {cursor : Nat} {found : Option (Option Nat)} (other : cursor ≠ n)
    (rest : Seeks next n (some cursor) (next cursor) found) :
    Seeks next n before (some cursor) found

/-- The loop of a notification of all: pop the first node until there is none. The list holds the
popped nodes in order. -/
inductive Pops : WaitSet → List Nat → WaitSet → Prop where
  | ends {s : WaitSet} (nobody : s.pop = none) : Pops s [] s
  | pops {s s' s'' : WaitSet} {n thread : Nat} {rest : List Nat} (first : s.head = some n)
    (pops : s.pop = some (s', thread)) (marks : Marks s [n] s') (others : Pops s' rest s'') :
    Pops s (n :: rest) s''

variable {s : WaitSet} {queue : List Nat}

theorem seeks_predecessor? {n fuel : Nat} {before start : Option Nat}
    (linked : Segment s.next start queue none) (enough : queue.length ≤ fuel) :
    Seeks s.next n before start (s.predecessor? n fuel before start) := by
  induction queue generalizing fuel before start with
  | nil =>
    cases linked
    cases fuel <;> exact .ends
  | cons k queue ih =>
    obtain ⟨rfl, rest⟩ := linked
    cases fuel with
    | zero => exact absurd enough (by simp)
    | succ fuel =>
      rw [predecessor?]
      by_cases same : k = n
      · rw [if_pos same, same]
        exact .meets
      · rw [if_neg same]
        exact .passes same (ih rest (by simpa using enough))

theorem Represents.pops_popMany {fuel : Nat} (represents : Represents s queue)
    (enough : queue.length ≤ fuel) : Pops s queue (s.popMany fuel).1 := by
  induction queue generalizing s fuel with
  | nil =>
    have nobody := pop_of_empty represents
    cases fuel with
    | zero => exact .ends nobody
    | succ fuel =>
      simp only [WaitSet.popMany, nobody]
      exact .ends nobody
  | cons n queue ih =>
    cases fuel with
    | zero => exact absurd enough (by simp)
    | succ fuel =>
      obtain ⟨s', pops, represents', marks⟩ := represents.pop
      simp only [WaitSet.popMany, pops]
      exact .pops represents.linked.1 pops marks (ih represents' (by simpa using enough))

/-- A wait set does what a list of nodes does. -/
structure Refines (s : WaitSet) (q : Fifo) : Prop where
  represents : s.Represents q.queue
  made : s.made = q.made
  flagged : ∀ n, s.isNotified n ↔ n ∈ q.flagged
  known : ∀ n ∈ q.flagged, n < q.made

namespace Refines

variable {q : Fifo}

theorem empty : Refines {} {} where
  represents := represents_empty
  made := rfl
  flagged n := by
    have silent : isNotified {} n = false := rfl
    simp [silent]
  known := nofun

/-- Taking nodes out of the queue and setting their flags. -/
theorem take {s' : WaitSet} {popped rest : List Nat} (refines : Refines s q)
    (inside : ∀ n ∈ popped, n ∈ q.queue) (represents : s'.Represents rest)
    (marks : Marks s popped s') :
    Refines s' { q with queue := rest, flagged := q.flagged ++ popped } where
  represents := represents
  made := marks.made.trans refines.made
  flagged n := by
    rw [marks.notified, refines.flagged, List.mem_append]
    exact Or.comm
  known n flagged := by
    rcases List.mem_append.mp flagged with before | now
    · exact refines.known n before
    · exact refines.made ▸ refines.represents.made n (inside n now)

/-- Changing the queue without setting a flag. -/
theorem requeue {s' : WaitSet} {queue' : List Nat} (refines : Refines s q)
    (represents : s'.Represents queue') (marks : Marks s [] s') :
    Refines s' { q with queue := queue' } where
  represents := represents
  made := marks.made.trans refines.made
  flagged n := by
    rw [marks.notified, ← refines.flagged]
    simp
  known := refines.known

theorem make (refines : Refines s q) (thread : Nat) :
    Refines (s.make thread).2 { q with made := q.made + 1 } where
  represents := refines.represents.make thread
  made := congrArg (· + 1) refines.made
  flagged n := by
    by_cases new : n = s.made
    · -- the flag of a new node is down, and no node with a later number has been flagged
      have unknown : n ∉ q.flagged := by
        intro flagged
        have known := refines.known n flagged
        rw [new, refines.made] at known
        exact Nat.lt_irrefl _ known
      have silent : (s.make thread).2.isNotified n = false := by
        simp [WaitSet.make, isNotified, new]
      simp [silent, unknown]
    · rw [← refines.flagged]
      simp [WaitSet.make, isNotified, Table.get_set_other _ _ new]
  known n flagged := Nat.lt_succ_of_lt (refines.known n flagged)

/-- Every operation does the same to the wait set and to the list, and is answered alike. -/
theorem perform (refines : Refines s q) {operation : Operation} (fits : operation.Fits q) :
    Refines (s.perform operation).1 (q.perform operation).1 ∧
      (s.perform operation).2 = (q.perform operation).2 := by
  have represents := refines.represents
  cases operation with
  | make thread =>
    refine ⟨refines.make thread, ?_⟩
    show Answer.node s.made = .node q.made
    rw [refines.made]
  | push n =>
    have made : n < s.made := by
      rw [refines.made]
      exact fits.1
    exact ⟨refines.requeue (represents.push fits.2 made) (marks_push s n), rfl⟩
  | remove n =>
    obtain ⟨represents', found⟩ := represents.remove n
    refine ⟨refines.requeue represents' (marks_remove s n), ?_⟩
    exact congrArg Answer.truth found
  | notifyOne =>
    obtain ⟨queue, flagged, made⟩ := q
    cases queue with
    | nil =>
      simp only [WaitSet.perform, pop_of_empty represents, Fifo.perform]
      exact ⟨refines, trivial⟩
    | cons n rest =>
      obtain ⟨s', pops, represents', marks⟩ := represents.pop
      simp only [WaitSet.perform, pops, Fifo.perform]
      exact ⟨refines.take (by simp) represents' marks, trivial⟩
  | notifyAll =>
    obtain ⟨threads, represents', marks⟩ := represents.popAll
    refine ⟨refines.take (fun _ inside => inside) represents' marks, ?_⟩
    show Answer.number s.popAll.2.length = .number q.queue.length
    rw [threads, List.length_map]
  | count =>
    refine ⟨refines, ?_⟩
    show Answer.number s.toList.length = .number q.queue.length
    rw [represents.toList_eq]
  | isEmpty =>
    refine ⟨refines, ?_⟩
    show Answer.truth s.head.isNone = .truth q.queue.isEmpty
    rw [represents.head_eq]
    cases q.queue <;> rfl

theorem performAll (refines : Refines s q) {operations : List Operation}
    (fit : AllFit q operations) :
    Refines (performAll WaitSet.perform s operations).1
        (performAll Fifo.perform q operations).1 ∧
      (performAll WaitSet.perform s operations).2 = (performAll Fifo.perform q operations).2 := by
  induction operations generalizing s q with
  | nil => exact ⟨refines, rfl⟩
  | cons operation rest ih =>
    obtain ⟨fits, rest_fit⟩ := fit
    obtain ⟨refines', answer⟩ := refines.perform fits
    obtain ⟨refines'', answers⟩ := ih refines' rest_fit
    exact ⟨refines'', by simp only [WaitSet.performAll, answer, answers]⟩

end Refines

/-- For every sequence of operations on an empty wait set in which only nodes that are not queued
are pushed: every operation is answered as by the list of queued nodes; the links lead from the
first node through this list, which has no node twice, to its end, and `tail` is its last node; both
ends are absent exactly if the list is empty; the flags are those that have been set in the list;
and all loops end, that of a removal at the node or behind the last one, that of a notification of
all after each node of the list has been popped once. -/
theorem links_follow_queue (operations : List Operation) (fit : AllFit {} operations) :
    let s := (performAll perform {} operations).1
    let q := (performAll Fifo.perform {} operations).1
    (performAll perform {} operations).2 = (performAll Fifo.perform {} operations).2 ∧
    Segment s.next s.head q.queue none ∧ s.tail = q.queue.getLast? ∧ q.queue.Nodup ∧
    (s.head = none ↔ q.queue = []) ∧ (s.tail = none ↔ q.queue = []) ∧
    (∀ n, s.isNotified n ↔ n ∈ q.flagged) ∧
    s.toList = q.queue ∧
    (∀ n, Seeks s.next n none s.head (s.predecessor? n s.made none s.head)) ∧
    Pops s q.queue s.popAll.1 := by
  intro s q
  obtain ⟨refines, answers⟩ := Refines.empty.performAll fit
  have represents : s.Represents q.queue := refines.represents
  refine ⟨answers, represents.linked, represents.tail, represents.nodup, ?_, ?_, refines.flagged,
    represents.toList_eq, ?_, represents.pops_popMany represents.length_le⟩
  · rw [represents.head_eq, List.head?_eq_none_iff]
  · rw [represents.tail, List.getLast?_eq_none_iff]
  · intro n
    exact seeks_predecessor? represents.linked represents.length_le

/-- Nodes are removed from the middle and from the end, are pushed again after they have been
removed or popped, and are removed although they are not queued. -/
def reuse : List Operation :=
  [.make 7, .make 8, .make 9, .push 0, .push 1, .push 2, .remove 1, .push 1, .remove 5, .notifyOne,
    .push 0, .remove 0, .count, .push 0, .isEmpty, .notifyOne]

theorem links_follow_queue_reuse :
    AllFit {} reuse ∧
      (performAll Fifo.perform {} reuse).1 = { queue := [1, 0], flagged := [0, 2], made := 3 } ∧
      Segment (performAll perform {} reuse).1.next (performAll perform {} reuse).1.head [1, 0]
        none ∧
      Pops (performAll perform {} reuse).1 [1, 0] (performAll perform {} reuse).1.popAll.1 := by
  have fit : AllFit {} reuse := by decide
  have queue : (performAll Fifo.perform {} reuse).1 =
      { queue := [1, 0], flagged := [0, 2], made := 3 } := by decide
  have follows := links_follow_queue reuse fit
  rw [queue] at follows
  obtain ⟨-, linked, -, -, -, -, -, -, -, pops⟩ := follows
  exact ⟨fit, queue, linked, pops⟩

end Interlock.WaitSet

import Interlock.Monitor.WaitSet
import Mathlib.Data.List.Nodup
import Mathlib.Data.List.Perm.Subperm

/-!
# The queue of a wait set

A wait set represents a queue: the links from the first node lead through the nodes of the queue
to its end, and `tail` is the last of them (`Represents`). Each operation of a wait set is the
operation of the same name on the queue. What it does to the nodes themselves is said by `Marks`:
nodes are notified where they are popped and nowhere else, and keep their threads.
-/

namespace Interlock.WaitSet

/-- The links from `start` lead through the nodes of a list to `stop`. -/
def Segment (next : Nat → Option Nat) : Option Nat → List Nat → Option Nat → Prop
  | start, [], stop => start = stop
  | start, n :: rest, stop => start = some n ∧ Segment next (next n) rest stop

namespace Segment

variable {next next' : Nat → Option Nat} {start stop : Option Nat} {xs ys : List Nat} {n : Nat}

theorem append : Segment next start (xs ++ ys) stop ↔
    ∃ middle, Segment next start xs middle ∧ Segment next middle ys stop := by
  induction xs generalizing start with
  | nil => simp [Segment]
  | cons n xs ih =>
    simp only [List.cons_append, Segment, ih]
    constructor
    · rintro ⟨here, middle, first, second⟩
      exact ⟨middle, ⟨here, first⟩, second⟩
    · rintro ⟨middle, ⟨here, first⟩, second⟩
      exact ⟨here, middle, first, second⟩

/-- Only the links of the nodes on the way matter. -/
theorem congr (segment : Segment next start xs stop) (same : ∀ k ∈ xs, next' k = next k) :
    Segment next' start xs stop := by
  induction xs generalizing start with
  | nil => exact segment
  | cons n xs ih =>
    obtain ⟨here, rest⟩ := segment
    refine ⟨here, ?_⟩
    rw [same n (List.mem_cons_self ..)]
    exact ih rest fun k inside => same k (List.mem_cons_of_mem _ inside)

end Segment

/-- The node behind node `n`. -/
def next (s : WaitSet) (n : Nat) : Option Nat :=
  (s.nodes.get n).next

/-- The thread of node `n`. -/
def threadOf (s : WaitSet) (n : Nat) : Nat :=
  (s.nodes.get n).thread

/-- The wait set holds the nodes of a queue in this order. -/
structure Represents (s : WaitSet) (queue : List Nat) : Prop where
  linked : Segment s.next s.head queue none
  tail : s.tail = queue.getLast?
  nodup : queue.Nodup
  made : ∀ n ∈ queue, n < s.made

/-- What an operation does to the nodes: it notifies some of them. -/
structure Marks (s : WaitSet) (popped : List Nat) (s' : WaitSet) : Prop where
  made : s'.made = s.made
  threadOf : ∀ n, s'.threadOf n = s.threadOf n
  notified : ∀ n, s'.isNotified n ↔ n ∈ popped ∨ s.isNotified n

theorem Marks.refl (s : WaitSet) : Marks s [] s :=
  ⟨rfl, fun _ => rfl, fun _ => by simp⟩

theorem Marks.trans {s s' s'' : WaitSet} {first second : List Nat} (before : Marks s first s')
    (after : Marks s' second s'') : Marks s (first ++ second) s'' := by
  refine ⟨after.made.trans before.made, fun n => ?_, fun n => ?_⟩
  · rw [after.threadOf, before.threadOf]
  · rw [after.notified, before.notified, List.mem_append]
    tauto

section Links

variable (s : WaitSet) (n k : Nat) (last : Option Nat)

theorem next_link : (s.link n last).next k = if k = n then last else s.next k := by
  simp only [next, link, Table.get_modify]
  split <;> rfl

theorem threadOf_link : (s.link n last).threadOf k = s.threadOf k := by
  simp only [threadOf, link, Table.get_modify]
  split
  · subst k
    rfl
  · rfl

theorem isNotified_link : (s.link n last).isNotified k = s.isNotified k := by
  simp only [isNotified, link, Table.get_modify]
  split
  · subst k
    rfl
  · rfl

theorem head_link : (s.link n last).head = s.head := rfl

theorem marks_link : Marks s [] (s.link n last) :=
  ⟨rfl, fun k => threadOf_link s n k last, fun k => by simp [isNotified_link]⟩

end Links

variable {s : WaitSet} {queue : List Nat} {n : Nat}

theorem represents_empty : Represents {} [] := ⟨rfl, rfl, List.nodup_nil, nofun⟩

theorem walk_eq {fuel : Nat} {start : Option Nat} (linked : Segment s.next start queue none)
    (enough : queue.length ≤ fuel) : s.walk fuel start = queue := by
  induction queue generalizing fuel start with
  | nil =>
    cases linked
    cases fuel <;> rfl
  | cons n queue ih =>
    obtain ⟨rfl, rest⟩ := linked
    cases fuel with
    | zero => exact absurd enough (by simp)
    | succ fuel =>
      rw [walk]
      exact congrArg (n :: ·) (ih rest (by simpa using enough))

namespace Represents

/-- A wait set has no more nodes in its queue than have been made. -/
theorem length_le (represents : Represents s queue) : queue.length ≤ s.made := by
  have inside : queue ⊆ List.range s.made :=
    fun n queued => List.mem_range.mpr (represents.made n queued)
  simpa using (represents.nodup.subperm inside).length_le

theorem toList_eq (represents : Represents s queue) : s.toList = queue :=
  walk_eq represents.linked represents.length_le

theorem head_eq (represents : Represents s queue) : s.head = queue.head? := by
  have linked := represents.linked
  cases queue with
  | nil => exact linked
  | cons n rest => exact linked.1

theorem make (represents : Represents s queue) (thread : Nat) :
    Represents (s.make thread).2 queue where
  linked := by
    refine represents.linked.congr fun k queued => ?_
    have other : k ≠ s.made := Nat.ne_of_lt (represents.made k queued)
    simp [WaitSet.make, next, Table.get_set_other _ _ other]
  tail := represents.tail
  nodup := represents.nodup
  made k queued := Nat.lt_succ_of_lt (represents.made k queued)

end Represents

theorem push_of_empty (empty : s.tail = none) :
    s.push n = { s.link n none with head := some n, tail := some n } := by
  have tail : (s.link n none).tail = none := empty
  simp only [push, tail]

theorem push_of_last {last : Nat} (ends : s.tail = some last) :
    s.push n = { (s.link n none).link last (some n) with tail := some n } := by
  have tail : (s.link n none).tail = some last := ends
  simp only [push, tail]

theorem marks_push (s : WaitSet) (n : Nat) : Marks s [] (s.push n) := by
  have marks := marks_link s n none
  cases tail : s.tail with
  | none =>
    rw [push_of_empty tail]
    exact ⟨marks.made, marks.threadOf, marks.notified⟩
  | some last =>
    have both := marks.trans (marks_link (s.link n none) last (some n))
    rw [push_of_last tail]
    exact ⟨both.made, both.threadOf, both.notified⟩

/-- A node that is not queued joins at the end. -/
theorem Represents.push (represents : Represents s queue) (new : n ∉ queue) (made : n < s.made) :
    Represents (s.push n) (queue ++ [n]) := by
  have nodup : (queue ++ [n]).Nodup :=
    List.nodup_middle.mpr (by simpa using ⟨new, represents.nodup⟩)
  have all_made : ∀ k ∈ queue ++ [n], k < (s.push n).made := by
    intro k queued
    rw [(marks_push s n).made]
    rcases List.mem_append.mp queued with old | last
    · exact represents.made k old
    · rwa [List.mem_singleton.mp last]
  have linked : Segment (s.link n none).next s.head queue none := by
    refine represents.linked.congr fun k queued => ?_
    rw [next_link, if_neg (ne_of_mem_of_not_mem queued new)]
  rcases List.eq_nil_or_concat' queue with rfl | ⟨front, last, rfl⟩
  · rw [push_of_empty represents.tail] at all_made ⊢
    have ends : (s.link n none).next n = none := by simp [next_link]
    exact ⟨⟨rfl, ends⟩, rfl, nodup, all_made⟩
  · have some_tail : s.tail = some last := by simp [represents.tail]
    obtain ⟨middle, first, rfl, ends⟩ := Segment.append.mp linked
    have last_new : n ≠ last := (ne_of_mem_of_not_mem (by simp) new).symm
    have once : last ∉ front := by simpa using (List.nodup_middle.mp represents.nodup).notMem
    have front_other : ∀ k ∈ front, k ≠ last := fun k inside => ne_of_mem_of_not_mem inside once
    rw [push_of_last some_tail] at all_made ⊢
    refine ⟨?_, by simp, nodup, all_made⟩
    show Segment _ ((s.link n none).link last (some n)).head _ none
    rw [head_link, head_link]
    refine Segment.append.mpr ⟨some n, Segment.append.mpr ⟨some last, ?_, rfl, ?_⟩, rfl, ?_⟩
    · refine first.congr fun k inside => ?_
      exact (next_link _ last k _).trans (if_neg (front_other k inside))
    · exact (next_link _ last last _).trans (if_pos rfl)
    · refine (next_link _ last n _).trans ?_
      rw [if_neg last_new, next_link, if_pos rfl]

theorem Represents.join (represents : Represents s queue) (thread : Nat) :
    Represents ((s.make thread).2.push s.made) (queue ++ [s.made]) :=
  (represents.make thread).push (fun queued => Nat.lt_irrefl _ (represents.made _ queued))
    (Nat.lt_succ_self _)

/-- The node that joins belongs to the thread that it is made for and has not been notified. -/
theorem join_nodes (s : WaitSet) (thread : Nat) :
    ((s.make thread).2.push s.made).made = s.made + 1 ∧
      ((s.make thread).2.push s.made).threadOf s.made = thread ∧
      ((s.make thread).2.push s.made).isNotified s.made = false ∧
      ∀ k, k ≠ s.made → ((s.make thread).2.push s.made).threadOf k = s.threadOf k ∧
        ((s.make thread).2.push s.made).isNotified k = s.isNotified k := by
  have marks := marks_push (s.make thread).2 s.made
  have same : ∀ k,
      ((s.make thread).2.push s.made).isNotified k = (s.make thread).2.isNotified k := by
    intro k
    rw [Bool.eq_iff_iff, marks.notified]
    simp
  refine ⟨marks.made, ?_, ?_, fun k other => ⟨?_, ?_⟩⟩
  · rw [marks.threadOf]
    simp [make, threadOf]
  · rw [same]
    simp [make, isNotified]
  · rw [marks.threadOf]
    simp [make, threadOf, Table.get_set_other _ _ other]
  · rw [same]
    simp [make, isNotified, Table.get_set_other _ _ other]

/-- A walk from the first of some nodes to node `n`, which is behind them, finds the last of
them. -/
theorem predecessor?_of_segment {xs : List Nat} {fuel : Nat} {before start : Option Nat}
    (segment : Segment s.next start xs (some n)) (new : n ∉ xs) (enough : xs.length < fuel) :
    s.predecessor? n fuel before start = some (xs.getLast?.or before) := by
  induction xs generalizing fuel before start with
  | nil =>
    cases segment
    cases fuel with
    | zero => exact absurd enough (Nat.lt_irrefl 0)
    | succ fuel => simp [predecessor?]
  | cons k xs ih =>
    obtain ⟨rfl, rest⟩ := segment
    rw [List.mem_cons, not_or] at new
    cases fuel with
    | zero => exact absurd enough (Nat.not_lt_zero _)
    | succ fuel =>
      rw [predecessor?, if_neg (Ne.symm new.1)]
      refine (ih rest new.2 (by simpa using enough)).trans ?_
      cases xs with
      | nil => rfl
      | cons k' xs => simp [List.getLast?_cons]

/-- A walk through the whole queue does not meet a node that is not in it. -/
theorem predecessor?_of_not_mem {fuel : Nat} {before start : Option Nat}
    (linked : Segment s.next start queue none) (new : n ∉ queue) :
    s.predecessor? n fuel before start = none := by
  induction queue generalizing fuel before start with
  | nil =>
    cases linked
    cases fuel <;> rfl
  | cons k queue ih =>
    obtain ⟨rfl, rest⟩ := linked
    rw [List.mem_cons, not_or] at new
    cases fuel with
    | zero => rfl
    | succ fuel =>
      rw [predecessor?, if_neg (Ne.symm new.1)]
      exact ih rest new.2

theorem marks_remove (s : WaitSet) (n : Nat) : Marks s [] (s.remove n).1 := by
  unfold remove
  split
  · exact .refl s
  · rename_i before _
    cases before with
    | none => exact ⟨rfl, fun _ => rfl, fun _ => by simp [isNotified]⟩
    | some p =>
      have marks := marks_link s p (s.next n)
      exact ⟨marks.made, marks.threadOf, marks.notified⟩

theorem remove_of_not_mem (represents : Represents s queue) (absent : n ∉ queue) :
    s.remove n = (s, false) := by
  rw [remove, predecessor?_of_not_mem represents.linked absent]

/-- A node in the middle of the queue is taken out of it. -/
theorem Represents.remove_mem {xs ys : List Nat} (represents : Represents s (xs ++ n :: ys)) :
    Represents (s.remove n).1 (xs ++ ys) ∧ (s.remove n).2 = true := by
  have once : n ∉ xs ++ ys := (List.nodup_middle.mp represents.nodup).notMem
  have nodup : (xs ++ ys).Nodup := (List.nodup_middle.mp represents.nodup).of_cons
  have made : ∀ k ∈ xs ++ ys, k < s.made := fun k inside =>
    represents.made k (by simp only [List.mem_append, List.mem_cons] at inside ⊢; tauto)
  rw [List.mem_append, not_or] at once
  obtain ⟨middle, first, rfl, rest⟩ := Segment.append.mp represents.linked
  have short : xs.length < s.made := by
    have length := represents.length_le
    simp only [List.length_append, List.length_cons] at length
    omega
  have found : s.predecessor? n s.made none s.head = some (xs.getLast?.or none) :=
    predecessor?_of_segment first once.1 short
  have tail_n : s.tail = some n ↔ ys = [] := by
    rw [represents.tail]
    rcases List.eq_nil_or_concat' ys with rfl | ⟨front, last, rfl⟩
    · simp
    · have other : last ≠ n := ne_of_mem_of_not_mem (by simp) once.2
      simp [List.getLast?_append, List.getLast?_cons, other]
  have tail : (if s.tail = some n then xs.getLast? else s.tail) = (xs ++ ys).getLast? := by
    by_cases ends : ys = []
    · simp [tail_n.mpr ends, ends]
    · rw [if_neg (tail_n.not.mpr ends), represents.tail]
      cases ys with
      | nil => exact absurd rfl ends
      | cons y ys => simp [List.getLast?_append, List.getLast?_cons]
  rcases List.eq_nil_or_concat' xs with rfl | ⟨front, p, rfl⟩
  · simp only [remove, found]
    exact ⟨⟨rest, tail, nodup, made⟩, trivial⟩
  · have apart : p ∉ front ++ ys := by
      rw [List.append_assoc, List.singleton_append] at nodup
      exact (List.nodup_middle.mp nodup).notMem
    have other : ∀ k ∈ front ++ ys, (s.link p (s.next n)).next k = s.next k := fun k inside => by
      rw [next_link, if_neg (ne_of_mem_of_not_mem inside apart)]
    obtain ⟨middle, to_p, rfl, -⟩ := Segment.append.mp first
    have linked : Segment (s.link p (s.next n)).next s.head (front ++ [p] ++ ys) none := by
      refine Segment.append.mpr ⟨s.next n, Segment.append.mpr ⟨some p, ?_, rfl, ?_⟩, ?_⟩
      · exact to_p.congr fun k inside => other k (List.mem_append_left _ inside)
      · exact (next_link s p p _).trans (if_pos rfl)
      · exact rest.congr fun k inside => other k (List.mem_append_right _ inside)
    have before_n : s.predecessor? n s.made none s.head = some (some p) := by simpa using found
    have ends : (if s.tail = some n then some p else s.tail) = (front ++ [p] ++ ys).getLast? := by
      simpa using tail
    simp only [remove, before_n]
    exact ⟨⟨linked, ends, nodup, made⟩, trivial⟩

/-- A node is taken out of the queue if it is there. -/
theorem Represents.remove (represents : Represents s queue) (n : Nat) :
    Represents (s.remove n).1 (queue.erase n) ∧ (s.remove n).2 = decide (n ∈ queue) := by
  by_cases queued : n ∈ queue
  · obtain ⟨xs, ys, -, rfl, erased⟩ := List.exists_erase_eq queued
    rw [erased, decide_eq_true queued]
    exact represents.remove_mem
  · rw [remove_of_not_mem represents queued, List.erase_of_not_mem queued, decide_eq_false queued]
    exact ⟨represents, rfl⟩

theorem pop_of_head (head : s.head = some n) :
    s.pop = some ({ s with
      head := s.next n
      tail := if (s.next n).isNone then none else s.tail
      nodes := s.nodes.set n { s.nodes.get n with notified := true } }, s.threadOf n) := by
  simp only [pop, head]
  rfl

theorem pop_of_empty (represents : Represents s []) : s.pop = none := by
  have head : s.head = none := represents.linked
  simp only [pop, head]

/-- The first node is popped, and its thread is returned. -/
theorem Represents.pop {rest : List Nat} (represents : Represents s (n :: rest)) :
    ∃ s', s.pop = some (s', s.threadOf n) ∧ Represents s' rest ∧ Marks s [n] s' := by
  obtain ⟨here, linked⟩ := represents.linked
  obtain ⟨absent, nodup⟩ := List.nodup_cons.mp represents.nodup
  refine ⟨_, pop_of_head here, ⟨?_, ?_, nodup, ?_⟩, rfl, fun k => ?_, fun k => ?_⟩
  · refine linked.congr fun k queued => ?_
    simp [next, Table.get_set_other _ _ (ne_of_mem_of_not_mem queued absent)]
  · rw [represents.tail]
    cases rest with
    | nil =>
      have last : s.next n = none := linked
      simp [last]
    | cons k rest =>
      have behind : s.next n = some k := linked.1
      simp [behind, List.getLast?_cons]
  · exact fun k queued => represents.made k (List.mem_cons_of_mem _ queued)
  · simp only [threadOf, Table.get_set]
    split
    · subst k
      rfl
    · rfl
  · simp only [isNotified, Table.get_set, List.mem_singleton]
    split
    · simp_all
    · simp_all

theorem Represents.eq_nil_of_pop (represents : Represents s queue) (nobody : s.pop = none) :
    queue = [] := by
  cases queue with
  | nil => rfl
  | cons n rest =>
    obtain ⟨s', pops, -⟩ := represents.pop
    rw [nobody] at pops
    cases pops

/-- What is popped is the first node of the queue. -/
theorem Represents.eq_cons_of_pop {s' : WaitSet} {thread : Nat} (represents : Represents s queue)
    (pops : s.pop = some (s', thread)) :
    ∃ n rest, queue = n :: rest ∧ thread = s.threadOf n ∧ Represents s' rest ∧ Marks s [n] s' := by
  cases queue with
  | nil =>
    rw [pop_of_empty represents] at pops
    cases pops
  | cons n rest =>
    obtain ⟨popped, pops_n, represents', marks⟩ := represents.pop
    rw [pops] at pops_n
    cases pops_n
    exact ⟨n, rest, rfl, rfl, represents', marks⟩

/-- All nodes are popped in their order. -/
theorem Represents.popMany {fuel : Nat} (represents : Represents s queue)
    (enough : queue.length ≤ fuel) :
    (s.popMany fuel).2 = queue.map s.threadOf ∧ Represents (s.popMany fuel).1 [] ∧
      Marks s queue (s.popMany fuel).1 := by
  induction queue generalizing s fuel with
  | nil =>
    have same : s.popMany fuel = (s, []) := by
      cases fuel with
      | zero => rfl
      | succ fuel => rw [WaitSet.popMany, pop_of_empty represents]
    rw [same]
    exact ⟨rfl, represents, .refl s⟩
  | cons n queue ih =>
    cases fuel with
    | zero => exact absurd enough (by simp)
    | succ fuel =>
      obtain ⟨s', pops, represents', marks⟩ := represents.pop
      obtain ⟨threads, empty, marks'⟩ := ih represents' (by simpa using enough)
      simp only [WaitSet.popMany, pops]
      refine ⟨?_, empty, marks.trans marks'⟩
      rw [List.map_cons, threads]
      exact congrArg _ (List.map_congr_left fun k _ => marks.threadOf k)

theorem Represents.popAll (represents : Represents s queue) :
    s.popAll.2 = queue.map s.threadOf ∧ Represents s.popAll.1 [] ∧ Marks s queue s.popAll.1 :=
  represents.popMany represents.length_le

end Interlock.WaitSet

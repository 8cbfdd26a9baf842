import Interlock.Proofs.WaitSet

/-!
# What the operations of a wait set look at

An operation follows links from the first and the last node of the queue, so it comes to nodes of
the queue only, and to the one that it is given. The cells of all other nodes may hold anything:
the operation goes the same way and leaves them as they are. `SameBut` compares two wait sets that
differ in such cells, and `Spares` says this of an operation on both of them.
-/

namespace Interlock.WaitSet

/-- Two wait sets that differ in the cells of some nodes at most. -/
structure SameBut (dead : Nat → Prop) (s r : WaitSet) : Prop where
  head : r.head = s.head
  tail : r.tail = s.tail
  made : r.made = s.made
  nodes : ∀ n, ¬ dead n → r.nodes.get n = s.nodes.get n

/-- What an operation has made of two wait sets is the same but for the cells of some nodes, and
these cells it has left as they were. -/
structure Spares (dead : Nat → Prop) (r s' r' : WaitSet) : Prop where
  same : SameBut dead s' r'
  kept : ∀ n, dead n → r'.nodes.get n = r.nodes.get n

variable {dead : Nat → Prop} {s r s' r' : WaitSet} {queue : List Nat} {n : Nat}

/-- No link leads out of the queue. -/
theorem Represents.linked_mem (represents : s.Represents queue) :
    (∀ n, s.head = some n → n ∈ queue) ∧ (∀ n, s.tail = some n → n ∈ queue) ∧
      ∀ k ∈ queue, ∀ n, s.next k = some n → n ∈ queue := by
  refine ⟨fun n head => ?_, fun n tail => ?_, fun k queued n behind => ?_⟩
  · rw [represents.head_eq] at head
    exact List.mem_of_mem_head? head
  · rw [represents.tail] at tail
    exact List.mem_of_getLast? tail
  · obtain ⟨xs, ys, rfl⟩ := List.append_of_mem queued
    obtain ⟨middle, -, rfl, rest⟩ := Segment.append.mp represents.linked
    cases ys with
    | nil =>
      have last : s.next k = none := rest
      rw [last] at behind
      cases behind
    | cons y ys =>
      have follows : s.next k = some y := rest.1
      rw [follows] at behind
      cases behind
      simp

theorem SameBut.spares (same : SameBut dead s r) : Spares dead r s r :=
  ⟨same, fun _ _ => rfl⟩

theorem Spares.trans {s'' r'' : WaitSet} (first : Spares dead r s' r')
    (second : Spares dead r' s'' r'') : Spares dead r s'' r'' :=
  ⟨second.same, fun n gone => (second.kept n gone).trans (first.kept n gone)⟩

namespace SameBut

theorem next (same : SameBut dead s r) (alive : ¬ dead n) : r.next n = s.next n :=
  congrArg WaitNode.next (same.nodes n alive)

theorem threadOf (same : SameBut dead s r) (alive : ¬ dead n) : r.threadOf n = s.threadOf n :=
  congrArg WaitNode.thread (same.nodes n alive)

theorem isNotified (same : SameBut dead s r) (alive : ¬ dead n) :
    r.isNotified n = s.isNotified n :=
  congrArg WaitNode.notified (same.nodes n alive)

/-- Both hold the same queue. -/
theorem represents (same : SameBut dead s r) (represents : s.Represents queue)
    (alive : ∀ n ∈ queue, ¬ dead n) : r.Represents queue where
  linked := by
    rw [same.head]
    exact represents.linked.congr fun n queued => same.next (alive n queued)
  tail := same.tail.trans represents.tail
  nodup := represents.nodup
  made n queued := same.made ▸ represents.made n queued

theorem isEmpty (same : SameBut dead s r) : r.isEmpty = s.isEmpty := by
  simp only [WaitSet.isEmpty, same.head]

theorem count (same : SameBut dead s r) (represents : s.Represents queue)
    (alive : ∀ n ∈ queue, ¬ dead n) : r.count = s.count := by
  rw [WaitSet.count, WaitSet.count, (same.represents represents alive).toList_eq,
    represents.toList_eq]

/-- The same is written into the cell of a node. -/
theorem set (same : SameBut dead s r) (alive : ¬ dead n) (node : WaitNode) :
    Spares dead r { s with nodes := s.nodes.set n node } { r with nodes := r.nodes.set n node } where
  same := by
    refine ⟨same.head, same.tail, same.made, fun k other => ?_⟩
    simp only [Table.get_set]
    split
    · rfl
    · exact same.nodes k other
  kept k gone := Table.get_set_other _ _ fun same_node => alive (same_node ▸ gone)

theorem link (same : SameBut dead s r) (alive : ¬ dead n) (next : Option Nat) :
    Spares dead r (s.link n next) (r.link n next) := by
  have written := same.set alive { s.nodes.get n with next }
  unfold WaitSet.link Table.modify
  rwa [same.nodes n alive]

/-- The first and the last node are chosen alike. -/
theorem ends (same : SameBut dead s r) (head tail : Option Nat) :
    Spares dead r { s with head, tail } { r with head, tail } :=
  ⟨⟨rfl, rfl, same.made, same.nodes⟩, fun _ _ => rfl⟩

theorem make (same : SameBut dead s r) (fresh : ¬ dead s.made) (thread : Nat) :
    Spares dead r (s.make thread).2 (r.make thread).2 := by
  have written := same.set fresh { thread }
  unfold WaitSet.make
  rw [same.made]
  exact ⟨⟨same.head, same.tail, rfl, written.same.nodes⟩, written.kept⟩

theorem push (same : SameBut dead s r) (represents : s.Represents queue)
    (alive : ∀ n ∈ queue, ¬ dead n) (fresh : ¬ dead n) :
    Spares dead r (s.push n) (r.push n) := by
  have first := same.link fresh none
  cases tail : s.tail with
  | none =>
    rw [push_of_empty tail, push_of_empty (same.tail.trans tail)]
    exact first.trans (first.same.ends (some n) (some n))
  | some last =>
    have queued : last ∈ queue := by
      rw [represents.tail] at tail
      exact List.mem_of_getLast? tail
    have both := first.trans (first.same.link (alive last queued) (some n))
    rw [push_of_last tail, push_of_last (same.tail.trans tail)]
    exact ⟨⟨same.head, rfl, both.same.made, both.same.nodes⟩, both.kept⟩

/-- A wait joins in the same way. -/
theorem join (same : SameBut dead s r) (represents : s.Represents queue)
    (alive : ∀ n ∈ queue, ¬ dead n) (fresh : ¬ dead s.made) (thread : Nat) :
    Spares dead r ((s.make thread).2.push s.made) ((r.make thread).2.push r.made) := by
  have first := same.make fresh thread
  rw [same.made]
  exact first.trans (first.same.push (represents.make thread) alive fresh)

theorem remove (same : SameBut dead s r) (represents : s.Represents queue)
    (alive : ∀ n ∈ queue, ¬ dead n) (n : Nat) :
    (r.remove n).2 = (s.remove n).2 ∧ Spares dead r (s.remove n).1 (r.remove n).1 := by
  have represents' := same.represents represents alive
  by_cases queued : n ∈ queue
  · obtain ⟨xs, ys, rfl⟩ := List.append_of_mem queued
    have once : n ∉ xs := fun before =>
      (List.nodup_middle.mp represents.nodup).notMem (List.mem_append_left ys before)
    -- both walks stop at the same place, since both follow the links of the queue
    have found {w : WaitSet} (holds : w.Represents (xs ++ n :: ys)) :
        w.predecessor? n w.made none w.head = some (xs.getLast?.or none) := by
      obtain ⟨middle, before, rfl, -⟩ := Segment.append.mp holds.linked
      have length := holds.length_le
      simp only [List.length_append, List.length_cons] at length
      exact predecessor?_of_segment before once (by omega)
    have behind : (r.nodes.get n).next = (s.nodes.get n).next := same.next (alive n queued)
    rcases List.eq_nil_or_concat' xs with rfl | ⟨front, p, rfl⟩
    · have found_s : s.predecessor? n s.made none s.head = some none := found represents
      have found_r : r.predecessor? n r.made none r.head = some none := found represents'
      simp only [WaitSet.remove, found_s, found_r, same.tail, behind]
      exact ⟨trivial, same.ends _ _⟩
    · have found_s : s.predecessor? n s.made none s.head = some (some p) := by
        simpa using found represents
      have found_r : r.predecessor? n r.made none r.head = some (some p) := by
        simpa using found represents'
      have linked := same.link (alive p (by simp)) (s.nodes.get n).next
      simp only [WaitSet.remove, found_s, found_r, same.tail, behind]
      exact ⟨trivial, ⟨same.head, rfl, linked.same.made, linked.same.nodes⟩, linked.kept⟩
  · rw [remove_of_not_mem represents queued, remove_of_not_mem represents' queued]
    exact ⟨rfl, same.spares⟩

/-- The same node is popped. -/
theorem pop (same : SameBut dead s r) (represents : s.Represents queue)
    (alive : ∀ n ∈ queue, ¬ dead n) :
    r.pop = none ∧ s.pop = none ∨ ∃ s' r' thread, s.pop = some (s', thread) ∧
      r.pop = some (r', thread) ∧ Spares dead r s' r' := by
  cases head : s.head with
  | none =>
    left
    simp only [WaitSet.pop, same.head, head]
    exact ⟨trivial, trivial⟩
  | some n =>
    right
    have alive_n := alive n (represents.linked_mem.1 n head)
    have popped := pop_of_head (same.head.trans head)
    have written := same.set alive_n { s.nodes.get n with notified := true }
    rw [same.threadOf alive_n, same.next alive_n, same.nodes n alive_n, same.tail] at popped
    exact ⟨_, _, _, pop_of_head head, popped, written.trans (written.same.ends _ _)⟩

/-- The same nodes are popped. -/
theorem popMany (same : SameBut dead s r) (represents : s.Represents queue)
    (alive : ∀ n ∈ queue, ¬ dead n) (fuel : Nat) :
    (r.popMany fuel).2 = (s.popMany fuel).2 ∧
      Spares dead r (s.popMany fuel).1 (r.popMany fuel).1 := by
  induction fuel generalizing s r queue with
  | zero => exact ⟨rfl, same.spares⟩
  | succ fuel ih =>
    rcases same.pop represents alive with ⟨none_r, none_s⟩ | ⟨s', r', thread, pops, pops', spares⟩
    · simp only [WaitSet.popMany, none_r, none_s]
      exact ⟨trivial, same.spares⟩
    · obtain ⟨n, rest, rfl, -, represents', -⟩ := represents.eq_cons_of_pop pops
      obtain ⟨threads, spares'⟩ :=
        ih spares.same represents' fun k queued => alive k (List.mem_cons_of_mem n queued)
      simp only [WaitSet.popMany, pops, pops', threads]
      exact ⟨trivial, spares.trans spares'⟩

theorem popAll (same : SameBut dead s r) (represents : s.Represents queue)
    (alive : ∀ n ∈ queue, ¬ dead n) :
    r.popAll.2 = s.popAll.2 ∧ Spares dead r s.popAll.1 r.popAll.1 := by
  rw [WaitSet.popAll, WaitSet.popAll, same.made]
  exact same.popMany represents alive s.made

end SameBut

end Interlock.WaitSet

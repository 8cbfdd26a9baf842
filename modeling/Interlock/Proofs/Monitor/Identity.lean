import Interlock.Monitor.Basic
import Mathlib.Algebra.Group.Nat.Defs
import Mathlib.Data.Finset.Card

/-!
# Identities of threads

A thread is given an identity when it first needs one. As long as there are fewer than `2 ^ 64`
threads, no two threads have the same identity and none has identity zero.
-/

namespace Interlock.Monitor

variable {V : Type}

/-- The threads that have an identity. -/
def identified (threads : Nat) (m : Monitor V) : Finset Nat :=
  (Finset.range threads).filter fun t => m.identities.get t ≠ 0

/-- The identities given so far: the first ones above zero, each to one thread. -/
structure Identified (threads : Nat) (m : Monitor V) : Prop where
  distinct : ∀ {s t : Nat}, m.identities.get s ≠ 0 → m.identities.get s = m.identities.get t → s = t
  members : ∀ {t : Nat}, m.identities.get t ≠ 0 → t < threads
  given : ∀ t, (m.identities.get t).toNat ≤ (identified threads m).card
  next : (identified threads m).card < threads →
    m.nextIdentity.toNat = (identified threads m).card + 1

theorem identities_identify (m : Monitor V) (t s : Nat) :
    (m.identify t).identities.get s =
      if s = t ∧ m.identities.get t = 0 then m.nextIdentity else m.identities.get s := by
  unfold identify
  by_cases unnamed : m.identities.get t = 0
  · simp [unnamed, Table.get_set]
  · simp [unnamed]

/-- An identity that has been given stays. -/
theorem identities_identify_of_ne_zero {m : Monitor V} {s : Nat} (t : Nat)
    (named : m.identities.get s ≠ 0) :
    (m.identify t).identities.get s = m.identities.get s := by
  rw [identities_identify, if_neg]
  rintro ⟨rfl, unnamed⟩
  exact named unnamed

theorem card_identified_lt {threads t : Nat} {m : Monitor V} (member : t < threads)
    (unnamed : m.identities.get t = 0) : (identified threads m).card < threads := by
  have fresh : t ∉ identified threads m := by simp [identified, unnamed]
  have all : insert t (identified threads m) ⊆ Finset.range threads := by
    intro s
    simp only [identified, Finset.mem_insert, Finset.mem_filter, Finset.mem_range]
    rintro (rfl | ⟨inside, -⟩)
    · exact member
    · exact inside
  have bound := Finset.card_le_card all
  rw [Finset.card_insert_of_notMem fresh, Finset.card_range] at bound
  omega

theorem card_identified_identify {threads t : Nat} {m : Monitor V} (member : t < threads)
    (unnamed : m.identities.get t = 0) (some_number : m.nextIdentity ≠ 0) :
    (identified threads (m.identify t)).card = (identified threads m).card + 1 := by
  have fresh : t ∉ identified threads m := by simp [identified, unnamed]
  have grown : identified threads (m.identify t) = insert t (identified threads m) := by
    ext s
    simp only [identified, Finset.mem_insert, Finset.mem_filter, Finset.mem_range,
      identities_identify]
    by_cases same : s = t
    · simp [same, member, unnamed, some_number]
    · simp [same]
  rw [grown, Finset.card_insert_of_notMem fresh]

namespace Identified

variable {threads : Nat} {m : Monitor V}

theorem new (value : V) (lock : Lock) : Identified threads { value, lock } where
  distinct named := absurd (Table.get_empty _) named
  members named := absurd (Table.get_empty _) named
  given t := by
    rw [Table.get_empty]
    exact Nat.zero_le _
  next _ := by
    have nobody : identified threads ({ value, lock } : Monitor V) = ∅ :=
      Finset.filter_false_of_mem fun t _ named => named (Table.get_empty t)
    rw [nobody]
    rfl

/-- The next identity is a number that no thread has. -/
theorem next_unused (ids : Identified threads m) {t : Nat} (member : t < threads)
    (unnamed : m.identities.get t = 0) :
    m.nextIdentity ≠ 0 ∧ ∀ s, m.identities.get s ≠ m.nextIdentity := by
  have number := ids.next (card_identified_lt member unnamed)
  refine ⟨?_, ?_⟩
  · intro zero
    rw [zero] at number
    cases number
  · intro s equal
    have bound := ids.given s
    rw [equal] at bound
    omega

/-- A thread that makes sure of its identity has one afterwards, its old one or a new one. -/
theorem identify (ids : Identified threads m) (few : threads < 2 ^ 64) {t : Nat}
    (member : t < threads) :
    Identified threads (m.identify t) ∧ (m.identify t).identities.get t ≠ 0 := by
  by_cases unnamed : m.identities.get t = 0
  case neg =>
    have same : m.identify t = m := by simp [Monitor.identify, unnamed]
    rw [same]
    exact ⟨ids, unnamed⟩
  obtain ⟨some_number, unused⟩ := ids.next_unused member unnamed
  have count := card_identified_identify member unnamed some_number
  have get (s : Nat) : (m.identify t).identities.get s =
      if s = t then m.nextIdentity else m.identities.get s := by
    rw [identities_identify]
    simp [unnamed]
  have number := ids.next (card_identified_lt member unnamed)
  refine ⟨⟨?_, ?_, ?_, ?_⟩, by simpa [get] using some_number⟩
  · intro s s' named equal
    rw [get] at named
    rw [get, get] at equal
    by_cases same : s = t <;> by_cases same' : s' = t
    · rw [same, same']
    · rw [if_pos same, if_neg same'] at equal
      exact absurd equal.symm (unused s')
    · rw [if_neg same, if_pos same'] at equal
      exact absurd equal (unused s)
    · rw [if_neg same, if_neg same'] at equal
      rw [if_neg same] at named
      exact ids.distinct named equal
  · intro s named
    rw [get] at named
    by_cases same : s = t
    · exact same ▸ member
    · rw [if_neg same] at named
      exact ids.members named
  · intro s
    rw [get, count]
    by_cases same : s = t
    · rw [if_pos same]
      omega
    · rw [if_neg same]
      exact Nat.le_succ_of_le (ids.given s)
  · intro more
    have next_identity : (m.identify t).nextIdentity = m.nextIdentity + 1 := by
      simp [Monitor.identify, unnamed]
    rw [count] at more
    rw [next_identity, count, UInt64.toNat_add, number]
    exact Nat.mod_eq_of_lt (by simp; omega)

/-- An access that leaves the identities alone. -/
theorem congr {m' : Monitor V} (ids : Identified threads m)
    (identities : m'.identities = m.identities) (next : m'.nextIdentity = m.nextIdentity) :
    Identified threads m' := by
  have same : identified threads m' = identified threads m := by
    unfold identified
    rw [identities]
  refine ⟨?_, ?_, ?_, ?_⟩
  · rw [identities]
    exact ids.distinct
  · rw [identities]
    exact ids.members
  · rw [identities, same]
    exact ids.given
  · rw [next, same]
    exact ids.next

end Identified

end Interlock.Monitor

import Interlock.Bench.Results
import Interlock.Proofs.Text
import Mathlib.Data.List.Nodup

/-!
# An index is a map in one way only

The names of an index ascend in the order of their bytes, and each is there once (`Ascending`).
Altering the value of a name keeps the order, and changes what is found for this name only. So an
index is determined by what is found in it (`Ascending.ext`), in whichever order its values came.
The same is true of means by group and function (`Results.Ordered.ext`).
-/

namespace Interlock.Bench

section Lookup

variable {κ β : Type} [BEq κ] [LawfulBEq κ] {entries : List (κ × β)} {key : κ} {value : β}

/-- What is found under a key is the entry with this key, if keys are there once. -/
theorem lookup_eq_some_iff (distinct : (entries.map Prod.fst).Nodup) :
    entries.lookup key = some value ↔ (key, value) ∈ entries := by
  induction entries with
  | nil => simp
  | cons entry rest ih =>
    obtain ⟨other, found⟩ := entry
    obtain ⟨fresh, distinct⟩ := List.nodup_cons.mp distinct
    rw [List.lookup_cons, List.mem_cons, Prod.mk.injEq]
    cases same : key == other with
    | true =>
      obtain rfl := eq_of_beq same
      have elsewhere : (key, value) ∉ rest := fun member =>
        fresh (List.mem_map.mpr ⟨(key, value), member, rfl⟩)
      simp [elsewhere, eq_comm]
    | false =>
      have differs : key ≠ other := fun equal => by simp [equal] at same
      simp [differs, ih distinct]

theorem lookup_eq_none_iff :
    entries.lookup key = none ↔ key ∉ entries.map Prod.fst := by
  rw [List.lookup_eq_none_iff, List.mem_map, not_exists]
  refine forall_congr' fun entry => ?_
  rw [not_and, bne_iff_ne, ne_comm]

end Lookup

theorem before_iff {a b : String} : before a b ↔ Text.toBytes a < Text.toBytes b :=
  decide_eq_true_iff

theorem not_before_self (a : String) : ¬ before a a :=
  fun less => List.lt_irrefl _ (before_iff.mp less)

theorem before_trans {a b c : String} (first : before a b) (second : before b c) : before a c :=
  before_iff.mpr (List.lt_trans (before_iff.mp first) (before_iff.mp second))

theorem before_asymm {a b : String} (less : before a b) : ¬ before b a :=
  fun more => not_before_self a (before_trans less more)

/-- Of two names one comes first. -/
theorem before_of_not_before {a b : String} (differs : a ≠ b) (after : ¬ before a b) :
    before b a := by
  refine Decidable.byContradiction fun not_less => differs (Text.toBytes_inj ?_)
  exact List.le_antisymm (fun less => not_less (before_iff.mpr less))
    fun less => after (before_iff.mpr less)

namespace Index

variable {β : Type} {index other : Index β} {name name' : String} {value : β}
  {f : Option β → β}

/-- The names ascend, so that each of them is there once. -/
def Ascending (index : Index β) : Prop :=
  index.Pairwise fun a b => before a.1 b.1

theorem Ascending.distinct (ascending : index.Ascending) : (index.map Prod.fst).Nodup := by
  refine List.pairwise_map.mpr (ascending.imp fun less => ?_)
  intro same
  exact not_before_self _ (same ▸ less)

theorem Ascending.mem_iff (ascending : index.Ascending) :
    (name, value) ∈ index ↔ index.get? name = some value :=
  (lookup_eq_some_iff ascending.distinct).symm

/-- An index holds what is found in it, and in one order only. -/
theorem Ascending.ext (ascending : index.Ascending) (ascending' : other.Ascending)
    (same : ∀ name, index.get? name = other.get? name) : index = other := by
  have perm : index.Perm other := by
    refine (List.perm_ext_iff_of_nodup ascending.distinct.of_map ascending'.distinct.of_map).mpr ?_
    rintro ⟨name, value⟩
    rw [ascending.mem_iff, ascending'.mem_iff, same]
  refine perm.eq_of_pairwise (fun a b _ _ less more => ?_) ascending ascending'
  exact absurd more (before_asymm less)

theorem get?_cons (name other : String) (value : β) (rest : Index β) :
    get? name ((other, value) :: rest) = if name = other then some value else get? name rest := by
  unfold get?
  rw [List.lookup_cons]
  by_cases same : name = other
  · simp [same]
  · rw [beq_eq_false_iff_ne.mpr same, if_neg same]

/-- A name that comes before all others is not among them. -/
theorem get?_of_before (first : ∀ entry ∈ index, before name entry.1) :
    index.get? name = none := by
  refine lookup_eq_none_iff.mpr fun member => ?_
  obtain ⟨entry, among, same⟩ := List.mem_map.mp member
  exact not_before_self name (same ▸ first entry among)

/-- What comes before the first name comes before all. -/
theorem before_all {rest : Index β} (ascending : Ascending ((name', value) :: rest))
    (first : before name name') : ∀ entry ∈ (name', value) :: rest, before name entry.1 := by
  intro entry member
  rcases List.mem_cons.mp member with rfl | later
  · exact first
  · exact before_trans first ((List.pairwise_cons.mp ascending).1 entry later)

/-- Altering the value of a name changes what is found for this name, and for no other. -/
theorem get?_alter (ascending : index.Ascending) :
    (index.alter name f).get? name' =
      if name' = name then some (f (index.get? name)) else index.get? name' := by
  induction index with
  | nil => exact get?_cons ..
  | cons entry rest ih =>
    obtain ⟨first, value⟩ := entry
    have ih := ih (List.pairwise_cons.mp ascending).2
    unfold alter
    by_cases same : name = first
    · subst same
      rw [if_pos rfl, get?_cons, get?_cons, get?_cons, if_pos rfl]
      split <;> rfl
    by_cases earlier : before name first
    · rw [if_neg same, if_pos earlier, get?_cons,
        get?_of_before (before_all ascending earlier)]
    · rw [if_neg same, if_neg earlier, get?_cons, ih, get?_cons, get?_cons, if_neg same]
      by_cases found : name' = first
      · rw [if_pos found, if_pos found, if_neg fun equal => same (equal.symm.trans found)]
      · rw [if_neg found, if_neg found]

theorem mem_alter {entry : String × β} (member : entry ∈ index.alter name f) :
    entry.1 = name ∨ entry ∈ index := by
  induction index with
  | nil => exact .inl (congrArg Prod.fst (List.mem_singleton.mp member))
  | cons head rest ih =>
    obtain ⟨first, value⟩ := head
    unfold alter at member
    split at member
    next same =>
      rcases List.mem_cons.mp member with rfl | later
      · exact .inl same.symm
      · exact .inr (List.mem_cons_of_mem _ later)
    next =>
      split at member
      next =>
        rcases List.mem_cons.mp member with rfl | later
        · exact .inl rfl
        · exact .inr later
      next =>
        rcases List.mem_cons.mp member with rfl | later
        · exact .inr (List.mem_cons_self ..)
        · exact (ih later).imp_right (List.mem_cons_of_mem _)

theorem Ascending.alter (ascending : index.Ascending) : (index.alter name f).Ascending := by
  induction index with
  | nil => exact List.pairwise_singleton ..
  | cons head rest ih =>
    obtain ⟨first, value⟩ := head
    obtain ⟨before_rest, rest_ascending⟩ := List.pairwise_cons.mp ascending
    unfold Index.alter
    split
    next => exact List.pairwise_cons.mpr ⟨before_rest, rest_ascending⟩
    next differs =>
      split
      next earlier => exact List.pairwise_cons.mpr ⟨before_all ascending earlier, ascending⟩
      next later =>
        refine List.pairwise_cons.mpr ⟨fun entry member => ?_, ih rest_ascending⟩
        rcases mem_alter member with new | old
        · exact new ▸ before_of_not_before differs later
        · exact before_rest entry old

end Index

namespace Results

open Index

variable {results other : Results} {group function : String} {mean : Float}

/-- Groups and functions ascend. -/
structure Sorted (results : Results) : Prop where
  groups : Ascending results
  functions : ∀ group ∈ results, Ascending group.2

/-- Groups and functions ascend, and no group is empty. -/
structure Ordered (results : Results) : Prop where
  groups : Ascending results
  functions : ∀ group ∈ results, Ascending group.2
  filled : ∀ group ∈ results, group.2 ≠ []

theorem Ordered.sorted (ordered : Ordered results) : Sorted results where
  groups := ordered.groups
  functions := ordered.functions

theorem ordered_nil : Ordered [] where
  groups := .nil
  functions _ member := by cases member
  filled _ member := by cases member

/-- Every index of functions found in results is in order. -/
theorem Sorted.of_get? (sorted : Sorted results) {functions : Index Float}
    (found : get? group results = some functions) : functions.Ascending :=
  sorted.functions _ (sorted.groups.mem_iff.mpr found)

/-- Every index of functions found in results is in order and not empty. -/
theorem Ordered.of_get? (ordered : Ordered results) {functions : Index Float}
    (found : get? group results = some functions) : functions.Ascending ∧ functions ≠ [] := by
  have member := ordered.groups.mem_iff.mpr found
  exact ⟨ordered.functions _ member, ordered.filled _ member⟩

/-- The functions that a group has so far are in order. -/
theorem Sorted.so_far (sorted : Sorted results) :
    ((get? group results).getD []).Ascending := by
  cases found : get? group results with
  | none => exact .nil
  | some functions => exact sorted.of_get? found

theorem get?_record (sorted : Sorted results) {group' : String} :
    get? group' (results.record group function mean) =
      if group' = group then some (((get? group results).getD []).insert function mean)
      else get? group' results :=
  get?_alter sorted.groups

/-- What is recorded is found, and everything else as before. -/
theorem mean?_record (sorted : Sorted results) {group' function' : String} :
    (results.record group function mean).mean? group' function' =
      if group' = group ∧ function' = function then some mean
      else results.mean? group' function' := by
  unfold mean?
  rw [get?_record sorted]
  by_cases same : group' = group
  · subst same
    rw [if_pos rfl, Option.bind_some, Index.insert, get?_alter sorted.so_far]
    by_cases same' : function' = function
    · rw [if_pos same', if_pos ⟨rfl, same'⟩]
    · rw [if_neg same', if_neg fun both => same' both.2]
      cases get? group' results <;> rfl
  · rw [if_neg same, if_neg fun both => same both.1]

theorem Sorted.record (sorted : Sorted results) :
    Sorted (results.record group function mean) := by
  have groups : Ascending (results.record group function mean) := sorted.groups.alter
  refine ⟨groups, ?_⟩
  rintro ⟨group', functions⟩ member
  have found := groups.mem_iff.mp member
  rw [get?_record sorted] at found
  split at found
  next =>
    cases found
    exact sorted.so_far.alter
  next => exact sorted.of_get? found

theorem Ordered.record (ordered : Ordered results) :
    Ordered (results.record group function mean) := by
  have sorted : Sorted (results.record group function mean) := ordered.sorted.record
  refine ⟨sorted.groups, sorted.functions, ?_⟩
  rintro ⟨group', functions⟩ member
  have found := sorted.groups.mem_iff.mp member
  rw [get?_record ordered.sorted] at found
  split at found
  next =>
    cases found
    intro empty
    have present : get? function (((get? group results).getD []).insert function mean) =
        some mean := (get?_alter ordered.sorted.so_far).trans (if_pos rfl)
    exact absurd (present.symm.trans (congrArg (get? function) empty)) (by simp [get?])
  next => exact (ordered.of_get? found).2

/-- A group is there if a function of it has a mean. -/
theorem Ordered.exists_mean (ordered : Ordered results) {functions : Index Float}
    (found : get? group results = some functions) :
    ∃ function mean, results.mean? group function = some mean := by
  obtain ⟨ascending, filled⟩ := ordered.of_get? found
  obtain ⟨⟨function, mean⟩, member⟩ := List.exists_mem_of_ne_nil functions filled
  refine ⟨function, mean, ?_⟩
  rw [mean?, found, Option.bind_some]
  exact ascending.mem_iff.mp member

/-- Results are determined by their means. -/
theorem Ordered.ext (ordered : Ordered results) (ordered' : Ordered other)
    (same : ∀ group function, results.mean? group function = other.mean? group function) :
    results = other := by
  refine ordered.groups.ext ordered'.groups fun group => ?_
  cases found : get? group results with
  | none =>
    cases found' : get? group other with
    | none => rfl
    | some functions' =>
      obtain ⟨function, mean, present⟩ := ordered'.exists_mean found'
      rw [← same, mean?, found] at present
      cases present
  | some functions =>
    cases found' : get? group other with
    | none =>
      obtain ⟨function, mean, present⟩ := ordered.exists_mean found
      rw [same, mean?, found'] at present
      cases present
    | some functions' =>
      have same := same group
      simp only [mean?, found, found', Option.bind_some] at same
      rw [(ordered.of_get? found).1.ext (ordered'.of_get? found').1 same]

end Results

end Interlock.Bench

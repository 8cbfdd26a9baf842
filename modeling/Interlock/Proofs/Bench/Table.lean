import Interlock.Proofs.Bench.Report
import Interlock.Proofs.Bench.Results

/-!
# The rows of a table

Each row of a table is for a function of a group (`labelled`), and the rows are in the order of the
names. What a row says depends on the mean of its function and on the baseline of its group, which
is the mean of the first function that is marked as one (`IsBaseline`). So the rows that two tables
have for a function are the same if these means are (`mem_labelled_congr`), whatever else the two
tables have rows for.
-/

namespace Interlock.Bench

/-- A row of a table, and the function that it is for. -/
structure LabelledRow where
  group : String
  function : String
  text : String

/-- The rows of a table in their order. -/
def labelled (results : Results) : List LabelledRow :=
  results.flatMap fun (group, functions) => functions.map fun (function, mean) =>
    ⟨group, function, row group (baseline? functions) function mean⟩

/-- The order of rows: by the bytes of the group, then by those of the function. -/
def LabelledRow.Precedes (a b : LabelledRow) : Prop :=
  before a.group b.group ∨ a.group = b.group ∧ before a.function b.function

/-- The name is one of a baseline function. -/
def Marked (name : String) : Prop :=
  "std_".toList <+: name.toList

instance (name : String) : Decidable (Marked name) :=
  inferInstanceAs (Decidable (_ <+: _))

/-- The baseline of a group is the mean of the first of its functions that is marked, and there is
none if no function is. -/
def IsBaseline (results : Results) (group : String) : Option Float → Prop
  | some base => ∃ name, Marked name ∧ results.mean? group name = some base ∧
      ∀ other, Marked other → results.mean? group other ≠ none → other = name ∨ before name other
  | none => ∀ name, Marked name → results.mean? group name = none

variable {results other : Results} {functions : Index Float} {group function name : String}
  {base mean : Float} {base? : Option Float} {r : LabelledRow}

theorem rows_eq (results : Results) : rows results = (labelled results).map LabelledRow.text := by
  unfold rows labelled groupRows
  rw [List.map_flatMap]
  simp only [List.map_map]
  rfl

/-! ## The baseline -/

theorem baseline?_eq (functions : Index Float) :
    baseline? functions =
      (functions.find? fun entry => decide (Marked entry.1)).map Prod.snd := by
  have mark : (fun entry : String × Float => decide (Marked entry.1)) =
      fun entry => baselineMark.isPrefixOf entry.1.toList := by
    funext entry
    exact Bool.eq_iff_iff.mpr (decide_eq_true_iff.trans List.isPrefixOf_iff_prefix.symm)
  rw [mark]
  rfl

/-- A function that is found to be the baseline is the first one that is marked. -/
theorem first_of_baseline? (ascending : functions.Ascending)
    (found : baseline? functions = some base) :
    ∃ name, Marked name ∧ functions.get? name = some base ∧
      ∀ other, Marked other → functions.get? other ≠ none → other = name ∨ before name other := by
  rw [baseline?_eq] at found
  obtain ⟨⟨name, mean⟩, first, rfl⟩ := Option.map_eq_some_iff.mp found
  obtain ⟨marked, earlier, later, rfl, unmarked⟩ := List.find?_eq_some_iff_append.mp first
  refine ⟨name, of_decide_eq_true marked, ascending.mem_iff.mp (by simp), ?_⟩
  intro other marked' present
  obtain ⟨mean', found'⟩ := Option.ne_none_iff_exists'.mp present
  rcases List.mem_append.mp (ascending.mem_iff.mpr found') with before_it | from_it
  · have skipped := unmarked (other, mean') before_it
    exact absurd marked' (by simpa using skipped)
  · rcases List.mem_cons.mp from_it with itself | after_it
    · exact .inl (congrArg Prod.fst itself)
    · have order := (List.pairwise_append.mp ascending).2.1
      exact .inr ((List.pairwise_cons.mp order).1 _ after_it)

theorem unmarked_of_baseline? (ascending : functions.Ascending)
    (missing : baseline? functions = none) (marked : Marked name) :
    functions.get? name = none := by
  refine Option.eq_none_iff_forall_ne_some.mpr fun mean found => ?_
  rw [baseline?_eq] at missing
  have unmarked := List.find?_eq_none.mp (Option.map_eq_none_iff.mp missing)
  exact unmarked _ (ascending.mem_iff.mpr found) (decide_eq_true marked)

/-- The functions of a group have the baseline of the group. -/
theorem isBaseline_baseline? (sorted : results.Sorted)
    (found : Index.get? group results = some functions) :
    IsBaseline results group (baseline? functions) := by
  have ascending := sorted.of_get? found
  have means (name : String) : results.mean? group name = functions.get? name := by
    rw [Results.mean?, found, Option.bind_some]
  cases chosen : baseline? functions with
  | some base =>
    simp only [IsBaseline, means]
    exact first_of_baseline? ascending chosen
  | none =>
    simp only [IsBaseline, means]
    exact fun name marked => unmarked_of_baseline? ascending chosen marked

theorem exists_isBaseline (sorted : results.Sorted) (group : String) :
    ∃ base?, IsBaseline results group base? := by
  cases found : Index.get? group results with
  | some functions => exact ⟨_, isBaseline_baseline? sorted found⟩
  | none =>
    refine ⟨none, fun name _ => ?_⟩
    rw [Results.mean?, found, Option.bind_none]

/-- A group has one baseline. -/
theorem IsBaseline.unique {base?' : Option Float} (first : IsBaseline results group base?)
    (second : IsBaseline results group base?') : base? = base?' := by
  cases base? with
  | none =>
    cases base?' with
    | none => rfl
    | some base =>
      obtain ⟨name, marked, present, -⟩ := second
      cases (first name marked).symm.trans present
  | some base =>
    obtain ⟨name, marked, present, least⟩ := first
    cases base?' with
    | none => cases (second name marked).symm.trans present
    | some base' =>
      obtain ⟨name', marked', present', least'⟩ := second
      have same : name' = name := by
        rcases least name' marked' (by simp [present']) with same | later
        · exact same
        · rcases least' name marked (by simp [present]) with same | earlier
          · exact same.symm
          · exact absurd earlier (before_asymm later)
      exact present.symm.trans (same ▸ present')

/-- The baseline depends on the functions that are marked only. -/
theorem IsBaseline.congr (same : ∀ name, Marked name →
    other.mean? group name = results.mean? group name)
    (isBaseline : IsBaseline results group base?) : IsBaseline other group base? := by
  cases base? with
  | none => exact fun name marked => (same name marked).trans (isBaseline name marked)
  | some base =>
    obtain ⟨name, marked, present, least⟩ := isBaseline
    refine ⟨name, marked, (same name marked).trans present, fun name' marked' present' => ?_⟩
    exact least name' marked' (same name' marked' ▸ present')

/-! ## The rows -/

theorem mem_labelled_iff (sorted : results.Sorted) :
    r ∈ labelled results ↔ ∃ base? mean, IsBaseline results r.group base? ∧
      results.mean? r.group r.function = some mean ∧
        r.text = row r.group base? r.function mean := by
  obtain ⟨group, function, text⟩ := r
  simp only [labelled, List.mem_flatMap, List.mem_map, Prod.exists, LabelledRow.mk.injEq]
  constructor
  · rintro ⟨group, functions, member, function, mean, member', rfl, rfl, rfl⟩
    have found := sorted.groups.mem_iff.mp member
    refine ⟨_, mean, isBaseline_baseline? sorted found, ?_, rfl⟩
    rw [Results.mean?, found, Option.bind_some]
    exact (sorted.of_get? found).mem_iff.mp member'
  · rintro ⟨base?, mean, isBaseline, present, rfl⟩
    obtain ⟨functions, found, present⟩ := Option.bind_eq_some_iff.mp present
    refine ⟨group, functions, sorted.groups.mem_iff.mpr found, function, mean,
      (sorted.of_get? found).mem_iff.mpr present, rfl, rfl, ?_⟩
    rw [isBaseline.unique (isBaseline_baseline? sorted found)]

/-- The rows ascend. -/
theorem pairwise_labelled (sorted : results.Sorted) :
    (labelled results).Pairwise LabelledRow.Precedes := by
  refine List.pairwise_flatMap.mpr ⟨fun entry member => ?_, ?_⟩
  · refine List.pairwise_map.mpr ((sorted.functions entry member).imp fun less => ?_)
    exact .inr ⟨rfl, less⟩
  · refine sorted.groups.imp fun less x member y member' => ?_
    obtain ⟨_, -, rfl⟩ := List.mem_map.mp member
    obtain ⟨_, -, rfl⟩ := List.mem_map.mp member'
    exact .inl less

theorem LabelledRow.Precedes.asymm {a b : LabelledRow} (less : a.Precedes b) : ¬ b.Precedes a := by
  rintro (more | ⟨same, more⟩) <;> rcases less with less | ⟨same', less⟩
  · exact before_asymm less more
  · exact not_before_self _ (same' ▸ more)
  · exact not_before_self _ (same ▸ less)
  · exact before_asymm less more

/-- What a table says about a function depends on the mean of the function and on those of the
functions of its group that are marked. -/
theorem mem_labelled_congr (sorted : results.Sorted) (sorted' : other.Sorted)
    (same : other.mean? r.group r.function = results.mean? r.group r.function)
    (marked : ∀ name, Marked name → other.mean? r.group name = results.mean? r.group name) :
    r ∈ labelled other ↔ r ∈ labelled results := by
  rw [mem_labelled_iff sorted, mem_labelled_iff sorted', same]
  constructor
  · rintro ⟨base?, mean, isBaseline, facts⟩
    exact ⟨base?, mean, isBaseline.congr fun name m => (marked name m).symm, facts⟩
  · rintro ⟨base?, mean, isBaseline, facts⟩
    exact ⟨base?, mean, isBaseline.congr marked, facts⟩

/-- Tables that have the same rows of some kind have them in the same order. -/
theorem filter_labelled_congr (sorted : results.Sorted) (sorted' : other.Sorted)
    {kind : LabelledRow → Bool}
    (same : ∀ r, kind r → (r ∈ labelled other ↔ r ∈ labelled results)) :
    (labelled other).filter kind = (labelled results).filter kind := by
  have ordered := (pairwise_labelled sorted).filter kind
  have ordered' := (pairwise_labelled sorted').filter kind
  have irreflexive {a b : LabelledRow} (less : a.Precedes b) : a ≠ b := by
    rintro rfl
    exact less.asymm less
  have perm : ((labelled other).filter kind).Perm ((labelled results).filter kind) := by
    refine (List.perm_ext_iff_of_nodup (ordered'.imp irreflexive)
      (ordered.imp irreflexive)).mpr fun r => ?_
    rw [List.mem_filter, List.mem_filter]
    exact and_congr_left (same r)
  exact perm.eq_of_pairwise (fun a b _ _ less more => absurd more less.asymm) ordered' ordered

/-- A speedup is shown if there is a baseline and the mean is positive. -/
theorem speedup_eq_dash_iff : speedup base? mean = "-" ↔ base? = none ∨ ¬ mean > 0 := by
  cases base? with
  | none => simp [speedup]
  | some base =>
    by_cases positive : mean > 0
    · have marked : ("**" ++ hundredths (base / mean) ++ "x**").toList.head? = some '*' := by
        simp [String.toList_append]
      have shown : speedup (some base) mean ≠ "-" := by
        intro dash
        rw [speedup, if_pos positive] at dash
        rw [dash] at marked
        cases marked
      simp [shown, positive]
    · simp [speedup, positive]

/-- A table has a row for each function that has a mean, in the order of the groups and functions,
after a heading of four lines, and this is what is written once the results are collected and
nothing is in the way. The rows of a group have one baseline, and show how often the mean of their
function goes into it, unless there is no baseline or the mean is not positive. They are the same in
every table in which the group has the same means, and recording a function that is not marked
changes no row but its own. -/
theorem table_exact (sorted : results.Sorted) :
    table results =
        String.join ((heading ++ (labelled results).map LabelledRow.text).map (· ++ "\n")) ∧
      heading =
        ["# synchro vs std", "", "| Group | Function | Mean | Speedup vs std |",
          "|---|---|---|---|"] ∧
      (∀ root measured : Node, root.at? measuredPath = some measured →
        collect measured = .ok results → obstacle? root = none →
          (generate.run root).1 = .ok true ∧
            writtenReport (generate.run root).2 = some (table results)) ∧
      (labelled results).Pairwise LabelledRow.Precedes ∧
      (∀ group function, (∃ r ∈ labelled results, r.group = group ∧ r.function = function) ↔
        ∃ mean, results.mean? group function = some mean) ∧
      (∀ group, ∃ base?, IsBaseline results group base? ∧
        ∀ r ∈ labelled results, r.group = group → ∃ mean cell,
          results.mean? group r.function = some mean ∧
          r.text = "| " ++ group ++ " | " ++ r.function ++ " | " ++ duration mean ++ " | " ++
            cell ++ " |" ∧
          (cell = "-" ↔ base? = none ∨ ¬ mean > 0) ∧
          ∀ base, base? = some base → mean > 0 →
            cell = "**" ++ hundredths (base / mean) ++ "x**") ∧
      (∀ other : Results, other.Sorted → ∀ group,
        (∀ function, other.mean? group function = results.mean? group function) →
          (labelled other).filter (fun r => r.group = group) =
            (labelled results).filter fun r => r.group = group) ∧
      ∀ group function mean,
        (∀ group' function', (results.record group function mean).mean? group' function' =
          if group' = group ∧ function' = function then some mean
          else results.mean? group' function') ∧
        (¬ Marked function →
          (labelled (results.record group function mean)).filter
              (fun r => ¬ (r.group = group ∧ r.function = function)) =
            (labelled results).filter fun r => ¬ (r.group = group ∧ r.function = function)) := by
  refine ⟨by rw [← rows_eq]; rfl, rfl, ?_, pairwise_labelled sorted, ?_, ?_, ?_, ?_⟩
  · intro root measured there collected free
    obtain ⟨done, report⟩ := generate_of_collect there collected
    rw [done, report, free]
    exact ⟨rfl, rfl⟩
  · intro group function
    constructor
    · rintro ⟨r, member, rfl, rfl⟩
      obtain ⟨_, mean, -, present, -⟩ := (mem_labelled_iff sorted).mp member
      exact ⟨mean, present⟩
    · rintro ⟨mean, present⟩
      obtain ⟨base?, isBaseline⟩ := exists_isBaseline sorted group
      exact ⟨⟨group, function, row group base? function mean⟩,
        (mem_labelled_iff sorted).mpr ⟨base?, mean, isBaseline, present, rfl⟩, rfl, rfl⟩
  · intro group
    obtain ⟨base?, isBaseline⟩ := exists_isBaseline sorted group
    refine ⟨base?, isBaseline, ?_⟩
    rintro r member rfl
    obtain ⟨_, mean, isBaseline', present, text⟩ := (mem_labelled_iff sorted).mp member
    obtain rfl := isBaseline.unique isBaseline'
    refine ⟨mean, speedup base? mean, present, text, speedup_eq_dash_iff, ?_⟩
    rintro base rfl positive
    rw [speedup, if_pos positive]
  · intro other sorted' group same
    refine filter_labelled_congr sorted sorted' fun r here => ?_
    obtain rfl := of_decide_eq_true here
    exact mem_labelled_congr sorted sorted' (same r.function) fun name _ => same name
  · intro group function mean
    refine ⟨fun _ _ => Results.mean?_record sorted, fun unmarked => ?_⟩
    refine filter_labelled_congr sorted sorted.record fun r elsewhere => ?_
    have unchanged (name : String) (differs : ¬ (r.group = group ∧ name = function)) :
        (results.record group function mean).mean? r.group name = results.mean? r.group name := by
      rw [Results.mean?_record sorted, if_neg differs]
    refine mem_labelled_congr sorted sorted.record
      (unchanged r.function (of_decide_eq_true elsewhere)) fun name marked => ?_
    exact unchanged name fun own => unmarked (own.2 ▸ marked)

/-- Two groups. In the first one a mean is zero and two functions are marked; in the second one none
is. -/
def mixed : Results :=
  [("lock", [("monitor", 3), ("spin", 0), ("std_mutex", 9), ("std_rwlock", 6)]),
    ("queue", [("fifo", 2)])]

theorem sorted_mixed : mixed.Sorted :=
  ⟨by unfold Index.Ascending mixed; decide, by unfold Index.Ascending mixed; decide⟩

theorem table_exact_mixed :
    mixed.Sorted ∧ (labelled mixed).Pairwise LabelledRow.Precedes ∧
      (labelled mixed).map LabelledRow.text =
        ["| lock | monitor | 3 ns | **3.00x** |", "| lock | spin | 0 ns | - |",
          "| lock | std_mutex | 9 ns | **1.00x** |", "| lock | std_rwlock | 6 ns | **1.50x** |",
          "| queue | fifo | 2 ns | - |"] ∧
      (labelled (mixed.record "lock" "park" 5)).filter
          (fun r => ¬ (r.group = "lock" ∧ r.function = "park")) =
        (labelled mixed).filter fun r => ¬ (r.group = "lock" ∧ r.function = "park") := by
  obtain ⟨-, -, -, ordered, -, -, -, others⟩ := table_exact sorted_mixed
  exact ⟨sorted_mixed, ordered, by decide +kernel, (others "lock" "park" 5).2 (by decide)⟩

end Interlock.Bench

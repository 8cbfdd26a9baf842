import Interlock.Proofs.Bench.Report
import Interlock.Proofs.Bench.Table
import Interlock.Proofs.Decimal.Fixed

/-!
# How a table is read

A reader of a table cuts the text into lines and each line into cells, at the bars that are not
escaped by a backslash. What is written into a row is not escaped, so a line break in a name makes
two lines of a row and a bar in a name makes two cells of it. In all other cases the reader finds
a line for each row, and in it the two names (`wellFormed_iff`).
-/

namespace Interlock.Bench

/-! ## Lines -/

/-- The lines of a text of which every line is ended. -/
def lines (text : String) : List (List Char) :=
  (text.toList.splitOn '\n').dropLast

theorem splitOn_ended (written : List (List Char)) :
    (written.flatMap (· ++ ['\n'])).splitOn '\n' =
      written.flatMap (·.splitOn '\n') ++ [[]] := by
  induction written with
  | nil => rfl
  | cons line rest ih =>
    rw [List.flatMap_cons, List.flatMap_cons, List.append_assoc, List.singleton_append,
      List.splitOn_append_cons_self, ih, List.append_assoc]

/-- Lines that are written one after the other are read as the pieces of each of them. -/
theorem lines_join (written : List String) :
    lines (String.join (written.map (· ++ "\n"))) =
      written.flatMap fun line => line.toList.splitOn '\n' := by
  have text : (String.join (written.map (· ++ "\n"))).toList =
      (written.map String.toList).flatMap (· ++ ['\n']) := by
    simp [String.toList_join, List.flatMap_map, String.toList_append]
  rw [lines, text, splitOn_ended, List.dropLast_concat, List.flatMap_map]

theorem length_splitOn (line : List Char) : (line.splitOn '\n').length = line.count '\n' + 1 := by
  induction line with
  | nil => rfl
  | cons c rest ih =>
    rw [List.splitOn_cons_eq_if_modifyHead, List.count_cons]
    split <;> simp [ih]

/-- Each line is read as one if there are as many as have been written. -/
theorem unbroken_of_length {written : List String}
    (same : (written.flatMap fun line => line.toList.splitOn '\n').length = written.length) :
    ∀ line ∈ written, '\n' ∉ line.toList := by
  have more (written : List String) : written.length ≤
      (written.flatMap fun line => line.toList.splitOn '\n').length := by
    induction written with
    | nil => exact Nat.le_refl 0
    | cons line rest ih =>
      rw [List.flatMap_cons, List.length_append, length_splitOn, List.length_cons]
      omega
  induction written with
  | nil => exact fun _ member => absurd member List.not_mem_nil
  | cons line rest ih =>
    rw [List.flatMap_cons, List.length_append, length_splitOn, List.length_cons] at same
    have rest_more := more rest
    refine List.forall_mem_cons.mpr ⟨?_, ih (by omega)⟩
    exact List.count_eq_zero.mp (by omega)

theorem flatMap_of_unbroken {written : List String}
    (unbroken : ∀ line ∈ written, '\n' ∉ line.toList) :
    (written.flatMap fun line => line.toList.splitOn '\n') = written.map String.toList := by
  induction written with
  | nil => rfl
  | cons line rest ih =>
    obtain ⟨here, later⟩ := List.forall_mem_cons.mp unbroken
    rw [List.flatMap_cons, List.splitOn_eq_singleton here, ih later]
    rfl

/-! ## Cells -/

/-- The pieces of a line between bars. A character after a backslash is escaped, unless the
backslash itself is. -/
def cut (escaped : Bool) : List Char → List (List Char)
  | [] => [[]]
  | c :: rest =>
    if c == '|' && !escaped then [] :: cut false rest
    else (cut (c == '\\' && !escaped) rest).modifyHead (c :: ·)

/-- Whether the character after a text is escaped. -/
def escapes (escaped : Bool) : List Char → Bool
  | [] => escaped
  | c :: rest => escapes (c == '\\' && !escaped) rest

/-- The number of bars in a text that are not escaped. -/
def bars (escaped : Bool) : List Char → Nat
  | [] => 0
  | c :: rest => (if c == '|' && !escaped then 1 else 0) + bars (c == '\\' && !escaped) rest

/-- The cells of a line. It begins and ends with a bar. -/
def cells (line : List Char) : List (List Char) :=
  (cut false line).tail.dropLast

/-- A text with the spaces that separate it from the bars. -/
def spaced (text : String) : List Char :=
  ' ' :: (text.toList ++ [' '])

section Cells

variable {escaped : Bool} {text rest : List Char}

theorem cut_cons (escaped : Bool) (c : Char) (rest : List Char) :
    cut escaped (c :: rest) =
      if c == '|' && !escaped then [] :: cut false rest
      else (cut (c == '\\' && !escaped) rest).modifyHead (c :: ·) := rfl

theorem cut_bar (rest : List Char) : cut false ('|' :: rest) = [] :: cut false rest := rfl

theorem bars_cons (escaped : Bool) (c : Char) (rest : List Char) :
    bars escaped (c :: rest) =
      (if c == '|' && !escaped then 1 else 0) + bars (c == '\\' && !escaped) rest := rfl

/-- A bar is no backslash. -/
theorem not_escaping {c : Char} (bar : (c == '|' && !escaped) = true) :
    (c == '\\' && !escaped) = false := by
  rw [eq_of_beq (Bool.and_eq_true_iff.mp bar).1]
  rfl

theorem length_cut (escaped : Bool) (text : List Char) :
    (cut escaped text).length = bars escaped text + 1 := by
  induction text generalizing escaped with
  | nil => rfl
  | cons c rest ih =>
    rw [cut_cons, bars_cons]
    by_cases bar : (c == '|' && !escaped) = true
    · rw [if_pos bar, if_pos bar, not_escaping bar, List.length_cons, ih]
      omega
    · rw [if_neg bar, if_neg bar, List.length_modifyHead, ih]
      omega

/-- A text without bars is one piece. -/
theorem cut_of_bars (none_left : bars escaped text = 0) : cut escaped text = [text] := by
  induction text generalizing escaped with
  | nil => rfl
  | cons c rest ih =>
    rw [bars_cons] at none_left
    split at none_left
    · omega
    next no_bar => rw [cut_cons, if_neg no_bar, ih (by omega), List.modifyHead_cons]

theorem bars_of_not_mem (absent : '|' ∉ text) : bars escaped text = 0 := by
  induction text generalizing escaped with
  | nil => rfl
  | cons c rest ih =>
    rw [List.mem_cons, not_or] at absent
    rw [bars_cons, ih absent.2, beq_eq_false_iff_ne.mpr (Ne.symm absent.1)]
    rfl

/-- A bar that is not escaped ends a piece. -/
theorem cut_append_bar (open_bar : escapes escaped text = false) :
    cut escaped (text ++ '|' :: rest) = cut escaped text ++ cut false rest := by
  induction text generalizing escaped with
  | nil =>
    obtain rfl : escaped = false := open_bar
    rfl
  | cons c tail ih =>
    rw [List.cons_append, cut_cons, cut_cons]
    by_cases bar : (c == '|' && !escaped) = true
    · rw [escapes, not_escaping bar] at open_bar
      rw [if_pos bar, if_pos bar, ih open_bar, List.cons_append]
    · rw [if_neg bar, if_neg bar, ih open_bar]
      have pieces := length_cut (c == '\\' && !escaped) tail
      cases first : cut (c == '\\' && !escaped) tail with
      | nil => simp [first] at pieces
      | cons head more => rfl

/-- A space ends every escape. -/
theorem escapes_append_space (escaped : Bool) (text : List Char) :
    escapes escaped (text ++ [' ']) = false := by
  induction text generalizing escaped with
  | nil => rfl
  | cons c rest ih => exact ih _

theorem bars_append_space (escaped : Bool) (text : List Char) :
    bars escaped (text ++ [' ']) = bars escaped text := by
  induction text generalizing escaped with
  | nil => rfl
  | cons c rest ih =>
    rw [List.cons_append, bars_cons, bars_cons, ih]

end Cells

theorem escapes_spaced (text : String) : escapes false (spaced text) = false :=
  escapes_append_space false text.toList

theorem bars_spaced (text : String) : bars false (spaced text) = bars false text.toList := by
  rw [spaced, bars_cons, show (' ' == '\\' && !false) = false from rfl, bars_append_space]
  exact Nat.zero_add _

/-! ## Rows -/

theorem not_mem_fixed {c : Char} (bar_or_break : c = '|' ∨ c = '\n') (places : Nat)
    (x : Decimal.Number) : c ∉ (Decimal.fixed places x).toList := by
  intro member
  have numeric := Decimal.numeric_fixed places x c member
  rcases bar_or_break with rfl | rfl <;> exact absurd numeric (by unfold Decimal.Numeric; decide)

theorem not_mem_duration {c : Char} (bar_or_break : c = '|' ∨ c = '\n') (mean : Float) :
    c ∉ (duration mean).toList := by
  have number (places : Nat) (x : Decimal.Number) (unit : String) (other : c ∉ unit.toList) :
      c ∉ (Decimal.fixed places x ++ unit).toList := by
    rw [String.toList_append, List.mem_append, not_or]
    exact ⟨not_mem_fixed bar_or_break places x, other⟩
  unfold duration hundredths
  split_ifs <;> exact number _ _ _ (by rcases bar_or_break with rfl | rfl <;> decide)

theorem not_mem_speedup {c : Char} (bar_or_break : c = '|' ∨ c = '\n') (base? : Option Float)
    (mean : Float) : c ∉ (speedup base? mean).toList := by
  have dash : c ∉ "-".toList := by rcases bar_or_break with rfl | rfl <;> decide
  cases base? with
  | none => exact dash
  | some base =>
    rw [speedup]
    split
    · rw [hundredths, String.toList_append, String.toList_append, List.mem_append,
        List.mem_append, not_or, not_or]
      refine ⟨⟨?_, not_mem_fixed bar_or_break 2 _⟩, ?_⟩ <;>
        rcases bar_or_break with rfl | rfl <;> decide
    · exact dash

variable {results other : Results} {group function : String} {base? : Option Float} {mean : Float}

/-- A row is written as four texts with spaces around them, and bars in between. -/
theorem toList_row (group : String) (base? : Option Float) (function : String) (mean : Float) :
    (row group base? function mean).toList =
      '|' :: (spaced group ++ '|' :: (spaced function ++ '|' :: (spaced (duration mean) ++
        '|' :: (spaced (speedup base? mean) ++ ['|'])))) := by
  simp [row, String.toList_append, spaced]

theorem cut_spaced {text : String} (none_left : bars false text.toList = 0) :
    cut false (spaced text) = [spaced text] :=
  cut_of_bars ((bars_spaced text).trans none_left)

/-- The cells of a row are those of the names, and those of the two numbers. -/
theorem cells_row (group : String) (base? : Option Float) (function : String) (mean : Float) :
    cells (row group base? function mean).toList =
      cut false (spaced group) ++ cut false (spaced function) ++
        [spaced (duration mean), spaced (speedup base? mean)] := by
  have number {text : String} (absent : '|' ∉ text.toList) :
      cut false (spaced text) = [spaced text] := cut_spaced (bars_of_not_mem absent)
  have first : cut false (row group base? function mean).toList =
      [] :: (cut false (spaced group) ++ (cut false (spaced function) ++
        (cut false (spaced (duration mean)) ++ (cut false (spaced (speedup base? mean)) ++
          [[]])))) := by
    rw [toList_row, cut_bar, cut_append_bar (escapes_spaced group),
      cut_append_bar (escapes_spaced function), cut_append_bar (escapes_spaced _),
      cut_append_bar (escapes_spaced _)]
    rfl
  rw [cells, first, number (not_mem_duration (.inl rfl) mean),
    number (not_mem_speedup (.inl rfl) base? mean), List.tail_cons, ← List.append_assoc,
    ← List.append_assoc, ← List.append_assoc, List.dropLast_concat]
  simp

/-- The cells of a row are the two names and two more if no bar of a name is left open. -/
theorem four_cells_iff :
    (∃ time ratio, cells (row group base? function mean).toList =
      [spaced group, spaced function, time, ratio]) ↔
      bars false group.toList = 0 ∧ bars false function.toList = 0 := by
  rw [cells_row]
  constructor
  · rintro ⟨time, ratio, four⟩
    have count := congrArg List.length four
    rw [List.length_append, List.length_append, length_cut, length_cut, bars_spaced,
      bars_spaced] at count
    simp only [List.length_cons, List.length_nil] at count
    omega
  · rintro ⟨no_group, no_function⟩
    rw [cut_spaced no_group, cut_spaced no_function]
    exact ⟨_, _, rfl⟩

theorem break_mem_row_iff :
    '\n' ∈ (row group base? function mean).toList ↔
      '\n' ∈ group.toList ∨ '\n' ∈ function.toList := by
  have no_time := not_mem_duration (.inr rfl : '\n' = '|' ∨ '\n' = '\n') mean
  have no_ratio := not_mem_speedup (.inr rfl : '\n' = '|' ∨ '\n' = '\n') base? mean
  rw [toList_row]
  simp [spaced, no_time, no_ratio]

/-! ## Tables -/

/-- The group and the function of each row. -/
def keys (results : Results) : List (String × String) :=
  results.flatMap fun (group, functions) => functions.map fun (function, _) => (group, function)

/-- A name that a row can hold: it has no line break, and no bar that is not escaped. -/
structure Plain (name : String) : Prop where
  unbroken : '\n' ∉ name.toList
  unbarred : bars false name.toList = 0

/-- The report is a table: it has the lines of the heading and a line for each row, in which there
are four cells, the names of the group and of the function being the first two. -/
structure WellFormed (results : Results) : Prop where
  headed : (lines (table results)).take 4 = heading.map String.toList
  counted : (lines (table results)).length = 4 + (keys results).length
  celled : List.Forall₂ (fun key line => ∃ time ratio,
    cells line = [spaced key.1, spaced key.2, time, ratio]) (keys results)
      ((lines (table results)).drop 4)

/-- The first two cells of each line after the heading. -/
def columns (text : String) : List (List (List Char)) :=
  ((lines text).drop 4).map fun line => (cells line).take 2

theorem keys_eq (results : Results) :
    keys results = (labelled results).map fun r => (r.group, r.function) := by
  unfold keys labelled
  rw [List.map_flatMap]
  simp only [List.map_map]
  rfl

theorem exists_row {r : LabelledRow} (member : r ∈ labelled results) :
    ∃ base? mean, r.text = row r.group base? r.function mean := by
  obtain ⟨⟨group, functions⟩, -, member⟩ := List.mem_flatMap.mp member
  obtain ⟨⟨function, mean⟩, -, rfl⟩ := List.mem_map.mp member
  exact ⟨_, mean, rfl⟩

/-- The lines of a table are those of the heading and the pieces of its rows. -/
theorem lines_table (results : Results) :
    lines (table results) = heading.map String.toList ++
      (rows results).flatMap fun row => row.toList.splitOn '\n' := by
  have whole : ∀ line ∈ heading, '\n' ∉ line.toList := by decide
  rw [table, lines_join, List.flatMap_append, flatMap_of_unbroken whole]

theorem rows_unbroken_iff (results : Results) :
    (∀ row ∈ rows results, '\n' ∉ row.toList) ↔
      ∀ key ∈ keys results, '\n' ∉ key.1.toList ∧ '\n' ∉ key.2.toList := by
  rw [rows_eq, keys_eq, List.forall_mem_map, List.forall_mem_map]
  refine forall₂_congr fun r member => ?_
  obtain ⟨base?, mean, text⟩ := exists_row member
  rw [text, break_mem_row_iff, not_or]

/-- The lines after the heading are those of the rows, if no name has a line break. -/
theorem drop_lines (unbroken : ∀ key ∈ keys results, '\n' ∉ key.1.toList ∧ '\n' ∉ key.2.toList) :
    (lines (table results)).drop 4 = (labelled results).map fun r => r.text.toList := by
  rw [lines_table, flatMap_of_unbroken ((rows_unbroken_iff results).mpr unbroken), rows_eq,
    List.map_map]
  exact List.drop_left' rfl

/-- There are as many lines as there should be if no name has a line break. -/
theorem counted_iff :
    (lines (table results)).length = 4 + (keys results).length ↔
      ∀ key ∈ keys results, '\n' ∉ key.1.toList ∧ '\n' ∉ key.2.toList := by
  have rows_length : (rows results).length = (keys results).length := by
    rw [rows_eq, keys_eq, List.length_map, List.length_map]
  have heading_length : (heading.map String.toList).length = 4 := rfl
  rw [← rows_unbroken_iff, lines_table, List.length_append, heading_length, ← rows_length,
    Nat.add_left_cancel_iff]
  constructor
  · exact unbroken_of_length
  · intro unbroken
    rw [flatMap_of_unbroken unbroken, List.length_map]

/-- If no name has a line break, each line has the right cells if no name has an open bar. -/
theorem celled_iff (unbroken : ∀ key ∈ keys results, '\n' ∉ key.1.toList ∧ '\n' ∉ key.2.toList) :
    List.Forall₂ (fun key line => ∃ time ratio,
      cells line = [spaced key.1, spaced key.2, time, ratio]) (keys results)
        ((lines (table results)).drop 4) ↔
      ∀ key ∈ keys results, bars false key.1.toList = 0 ∧ bars false key.2.toList = 0 := by
  rw [drop_lines unbroken, keys_eq, List.forall₂_map_left_iff, List.forall₂_map_right_iff,
    List.forall₂_same, List.forall_mem_map]
  refine forall₂_congr fun r member => ?_
  obtain ⟨base?, mean, text⟩ := exists_row member
  rw [text]
  exact four_cells_iff

/-- A report is a table if the rows can hold all names. -/
theorem wellFormed_iff :
    WellFormed results ↔ ∀ key ∈ keys results, Plain key.1 ∧ Plain key.2 := by
  constructor
  · intro wellFormed key member
    have unbroken := counted_iff.mp wellFormed.counted
    obtain ⟨no_group, no_function⟩ := (celled_iff unbroken).mp wellFormed.celled key member
    obtain ⟨group, function⟩ := unbroken key member
    exact ⟨⟨group, no_group⟩, function, no_function⟩
  · intro plain
    have unbroken : ∀ key ∈ keys results, '\n' ∉ key.1.toList ∧ '\n' ∉ key.2.toList :=
      fun key member => ⟨(plain key member).1.unbroken, (plain key member).2.unbroken⟩
    refine ⟨?_, counted_iff.mpr unbroken, (celled_iff unbroken).mpr fun key member => ?_⟩
    · rw [lines_table]
      exact List.take_left' rfl
    · exact ⟨(plain key member).1.unbarred, (plain key member).2.unbarred⟩

theorem spaced_inj {text text' : String} (same : spaced text = spaced text') : text = text' :=
  String.toList_inj.mp (List.append_cancel_right (List.cons.inj same).2)

/-- The first two columns of a table are the names. -/
theorem columns_eq (wellFormed : WellFormed results) :
    columns (table results) = (keys results).map fun key => [spaced key.1, spaced key.2] := by
  have each : List.Forall₂ (· = ·) (columns (table results))
      ((keys results).map fun key => [spaced key.1, spaced key.2]) := by
    unfold columns
    rw [List.forall₂_map_left_iff, List.forall₂_map_right_iff]
    refine wellFormed.celled.flip.imp fun line key four => ?_
    obtain ⟨time, ratio, four⟩ := four
    rw [four]
    rfl
  rwa [List.forall₂_eq_eq_eq] at each

/-- A report is a table if and only if no name has a line break or a bar that is not escaped. Tables
that are equal in the first two columns have rows for the same functions of the same groups. -/
theorem table_iff_plain (results : Results) :
    (WellFormed results ↔ ∀ key ∈ keys results, Plain key.1 ∧ Plain key.2) ∧
      ∀ other : Results, WellFormed results → WellFormed other →
        columns (table results) = columns (table other) → keys results = keys other := by
  refine ⟨wellFormed_iff, fun other wellFormed wellFormed' same => ?_⟩
  rw [columns_eq wellFormed, columns_eq wellFormed'] at same
  refine List.map_injective_iff.mpr ?_ same
  intro key key' equal
  have cells_equal := List.cons.inj equal
  exact Prod.ext (spaced_inj cells_equal.1) (spaced_inj (List.cons.inj cells_equal.2).1)

/-- Names with spaces around them and with an escaped bar do no harm. -/
theorem table_iff_plain_escaped :
    WellFormed [(" lock", [("read \\| write ", 3), ("std_lock", 6)])] := by
  refine (table_iff_plain _).1.mpr ?_
  simp only [keys, List.flatMap_cons, List.flatMap_nil, List.map_cons, List.map_nil,
    List.append_nil, List.forall_mem_cons]
  refine ⟨⟨⟨by decide, by decide⟩, by decide, by decide⟩, ⟨⟨by decide, by decide⟩, by decide,
    by decide⟩, fun _ member => absurd member List.not_mem_nil⟩

/-- A tree of one function. -/
def single (group function : String) : Node :=
  .folder [named group (.folder
    [named function (estimated "\x7b\"mean\":\x7b\"point_estimate\":5\x7d\x7d")])]

theorem wellNamed_single {group function : String} (group_name : '/'.toUInt8 ∉ Text.toBytes group)
    (function_name : '/'.toUInt8 ∉ Text.toBytes function) : (single group function).WellNamed :=
  .single group_name (.single function_name (wellNamed_estimated _))

/-- A bar in the name of a group makes a fifth cell of its row, and two functions of groups that are
not named alike may have the same first two cells. -/
theorem barred_name_breaks_table :
    ((single "a|b" "f").WellNamed ∧ collect (single "a|b" "f") = .ok [("a|b", [("f", 5)])] ∧
      (lines (table [("a|b", [("f", 5)])])).drop 4 = ["| a|b | f | 5 ns | - |".toList] ∧
      cells "| a|b | f | 5 ns | - |".toList =
        [" a".toList, "b ".toList, spaced "f", spaced "5 ns", spaced "-"] ∧
      ¬ WellFormed [("a|b", [("f", 5)])]) ∧
    collect (single "a | b" "c") = .ok [("a | b", [("c", 5)])] ∧
      collect (single "a" "b | c") = .ok [("a", [("b | c", 5)])] ∧
      keys [("a | b", [("c", 5)])] ≠ keys [("a", [("b | c", 5)])] ∧
      columns (table [("a | b", [("c", 5)])]) = columns (table [("a", [("b | c", 5)])]) := by
  refine ⟨⟨wellNamed_single (by decide) (by decide), rfl, by decide +kernel, by decide, ?_⟩, rfl,
    rfl, by decide, by decide +kernel⟩
  intro wellFormed
  have plain := (wellFormed_iff.mp wellFormed ("a|b", "f") (by decide)).1
  exact absurd plain.unbarred (by decide)

end Interlock.Bench

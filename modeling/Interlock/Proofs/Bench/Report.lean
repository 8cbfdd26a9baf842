import Interlock.Proofs.Bench.Collection

/-!
# Reports are exact

After the estimates have been collected, only what stands at the places of the report's folder and
file can be in the way (`obstacle?`); otherwise the report is written in full.
-/

namespace Interlock.Bench

variable {α β : Type} {root root' measured : Node} {results : Results} {contents : List UInt8}
  {failure : Failure}

/-! ## What each task does -/

theorem run_bind_ok {task : Task α} {next : α → Task β} {value : α}
    (done : task.run root = (.ok value, root')) :
    (task >>= next).run root = (next value).run root' := by
  change task root = _ at done
  change ExceptT.bindCont next (task root).1 (task root).2 = _
  rw [done]
  rfl

theorem run_bind_error {task : Task α} {next : α → Task β}
    (failed : task.run root = (.error failure, root')) :
    (task >>= next).run root = (.error failure, root') := by
  change task root = _ at failed
  change ExceptT.bindCont next (task root).1 (task root).2 = _
  rw [failed]
  rfl

theorem run_get_bind (next : Node → Task α) : (get >>= next).run root = (next root).run root :=
  run_bind_ok rfl

theorem run_makeFolder (root : Node) :
    makeFolder.run root =
      match root.at? reportFolder with
      | some (.folder _) => (.ok (), root)
      | some (.file _) => (.error .folderOccupied, root)
      | none => (.ok (), (Node.put (.folder []) reportFolder root).getD root) := by
  unfold makeFolder
  rw [run_get_bind]
  rcases root.at? reportFolder with _ | _ | _ <;> rfl

theorem run_makeFile (root : Node) :
    makeFile.run root =
      match root.at? reportPath with
      | some (.folder _) => (.error .fileOccupied, root)
      | _ => (.ok (), (Node.put (.file []) reportPath root).getD root) := by
  unfold makeFile
  rw [run_get_bind]
  rcases root.at? reportPath with _ | _ | _ <;> rfl

theorem run_writeLine (line : String) (root : Node) :
    (writeLine line).run root =
      match root.at? reportPath with
      | some (.file contents) =>
        let longer := contents ++ Text.toBytes (line ++ "\n")
        (.ok (), (Node.put (.file longer) reportPath root).getD root)
      | _ => (.ok (), root) := by
  unfold writeLine
  rw [run_get_bind]
  rcases root.at? reportPath with _ | _ | _ <;> rfl

/-- Make the report on results. -/
def write (results : Results) : Task Bool := do
  makeFolder
  makeFile
  (heading ++ rows results).forM writeLine
  return true

theorem run_generate (root : Node) :
    generate.run root =
      match root.at? measuredPath with
      | none => (.ok false, root)
      | some measured =>
        match collect measured with
        | .error failure => (.error failure, root)
        | .ok results => (write results).run root := by
  unfold generate
  rw [run_get_bind]
  cases root.at? measuredPath with
  | none => rfl
  | some measured =>
    dsimp only
    cases collect measured <;> rfl

/-! ## Writing -/

theorem reportPath_eq : reportPath = reportFolder ++ path ["report.md"] :=
  rfl

/-- What is at the report's place is in the report's folder. -/
theorem exists_reportFolder {node : Node} (found : root.at? reportPath = some node) :
    ∃ entries, root.at? reportFolder = some (.folder entries) := by
  rw [reportPath_eq, Node.at?_append, Option.bind_eq_some_iff] at found
  obtain ⟨folder, here, below⟩ := found
  cases folder with
  | file => cases below
  | folder entries => exact ⟨entries, here⟩

/-- A file can be put at the report's place if its folder is there. -/
theorem at?_put_report {entries : List (Name × Node)} (content : Node)
    (found : root.at? reportFolder = some (.folder entries)) :
    ((Node.put content reportPath root).getD root).at? reportPath = some content := by
  obtain ⟨root', done⟩ := Node.exists_put found
  rw [show Node.put content reportPath root = some root' from done, Option.getD_some]
  exact Node.at?_put done

/-- The folder is there once it has been made, and what is at the report's place is as before. -/
theorem exists_makeFolder (isFolder : root.isFolder)
    (free : ∀ contents, root.at? reportFolder ≠ some (.file contents)) :
    ∃ root' entries, makeFolder.run root = (.ok (), root') ∧
      root'.at? reportFolder = some (.folder entries) ∧
      root'.at? reportPath = root.at? reportPath := by
  rw [run_makeFolder]
  cases found : root.at? reportFolder with
  | some node =>
    cases node with
    | file contents => exact absurd found (free contents)
    | folder entries => exact ⟨root, entries, rfl, found, rfl⟩
  | none =>
    cases root with
    | file => cases isFolder
    | folder entries =>
      obtain ⟨root', done⟩ :
          ∃ root', Node.put (.folder []) reportFolder (.folder entries) = some root' :=
        Node.exists_put (show (Node.folder entries).at? [] = some (.folder entries) from rfl)
      have made := Node.at?_put done
      refine ⟨root', [], by rw [done, Option.getD_some], made, ?_⟩
      rw [reportPath_eq, Node.at?_append, Node.at?_append, made, found]
      rfl

/-- Each line is appended with its end. -/
theorem exists_writeLines (lines : List String)
    (found : root.at? reportPath = some (.file contents)) :
    ∃ root', (lines.forM writeLine).run root = (.ok (), root') ∧
      root'.at? reportPath =
        some (.file (contents ++ Text.toBytes (String.join (lines.map (· ++ "\n"))))) := by
  induction lines generalizing root contents with
  | nil => exact ⟨root, rfl, by simpa [Text.toBytes, String.join] using found⟩
  | cons line rest ih =>
    obtain ⟨entries, folder⟩ := exists_reportFolder found
    have longer := at?_put_report (.file (contents ++ Text.toBytes (line ++ "\n"))) folder
    obtain ⟨root', done, written⟩ := ih longer
    refine ⟨root', (run_bind_ok (by rw [run_writeLine, found])).trans done, ?_⟩
    rw [written, List.map_cons, String.join_cons, Text.toBytes_append (line ++ "\n"),
      List.append_assoc]

/-- Why the report cannot be written: a file is at its folder's place, or a folder at its own. -/
def obstacle? (root : Node) : Option Failure :=
  match root.at? reportFolder, root.at? reportPath with
  | some (.file _), _ => some .folderOccupied
  | _, some (.folder _) => some .fileOccupied
  | _, _ => none

theorem run_write_of_obstacle (obstacle : obstacle? root = some failure) :
    (write results).run root = (.error failure, root) := by
  unfold obstacle? at obstacle
  unfold write
  split at obstacle
  next found =>
    cases obstacle
    exact run_bind_error (by rw [run_makeFolder, found])
  next found _ =>
    cases obstacle
    obtain ⟨entries, folder⟩ := exists_reportFolder found
    rw [run_bind_ok (by rw [run_makeFolder, folder])]
    exact run_bind_error (by rw [run_makeFile, found])
  next => cases obstacle

/-- If nothing is in the way, the report's file has the table in the end. -/
theorem exists_write (isFolder : root.isFolder) (free : obstacle? root = none) :
    ∃ root', (write results).run root = (.ok true, root') ∧
      root'.at? reportPath = some (.file (Text.toBytes (table results))) := by
  unfold obstacle? at free
  split at free
  next => cases free
  next => cases free
  next no_file no_folder =>
    obtain ⟨made, entries, done, folder, same⟩ := exists_makeFolder isFolder no_file
    have emptied := at?_put_report (.file []) folder
    obtain ⟨root', lines, written⟩ := exists_writeLines (heading ++ rows results) emptied
    have done' : makeFile.run made =
        (.ok (), (Node.put (.file []) reportPath made).getD made) := by
      rw [run_makeFile, same]
      split
      next node found => exact absurd found (no_folder node)
      next => rfl
    refine ⟨root', ?_, written⟩
    unfold write
    rw [run_bind_ok done, run_bind_ok done', run_bind_ok lines]
    rfl

/-- Something below a node makes it a folder. -/
theorem isFolder_of_measured (there : root.at? measuredPath = some measured) : root.isFolder := by
  cases root with
  | file => cases there
  | folder => rfl

/-- What is in the way leaves no report to be read. -/
theorem writtenReport_of_obstacle (obstacle : obstacle? root = some failure) :
    writtenReport root = none := by
  unfold obstacle? at obstacle
  unfold writtenReport
  split at obstacle
  next found =>
    rw [reportPath_eq, Node.at?_append, found]
    rfl
  next found _ => rw [found]
  next => cases obstacle

/-- Once the estimates are collected, only what is in the way of the report matters. -/
theorem generate_of_collect (there : root.at? measuredPath = some measured)
    (collected : collect measured = .ok results) :
    (generate.run root).1 =
      (match obstacle? root with
      | some failure => .error failure
      | none => .ok true) ∧
    writtenReport (generate.run root).2 =
      match obstacle? root with
      | some _ => none
      | none => some (table results) := by
  have here : generate.run root = (write results).run root := by
    rw [run_generate, there]
    dsimp only
    rw [collected]
  rw [here]
  cases obstacle : obstacle? root with
  | some failure =>
    rw [run_write_of_obstacle obstacle]
    exact ⟨rfl, writtenReport_of_obstacle obstacle⟩
  | none =>
    obtain ⟨root', done, written⟩ := exists_write (isFolder_of_measured there) obstacle
    rw [done]
    refine ⟨rfl, ?_⟩
    unfold writtenReport
    rw [written]
    exact Text.ofBytes?_eq_some_iff.mpr rfl

/-! ## Another order of listing -/

theorem obstacle?_of_relisted {other : Node} (wellNamed : root.WellNamed)
    (relisted : root.Relisted other) : obstacle? other = obstacle? root := by
  have folder := relisted.at? wellNamed reportFolder
  have report := relisted.at? wellNamed reportPath
  unfold obstacle?
  generalize root.at? reportFolder = a, other.at? reportFolder = b at folder ⊢
  generalize root.at? reportPath = c, other.at? reportPath = d at report ⊢
  rcases folder with ⟨⟨⟩⟩ | _ <;> rcases report with ⟨⟨⟩⟩ | _ <;> rfl

/-- Another listing of a tree gives the same results, if all sources are estimates documents and no
two are named alike. -/
theorem collect_of_relisted {measured' : Node} (wellNamed : measured.WellNamed)
    (isFolder : measured.isFolder) (relisted : measured.Relisted measured')
    (valid : ∀ source : Source, source.ConsideredIn measured → ∃ mean, source.Estimates mean)
    (distinct : ∀ source other : Source, source.ConsideredIn measured →
      other.ConsideredIn measured → source.key = other.key → source = other)
    (collected : collect measured = .ok results) : collect measured' = .ok results := by
  have considered {source : Source} :
      source.ConsideredIn measured' ↔ source.ConsideredIn measured :=
    considered_iff_of_relisted wellNamed relisted valid
  obtain ⟨first, done, ordered, means⟩ := collect_of_valid wellNamed isFolder valid distinct
  obtain ⟨second, done', ordered', means'⟩ :=
    collect_of_valid (relisted.wellNamed wellNamed) (relisted.isFolder.trans isFolder)
      (fun source facts => valid source (considered.mp facts))
      fun source other facts facts' =>
        distinct source other (considered.mp facts) (considered.mp facts')
  have same : second = first := by
    refine ordered'.ext ordered fun group function => Option.ext fun mean => ?_
    rw [means, means']
    simp only [considered]
  rw [done', same, ← done, collected]

/-- The results have the mean of every estimates file that counts, under the names of its function
and group, and no others. So every listing of the tree gives the same results, and the same report
is written, unless the same thing is in its way. -/
theorem collection_exact (wellNamed : root.WellNamed)
    (there : root.at? measuredPath = some measured) (isFolder : measured.isFolder)
    (valid : ∀ source : Source, source.ConsideredIn measured → ∃ mean, source.Estimates mean)
    (distinct : ∀ source other : Source, source.ConsideredIn measured →
      other.ConsideredIn measured → source.key = other.key → source = other) :
    ∃ results : Results, collect measured = .ok results ∧ results.Ordered ∧
      (∀ group function mean, results.mean? group function = some mean ↔
        ∃ source : Source, source.ConsideredIn measured ∧ source.key = (group, function) ∧
          source.Estimates mean) ∧
      ∀ other, root.Relisted other →
        (∃ measured', other.at? measuredPath = some measured' ∧
          collect measured' = .ok results) ∧
        (generate.run other).1 = (generate.run root).1 ∧
        writtenReport (generate.run other).2 = writtenReport (generate.run root).2 ∧
        (obstacle? root = none →
          (generate.run other).1 = .ok true ∧
            writtenReport (generate.run other).2 = some (table results)) ∧
        ∀ failure, obstacle? root = some failure →
          (generate.run other).1 = .error failure ∧
            writtenReport (generate.run other).2 = none := by
  have below := (wellNamed.at? there).2
  obtain ⟨results, collected, ordered, means⟩ := collect_of_valid below isFolder valid distinct
  refine ⟨results, collected, ordered, means, fun other relisted => ?_⟩
  obtain ⟨measured', there', relisted'⟩ := relisted.exists_at? wellNamed there
  have collected' := collect_of_relisted below isFolder relisted' valid distinct collected
  refine ⟨⟨measured', there', collected'⟩, ?_⟩
  obtain ⟨ended, report⟩ := generate_of_collect there collected
  obtain ⟨ended', report'⟩ := generate_of_collect there' collected'
  rw [ended, ended', report, report', obstacle?_of_relisted wellNamed relisted]
  refine ⟨rfl, rfl, fun free => ?_, fun failure obstacle => ?_⟩
  · rw [free]
    exact ⟨rfl, rfl⟩
  · rw [obstacle]
    exact ⟨rfl, rfl⟩

/-! ### A tree of two functions -/

def named (name : String) (node : Node) : Name × Node :=
  (Text.toBytes name, node)

/-- The folder of a function with estimates. -/
def estimated (document : String) : Node :=
  .folder [named "new" (.folder [named "estimates.json" (.file (Text.toBytes document))])]

/-- A tree with measurements of groups, and nothing else. -/
def measurements (groups : List (Name × Node)) : Node :=
  .folder [named "target" (.folder [named "criterion" (.folder groups)])]

theorem wellNamed_estimated (document : String) : (estimated document).WellNamed :=
  .single (by decide) (.single (by decide) (.file _))

theorem wellNamed_measurements {groups : List (Name × Node)}
    (wellNamed : Node.WellNamed (.folder groups)) : (measurements groups).WellNamed :=
  .single (by decide) (.single (by decide) wellNamed)

/-- Two functions of a group, and a function that does not count. -/
def lockGroups : List (Name × Node) :=
  [named "report" (.folder [named "lock" (estimated "lost")]),
    named "lock" (.folder
      [named "std_mutex" (estimated "\x7b\"mean\":\x7b\"point_estimate\":9\x7d\x7d"),
        named "monitor" (estimated "\x7b\"mean\":\x7b\"point_estimate\":3\x7d\x7d")])]

theorem wellNamed_lockGroups : Node.WellNamed (.folder lockGroups) := by
  refine .folder (by decide) (by decide) ?_
  simp only [lockGroups, List.forall_mem_cons]
  refine ⟨.single (by decide) (wellNamed_estimated _), ?_, by simp⟩
  refine .folder (by decide) (by decide) ?_
  simp only [List.forall_mem_cons]
  exact ⟨wellNamed_estimated _, wellNamed_estimated _, by simp⟩

theorem collection_exact_locks :
    collect (.folder lockGroups) = .ok [("lock", [("monitor", 3), ("std_mutex", 9)])] ∧
      (generate.run (measurements lockGroups.reverse)).1 = .ok true ∧
      writtenReport (generate.run (measurements lockGroups.reverse)).2 =
        some (String.join (["# synchro vs std", "", "| Group | Function | Mean | Speedup vs std |",
          "|---|---|---|---|", "| lock | monitor | 3 ns | **3.00x** |",
          "| lock | std_mutex | 9 ns | **1.00x** |"].map (· ++ "\n"))) := by
  have collected :
      collect (.folder lockGroups) = .ok [("lock", [("monitor", 3), ("std_mutex", 9)])] := by
    rfl
  have listed {source : Source} (considered : source.ConsideredIn (.folder lockGroups)) :
      source ∈ sources (.folder lockGroups) :=
    (mem_sources_iff wellNamed_lockGroups).mpr considered
  have distinct : ((sources (.folder lockGroups)).map Source.key).Nodup := by decide
  have valid : ∀ source ∈ sources (.folder lockGroups), ∃ mean, source.Estimates mean := by
    refine List.forall_mem_cons.mpr ⟨⟨9, _, rfl, ofText_estimates_eq_ok_iff.mp ?_⟩,
      List.forall_mem_cons.mpr ⟨⟨3, _, rfl, ofText_estimates_eq_ok_iff.mp ?_⟩,
        fun _ member => absurd member List.not_mem_nil⟩⟩
    · rfl
    · rfl
  have relisted : (measurements lockGroups).Relisted (measurements lockGroups.reverse) :=
    .single (.single (.of_perm wellNamed_lockGroups (List.reverse_perm _).symm))
  obtain ⟨results, collected', _, _, other⟩ := collection_exact
    (wellNamed_measurements wellNamed_lockGroups)
    (show (measurements lockGroups).at? measuredPath = some (.folder lockGroups) from rfl) rfl
    (fun source considered => valid source (listed considered))
    fun source other considered considered' alike =>
      List.inj_on_of_nodup_map distinct (listed considered) (listed considered') alike
  obtain rfl := Except.ok.inj (collected.symm.trans collected')
  obtain ⟨done, report⟩ := (other _ relisted).2.2.2.1 rfl
  refine ⟨collected, done, report.trans ?_⟩
  decide +kernel

end Interlock.Bench

import Interlock.Proofs.Bench.Report

/-!
# Failures to collect are exact

Collecting fails if a source is bad, and only then. The failure names a bad source: from a path as
it is shown, the names on it can be told (`Source.key_eq_of_path`), so that it is not the path of a
file that does not count. The tree is left as it was.
-/

namespace Interlock.Bench

variable {root measured : Node} {results : Results} {source other : Source} {failure : Failure}

/-! ## Paths as they are shown -/

namespace Source

/-- The names of the group and the function have no slash, as names in a tree. -/
def Unslashed (source : Source) : Prop :=
  '/'.toUInt8 ∉ source.group ∧ '/'.toUInt8 ∉ source.function

/-- The names of the group and the function are texts. -/
def IsText (source : Source) : Prop :=
  (∃ text, source.group = Text.toBytes text) ∧ ∃ text, source.function = Text.toBytes text

theorem ConsideredIn.unslashed (considered : source.ConsideredIn measured)
    (wellNamed : measured.WellNamed) : source.Unslashed := by
  have names := (wellNamed.at? considered.found).1
  exact ⟨names _ (by simp), names _ (by simp)⟩

/-- The names on a path are what is between its slashes. -/
theorem splitOn_path (unslashed : source.Unslashed) :
    source.path.toList.splitOn '/' =
      (measuredPath ++ [source.group, source.function] ++ estimatesPath).map
        fun name => (Text.shown name).toList := by
  have names : ∀ name ∈ measuredPath ++ [source.group, source.function] ++ estimatesPath,
      '/'.toUInt8 ∉ name := by
    have first : ∀ name ∈ measuredPath, '/'.toUInt8 ∉ name := by decide
    have last : ∀ name ∈ estimatesPath, '/'.toUInt8 ∉ name := by decide
    simpa [or_imp, forall_and, unslashed.1, unslashed.2] using ⟨first, last⟩
  rw [path, shownPath, String.toList_intercalate, List.map_map]
  refine List.splitOn_intercalate '/' ?_ (by simp)
  intro shown member
  obtain ⟨name, among, rfl⟩ := List.mem_map.mp member
  exact Text.slash_notMem_shown (names name among)

/-- Sources with one path are named alike. -/
theorem key_eq_of_path (unslashed : source.Unslashed) (unslashed' : other.Unslashed)
    (same : other.path = source.path) : other.key = source.key := by
  have names := splitOn_path unslashed'
  rw [same, splitOn_path unslashed] at names
  have alike : Text.shown other.group = Text.shown source.group ∧
      Text.shown other.function = Text.shown source.function := by
    simpa [String.toList_inj, eq_comm] using names
  exact Prod.ext alike.1 alike.2

/-- Texts that are shown alike are the same. -/
theorem names_eq_of_key (text : source.IsText) (text' : other.IsText)
    (alike : other.key = source.key) :
    other.group = source.group ∧ other.function = source.function := by
  obtain ⟨⟨group, own⟩, ⟨function, own'⟩⟩ := text
  obtain ⟨⟨group', others⟩, ⟨function', others'⟩⟩ := text'
  obtain ⟨alike, alike'⟩ := Prod.ext_iff.mp alike
  simp only [key, own, own', others, others', Text.shown_toBytes] at alike alike'
  rw [own, own', others, others', alike, alike']
  exact ⟨rfl, rfl⟩

/-- Of the files that count, only one has a path, if the names are texts. -/
theorem ConsideredIn.eq_of_path (considered : source.ConsideredIn measured)
    (considered' : other.ConsideredIn measured) (wellNamed : measured.WellNamed)
    (text : source.IsText) (text' : other.IsText) (same : other.path = source.path) :
    other = source := by
  have alike :=
    key_eq_of_path (considered.unslashed wellNamed) (considered'.unslashed wellNamed) same
  obtain ⟨groups, functions⟩ := names_eq_of_key text text' alike
  have found := considered'.found
  rw [groups, functions, considered.found] at found
  exact Source.ext groups functions (Option.some.inj found).symm

end Source

/-! ## Failures -/

theorem generate_of_collect_eq_error (there : root.at? measuredPath = some measured)
    (failed : collect measured = .error failure) : generate.run root = (.error failure, root) := by
  rw [run_generate, there]
  dsimp only
  rw [failed]

theorem context_of_obstacle (obstacle : obstacle? root = some failure) :
    failure.context = none := by
  unfold obstacle? at obstacle
  split at obstacle <;> cases obstacle <;> rfl

/-- A failure to collect ends the task, and it is told from the others by its context. -/
theorem collect_eq_error_iff (wellNamed : measured.WellNamed) (isFolder : measured.isFolder)
    (there : root.at? measuredPath = some measured) :
    collect measured = .error failure ↔
      (generate.run root).1 = .error failure ∧ failure.context.isSome := by
  constructor
  · intro failed
    obtain ⟨source, _, ⟨_, context⟩ | ⟨_, context⟩⟩ := of_collect_eq_error wellNamed isFolder failed
    all_goals
      rw [generate_of_collect_eq_error there failed, context]
      exact ⟨rfl, rfl⟩
  rintro ⟨failed, context⟩
  cases collected : collect measured with
  | error failure' =>
    rw [generate_of_collect_eq_error there collected] at failed
    exact congrArg Except.error (Except.error.inj failed)
  | ok results =>
    rw [(generate_of_collect there collected).1] at failed
    cases obstacle : obstacle? root with
    | none =>
      rw [obstacle] at failed
      cases failed
    | some failure' =>
      rw [obstacle] at failed
      cases failed
      rw [context_of_obstacle obstacle] at context
      cases context

/-- Collecting fails if and only if a file that counts is bad, that is unreadable or no estimates
document. The failure tells in its context which of the two, and names a bad file by its path. This
path is shown for no file with other names, as they are shown, so for none that does not count, and
for no other file that counts if the names are texts. The tree stays as it was. -/
theorem collection_failures_exact (wellNamed : root.WellNamed)
    (there : root.at? measuredPath = some measured) (isFolder : measured.isFolder) :
    ((∃ failure, collect measured = .error failure) ↔
      ∃ source : Source, source.ConsideredIn measured ∧ (source.Unreadable ∨ source.Unparsable)) ∧
    ∀ failure,
      (collect measured = .error failure ↔
        (generate.run root).1 = .error failure ∧ failure.context.isSome) ∧
      (collect measured = .error failure →
        (∃ source : Source, source.ConsideredIn measured ∧
          (source.Unreadable ∧ failure.context = some ("reading " ++ source.path) ∨
            source.Unparsable ∧ failure.context = some ("parsing " ++ source.path)) ∧
          (∀ other : Source, other.Unslashed → other.path = source.path →
            other.key = source.key) ∧
          ∀ other : Source, other.ConsideredIn measured → source.IsText → other.IsText →
            other.path = source.path → other = source) ∧
        (generate.run root).2 = root) := by
  have below := (wellNamed.at? there).2
  refine ⟨collect_fails_iff below isFolder, fun failure =>
    ⟨collect_eq_error_iff below isFolder there, fun failed => ⟨?_, ?_⟩⟩⟩
  · obtain ⟨source, considered, bad⟩ := of_collect_eq_error below isFolder failed
    refine ⟨source, considered, bad, fun other unslashed same => ?_, fun other considered' => ?_⟩
    · exact Source.key_eq_of_path (considered.unslashed below) unslashed same
    · exact considered.eq_of_path considered' below
  · rw [generate_of_collect_eq_error there failed]

/-! ### A tree with a lost file -/

/-- Of two functions of a group, one has lost its estimates. -/
def tornGroups : List (Name × Node) :=
  [named "lock" (.folder
    [named "std_mutex" (estimated "\x7b\"mean\":\x7b\"point_estimate\":9\x7d\x7d"),
      named "monitor" (estimated "lost")])]

theorem wellNamed_tornGroups : Node.WellNamed (.folder tornGroups) := by
  refine .single (by decide) (.folder (by decide) (by decide) ?_)
  simp only [List.forall_mem_cons]
  exact ⟨wellNamed_estimated _, wellNamed_estimated _, by simp⟩

theorem collection_failures_exact_torn :
    (∃ failure, collect (.folder tornGroups) = .error failure) ∧
      (generate.run (measurements tornGroups)).2 = measurements tornGroups := by
  obtain ⟨bad, each⟩ := collection_failures_exact (wellNamed_measurements wellNamed_tornGroups)
    (show (measurements tornGroups).at? measuredPath = some (.folder tornGroups) from rfl) rfl
  have lost : ∀ mean, ¬ Document "lost" mean := fun mean valid =>
    nomatch ofText_estimates_eq_ok_iff.mpr valid
  obtain ⟨failure, failed⟩ := bad.mpr
    ⟨⟨Text.toBytes "lock", Text.toBytes "monitor", .file (Text.toBytes "lost")⟩,
      ⟨by decide, by decide, rfl⟩, .inr ⟨"lost", rfl, lost⟩⟩
  exact ⟨⟨failure, failed⟩, ((each failure).2 failed).2⟩

end Interlock.Bench

import Interlock.Bench.Report
import Interlock.Proofs.Bench.Estimates
import Interlock.Proofs.Bench.Folder
import Mathlib.Data.List.Induction

/-!
# What is collected

The sources of a tree of measurements are its estimates files that count: those that are where
they belong, below groups and functions that are not excluded. Collecting reads the sources in the
order of listing and records the mean of each. It fails if and only if a source is not an estimates
document, and otherwise the results have the means of the sources, and no others.
-/

namespace Interlock.Bench

/-- An estimates file of a function of a group. -/
@[ext]
structure Source where
  group : Name
  function : Name
  file : Node

namespace Source

variable {source : Source} {mean : Float} {failure : Failure} {measured : Node}

/-- The group and the function as they are named in results. -/
def key (source : Source) : String × String :=
  (Text.shown source.group, Text.shown source.function)

/-- The path of the file as it is shown. -/
def path (source : Source) : String :=
  shownPath source.group source.function

/-- A group and a function that are not excluded have this file. -/
structure ConsideredIn (source : Source) (measured : Node) : Prop where
  group : Text.shown source.group ≠ excluded
  function : Text.shown source.function ≠ excluded
  found : measured.at? ([source.group, source.function] ++ estimatesPath) = some source.file

/-- The file is an estimates document with this mean. -/
def Estimates (source : Source) (mean : Float) : Prop :=
  ∃ text, source.file = .file (Text.toBytes text) ∧ Document text mean

/-- The file cannot be read as a text. -/
def Unreadable (source : Source) : Prop :=
  ∀ text, source.file ≠ .file (Text.toBytes text)

/-- The file is a text, but not an estimates document. -/
def Unparsable (source : Source) : Prop :=
  ∃ text, source.file = .file (Text.toBytes text) ∧ ∀ mean, ¬ Document text mean

/-- The failure tells that the file is bad, in which way, and where it is. -/
def BlamedBy (source : Source) (failure : Failure) : Prop :=
  source.Unreadable ∧ failure.context = some ("reading " ++ source.path) ∨
    source.Unparsable ∧ failure.context = some ("parsing " ++ source.path)

/-- What reading the file gives. -/
def read (source : Source) : Except Failure Float :=
  readMean source.path source.file

theorem read_of_text {text : String} (same : source.file = .file (Text.toBytes text)) :
    source.read = (estimates.ofText text).mapError (.unparsable source.path) := by
  unfold read readMean
  rw [same]
  dsimp only
  rw [Text.ofBytes?_eq_some_iff.mpr rfl]

/-- A file is bad, or it is an estimates document. -/
theorem read_cases (source : Source) :
    (∃ failure, source.read = .error failure ∧ source.BlamedBy failure) ∨
      ∃ mean, source.read = .ok mean ∧ source.Estimates mean := by
  cases file : source.file with
  | folder entries =>
    refine .inl ⟨.unreadableFolder source.path, by rw [read, file, readMean], .inl ⟨?_, rfl⟩⟩
    exact fun text same => nomatch file.symm.trans same
  | file contents =>
    cases decoded : Text.ofBytes? contents with
    | none =>
      refine .inl ⟨.unreadableText source.path, by rw [read, file, readMean, decoded],
        .inl ⟨fun text same => ?_, rfl⟩⟩
      exact Text.ofBytes?_eq_none_iff.mp decoded text (Node.file.inj (same.symm.trans file))
    | some text =>
      have same : source.file = .file (Text.toBytes text) := by
        rw [file, Text.ofBytes?_eq_some_iff.mp decoded]
      cases parsed : estimates.ofText text with
      | error problem =>
        refine .inl ⟨.unparsable source.path problem, by rw [read_of_text same, parsed]; rfl,
          .inr ⟨⟨text, same, fun mean valid => ?_⟩, rfl⟩⟩
        cases parsed.symm.trans (ofText_estimates_eq_ok_iff.mpr valid)
      | ok mean =>
        exact .inr ⟨mean, by rw [read_of_text same, parsed]; rfl, text, same,
          ofText_estimates_eq_ok_iff.mp parsed⟩

theorem read_eq_ok_iff : source.read = .ok mean ↔ source.Estimates mean := by
  constructor
  · intro done
    rcases source.read_cases with ⟨failure, failed, _⟩ | ⟨mean', read, valid⟩
    · cases failed.symm.trans done
    · cases read.symm.trans done
      exact valid
  · rintro ⟨text, same, valid⟩
    rw [read_of_text same, ofText_estimates_eq_ok_iff.mpr valid]
    rfl

/-- Reading fails for bad files only. -/
theorem blamedBy_of_read (failed : source.read = .error failure) : source.BlamedBy failure := by
  rcases source.read_cases with ⟨failure', failed', blamed⟩ | ⟨mean, read, _⟩
  · cases failed'.symm.trans failed
    exact blamed
  · cases read.symm.trans failed

/-- A bad file is no estimates document. -/
theorem not_estimates (bad : source.Unreadable ∨ source.Unparsable) : ¬ source.Estimates mean := by
  rintro ⟨text, same, valid⟩
  rcases bad with unreadable | ⟨text', same', invalid⟩
  · exact unreadable text same
  · obtain rfl := Text.toBytes_inj (Node.file.inj (same.symm.trans same'))
    exact invalid mean valid

end Source

/-! ## The sources in the order of listing -/

/-- The source in a group that a listed function has. -/
def sourceOf? (group : Name) (entry : Name × Node) : Option Source :=
  if Text.shown entry.1 = excluded then none
  else (entry.2.at? estimatesPath).map fun file => ⟨group, entry.1, file⟩

/-- The sources that a listed group has. -/
def sourcesOf (entry : Name × Node) : List Source :=
  if Text.shown entry.1 = excluded then []
  else match entry.2 with
    | .file _ => []
    | .folder functions => functions.filterMap (sourceOf? entry.1)

def sources : Node → List Source
  | .file _ => []
  | .folder groups => groups.flatMap sourcesOf

/-- Add the mean of a source. -/
def add (results : Results) (source : Source) : Except Failure Results :=
  source.read.map fun mean => results.record source.key.1 source.key.2 mean

section

variable {measured : Node} {results : Results} {source : Source} {group : Name}
  {entry : Name × Node} {listed : List Source}

theorem collectFunction_eq :
    collectFunction group results entry =
      match sourceOf? group entry with
      | none => .ok results
      | some source => add results source := by
  obtain ⟨function, node⟩ := entry
  unfold collectFunction sourceOf?
  dsimp only
  split
  next => rfl
  next =>
    cases node.at? estimatesPath with
    | none => rfl
    | some file => rfl

theorem collectGroup_eq : collectGroup results entry = (sourcesOf entry).foldlM add results := by
  obtain ⟨group, node⟩ := entry
  unfold collectGroup sourcesOf
  dsimp only
  split
  next => rfl
  next =>
    cases node with
    | file => rfl
    | folder functions =>
      dsimp only
      rw [List.foldlM_filterMap]
      congr 1
      funext results entry
      rw [collectFunction_eq]
      cases sourceOf? group entry <;> rfl

/-- Collecting reads the sources one after another. -/
theorem collect_eq (isFolder : measured.isFolder) :
    collect measured = (sources measured).foldlM add [] := by
  cases measured with
  | file => cases isFolder
  | folder groups =>
    change groups.foldlM collectGroup [] = (groups.flatMap sourcesOf).foldlM add []
    clear isFolder
    generalize ([] : Results) = results
    induction groups generalizing results with
    | nil => rfl
    | cons entry rest ih =>
      rw [List.foldlM_cons, List.flatMap_cons, List.foldlM_append, collectGroup_eq]
      exact congrArg _ (funext ih)

theorem sourceOf?_eq_some_iff :
    sourceOf? group entry = some source ↔
      source.group = group ∧ source.function = entry.1 ∧ Text.shown source.function ≠ excluded ∧
        entry.2.at? estimatesPath = some source.file := by
  obtain ⟨group', function, file⟩ := source
  unfold sourceOf?
  split
  next named =>
    refine ⟨(fun equal => nomatch equal), ?_⟩
    rintro ⟨_, rfl, considered, _⟩
    exact absurd named considered
  next considered =>
    rw [Option.map_eq_some_iff]
    constructor
    · rintro ⟨file', found, same⟩
      cases same
      exact ⟨rfl, rfl, considered, found⟩
    · rintro ⟨rfl, rfl, _, found⟩
      exact ⟨file, found, rfl⟩

theorem mem_sourcesOf_iff (wellNamed : entry.2.WellNamed) :
    source ∈ sourcesOf entry ↔
      source.group = entry.1 ∧ Text.shown source.group ≠ excluded ∧
        Text.shown source.function ≠ excluded ∧
        entry.2.at? (source.function :: estimatesPath) = some source.file := by
  obtain ⟨group, node⟩ := entry
  unfold sourcesOf
  split
  next named =>
    refine ⟨fun member => absurd member List.not_mem_nil, ?_⟩
    rintro ⟨rfl, considered, _⟩
    exact absurd named considered
  next considered =>
    cases node with
    | file contents =>
      exact ⟨fun member => absurd member List.not_mem_nil, fun facts => nomatch facts.2.2.2⟩
    | folder functions =>
      rw [Node.at?_cons, Option.bind_eq_some_iff]
      simp only [List.mem_filterMap, sourceOf?_eq_some_iff]
      constructor
      · rintro ⟨⟨function, node⟩, member, rfl, rfl, considered', found⟩
        exact ⟨rfl, considered, considered', node, wellNamed.lookup_eq_some_iff.mpr member, found⟩
      · rintro ⟨rfl, _, considered', node, here, found⟩
        exact ⟨(source.function, node), wellNamed.lookup_eq_some_iff.mp here, rfl, rfl, considered',
          found⟩

/-- Listed are the sources that are considered. -/
theorem mem_sources_iff (wellNamed : measured.WellNamed) :
    source ∈ sources measured ↔ source.ConsideredIn measured := by
  cases measured with
  | file contents =>
    exact ⟨fun member => absurd member List.not_mem_nil, fun considered => nomatch considered.found⟩
  | folder groups =>
    rw [sources, List.mem_flatMap]
    constructor
    · rintro ⟨⟨group, node⟩, member, listed⟩
      obtain ⟨rfl, considered, considered', found⟩ :=
        (mem_sourcesOf_iff (wellNamed.of_mem member).2).mp listed
      refine ⟨considered, considered', ?_⟩
      exact Option.bind_eq_some_iff.mpr ⟨node, wellNamed.lookup_eq_some_iff.mpr member, found⟩
    · rintro ⟨considered, considered', found⟩
      obtain ⟨node, here, below⟩ := Option.bind_eq_some_iff.mp found
      have member := wellNamed.lookup_eq_some_iff.mp here
      refine ⟨(source.group, node), member, ?_⟩
      exact (mem_sourcesOf_iff (wellNamed.of_mem member).2).mpr
        ⟨rfl, considered, considered', below⟩

/-- Reading the sources records the mean of each, if all have one and if those that are named alike
have the same. -/
theorem foldlM_add (valid : ∀ source ∈ listed, ∃ mean, source.read = .ok mean)
    (agree : ∀ source ∈ listed, ∀ other ∈ listed, source.key = other.key →
      source.read = other.read) :
    ∃ results : Results, listed.foldlM add [] = .ok results ∧ results.Ordered ∧
      ∀ group function mean, results.mean? group function = some mean ↔
        ∃ source ∈ listed, source.key = (group, function) ∧ source.read = .ok mean := by
  induction listed using List.reverseRecOn with
  | nil => exact ⟨[], rfl, Results.ordered_nil, by simp [Results.mean?, Index.get?]⟩
  | append_singleton listed last ih =>
    have before {source : Source} (member : source ∈ listed) : source ∈ listed ++ [last] :=
      List.mem_append_left _ member
    have at_end : last ∈ listed ++ [last] := List.mem_append_right _ List.mem_cons_self
    obtain ⟨results, done, ordered, means⟩ := ih (fun source member => valid source (before member))
      fun source member other member' => agree source (before member) other (before member')
    obtain ⟨mean', read⟩ := valid last at_end
    refine ⟨results.record last.key.1 last.key.2 mean', ?_, ordered.record, ?_⟩
    · rw [List.foldlM_append, done]
      change [last].foldlM add results = _
      simp [add, read, Except.map]
    intro group function mean
    rw [Results.mean?_record ordered.sorted]
    by_cases named : last.key = (group, function)
    · rw [if_pos (by simp [named])]
      constructor
      · rintro ⟨⟩
        exact ⟨last, at_end, named, read⟩
      · rintro ⟨source, member, alike, read'⟩
        have same := agree source member last at_end (alike.trans named.symm)
        exact congrArg some (Except.ok.inj (read.symm.trans (same.symm.trans read')))
    · have other : ¬ (group = last.key.1 ∧ function = last.key.2) := fun own =>
        named (Prod.ext own.1.symm own.2.symm)
      rw [if_neg other, means]
      simp [or_and_right, exists_or, named]

/-- Reading goes to the end only if all sources have a mean. -/
theorem readable_of_foldlM {results' : Results} (done : listed.foldlM add results = .ok results') :
    ∀ source ∈ listed, ∃ mean, source.read = .ok mean := by
  induction listed generalizing results with
  | nil => exact fun _ member => absurd member List.not_mem_nil
  | cons first rest ih =>
    rw [List.foldlM_cons, add] at done
    cases read : first.read with
    | error failure => rw [read] at done; cases done
    | ok mean =>
      rw [read] at done
      exact List.forall_mem_cons.mpr ⟨⟨mean, read⟩, ih done⟩

/-- Reading ends early with the failure of a source. -/
theorem exists_of_foldlM_eq_error {failure : Failure}
    (failed : listed.foldlM add results = .error failure) :
    ∃ source ∈ listed, source.read = .error failure := by
  induction listed generalizing results with
  | nil => cases failed
  | cons first rest ih =>
    rw [List.foldlM_cons, add] at failed
    cases read : first.read with
    | error failure' =>
      rw [read] at failed
      cases failed
      exact ⟨first, List.mem_cons_self, read⟩
    | ok mean =>
      rw [read] at failed
      obtain ⟨source, member, read⟩ := ih failed
      exact ⟨source, List.mem_cons_of_mem _ member, read⟩

/-- If all sources are estimates documents and no two are named alike, the means of the sources are
collected, and no others. -/
theorem collect_of_valid (wellNamed : measured.WellNamed) (isFolder : measured.isFolder)
    (valid : ∀ source : Source, source.ConsideredIn measured → ∃ mean, source.Estimates mean)
    (distinct : ∀ source other : Source, source.ConsideredIn measured →
      other.ConsideredIn measured → source.key = other.key → source = other) :
    ∃ results : Results, collect measured = .ok results ∧ results.Ordered ∧
      ∀ group function mean, results.mean? group function = some mean ↔
        ∃ source : Source, source.ConsideredIn measured ∧ source.key = (group, function) ∧
          source.Estimates mean := by
  have listed {source : Source} : source ∈ sources measured ↔ source.ConsideredIn measured :=
    mem_sources_iff wellNamed
  have readable (source : Source) (member : source ∈ sources measured) :
      ∃ mean, source.read = .ok mean :=
    (valid source (listed.mp member)).imp fun _ => Source.read_eq_ok_iff.mpr
  obtain ⟨results, done, ordered, means⟩ := foldlM_add readable
    fun source member other member' alike =>
      congrArg Source.read (distinct source other (listed.mp member) (listed.mp member') alike)
  refine ⟨results, (collect_eq isFolder).trans done, ordered, fun group function mean => ?_⟩
  simp only [means, listed, Source.read_eq_ok_iff]

/-- Collecting fails only because of a source that is bad, in the way that the failure tells. -/
theorem of_collect_eq_error (wellNamed : measured.WellNamed) (isFolder : measured.isFolder)
    {failure : Failure} (failed : collect measured = .error failure) :
    ∃ source : Source, source.ConsideredIn measured ∧ source.BlamedBy failure := by
  rw [collect_eq isFolder] at failed
  obtain ⟨source, member, failed⟩ := exists_of_foldlM_eq_error failed
  exact ⟨source, (mem_sources_iff wellNamed).mp member, Source.blamedBy_of_read failed⟩

/-- Collecting succeeds only if all sources are estimates documents. -/
theorem estimates_of_collect (wellNamed : measured.WellNamed) (isFolder : measured.isFolder)
    (done : collect measured = .ok results) (considered : source.ConsideredIn measured) :
    ∃ mean, source.Estimates mean := by
  rw [collect_eq isFolder] at done
  obtain ⟨mean, read⟩ := readable_of_foldlM done source ((mem_sources_iff wellNamed).mpr considered)
  exact ⟨mean, Source.read_eq_ok_iff.mp read⟩

/-- Collecting fails if and only if a source is bad. -/
theorem collect_fails_iff (wellNamed : measured.WellNamed) (isFolder : measured.isFolder) :
    (∃ failure, collect measured = .error failure) ↔
      ∃ source : Source, source.ConsideredIn measured ∧
        (source.Unreadable ∨ source.Unparsable) := by
  constructor
  · rintro ⟨failure, failed⟩
    obtain ⟨source, considered, bad⟩ := of_collect_eq_error wellNamed isFolder failed
    exact ⟨source, considered, bad.imp And.left And.left⟩
  · rintro ⟨source, considered, bad⟩
    cases collected : collect measured with
    | error failure => exact ⟨failure, rfl⟩
    | ok results =>
      obtain ⟨mean, valid⟩ := estimates_of_collect wellNamed isFolder collected considered
      exact absurd valid (Source.not_estimates bad)

/-- If all sources are estimates documents, another listing has the same sources. -/
theorem considered_iff_of_relisted {other : Node} (wellNamed : measured.WellNamed)
    (relisted : measured.Relisted other)
    (valid : ∀ source : Source, source.ConsideredIn measured → ∃ mean, source.Estimates mean) :
    source.ConsideredIn other ↔ source.ConsideredIn measured := by
  constructor
  · rintro ⟨considered, considered', found⟩
    have here := relisted.at? wellNamed ([source.group, source.function] ++ estimatesPath)
    cases found' : measured.at? ([source.group, source.function] ++ estimatesPath) with
    | none =>
      rw [found', found] at here
      cases here
    | some file =>
      obtain ⟨mean, text, same, _⟩ :=
        valid ⟨source.group, source.function, file⟩ ⟨considered, considered', found'⟩
      obtain rfl : file = .file (Text.toBytes text) := same
      rw [(relisted.at?_eq_file_iff wellNamed).mp found'] at found
      exact ⟨considered, considered', Option.some.inj found ▸ found'⟩
  · intro facts
    obtain ⟨mean, text, same, _⟩ := valid source facts
    obtain ⟨considered, considered', found⟩ := facts
    rw [same] at found
    refine ⟨considered, considered', ?_⟩
    rw [same]
    exact (relisted.at?_eq_file_iff wellNamed).mp found

end

end Interlock.Bench

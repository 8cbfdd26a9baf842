import Interlock.Bench.Folder
import Interlock.Proofs.Bench.Results
import Mathlib.Data.Option.Basic

/-!
# Trees and the order of their listing

In a tree of a file system the names in a folder are distinct and have no slash (`WellNamed`).
Such a tree may be listed in another order at every folder (`Relisted`), and then the same is found
at every path. What is put at a path is found there, and can be put if its folder is there.
-/

namespace Interlock.Bench.Node

variable {node other content : Node} {entries others : List (Name × Node)} {name : Name}
  {path : List Name}

/-- The names of a folder's entries are distinct and without slashes, here and below. -/
inductive WellNamed : Node → Prop where
  | file (contents : List UInt8) : WellNamed (.file contents)
  | folder {entries : List (Name × Node)} (distinct : (entries.map Prod.fst).Nodup)
      (unslashed : ∀ name ∈ entries.map Prod.fst, '/'.toUInt8 ∉ name)
      (below : ∀ entry ∈ entries, WellNamed entry.2) : WellNamed (.folder entries)

/-- Two listings of one tree: the folders have the same entries, each in some order. -/
inductive Relisted : Node → Node → Prop where
  | file (contents : List UInt8) : Relisted (.file contents) (.file contents)
  | folder {entries others : List (Name × Node)}
      (names : (entries.map Prod.fst).Perm (others.map Prod.fst))
      (below : ∀ entry ∈ entries, ∀ other ∈ others, entry.1 = other.1 →
        Relisted entry.2 other.2) : Relisted (.folder entries) (.folder others)

theorem Relisted.isFolder (relisted : Relisted node other) : other.isFolder = node.isFolder := by
  cases relisted <;> rfl

theorem Relisted.wellNamed (relisted : Relisted node other) (wellNamed : node.WellNamed) :
    other.WellNamed := by
  induction relisted with
  | file contents => exact .file contents
  | folder names _ ih =>
    cases wellNamed with
    | folder distinct unslashed below =>
      refine .folder (names.nodup_iff.mp distinct)
        (fun name member => unslashed name (names.mem_iff.mpr member)) fun other member => ?_
      have present := names.mem_iff.mpr (List.mem_map_of_mem member)
      obtain ⟨entry, among, same⟩ := List.mem_map.mp present
      exact ih entry among other member same (below entry among)

theorem WellNamed.of_mem (wellNamed : WellNamed (.folder entries)) {entry : Name × Node}
    (member : entry ∈ entries) : '/'.toUInt8 ∉ entry.1 ∧ entry.2.WellNamed := by
  cases wellNamed with
  | folder _ unslashed below =>
    exact ⟨unslashed entry.1 (List.mem_map_of_mem member), below entry member⟩

/-- What a folder has under a name is its entry with this name. -/
theorem WellNamed.lookup_eq_some_iff (wellNamed : WellNamed (.folder entries)) :
    entries.lookup name = some node ↔ (name, node) ∈ entries := by
  cases wellNamed with
  | folder distinct => exact Bench.lookup_eq_some_iff distinct

theorem WellNamed.child (wellNamed : node.WellNamed) (found : node.child? name = some other) :
    '/'.toUInt8 ∉ name ∧ other.WellNamed := by
  cases node with
  | file => cases found
  | folder entries => exact wellNamed.of_mem (wellNamed.lookup_eq_some_iff.mp found)

theorem WellNamed.single (unslashed : '/'.toUInt8 ∉ name) (wellNamed : node.WellNamed) :
    WellNamed (.folder [(name, node)]) := by
  refine .folder (List.nodup_singleton _) ?_ ?_ <;> simpa

theorem Relisted.refl (wellNamed : node.WellNamed) : node.Relisted node := by
  induction wellNamed with
  | file contents => exact .file contents
  | folder distinct _ _ ih =>
    refine .folder (.refl _) fun entry member other member' same => ?_
    obtain rfl := List.inj_on_of_nodup_map distinct member member' same
    exact ih entry member

/-- The entries of a folder may be listed in any order. -/
theorem Relisted.of_perm (wellNamed : WellNamed (.folder entries)) (perm : entries.Perm others) :
    Relisted (.folder entries) (.folder others) := by
  cases Relisted.refl wellNamed with
  | folder _ below =>
    exact .folder (perm.map _) fun entry member other member' =>
      below entry member other (perm.mem_iff.mpr member')

/-- A folder is listed in another order if what is in it is. -/
theorem Relisted.single (relisted : Relisted node other) :
    Relisted (.folder [(name, node)]) (.folder [(name, other)]) := by
  refine .folder (.refl _) ?_
  simpa using relisted

theorem at?_cons : node.at? (name :: path) = (node.child? name).bind fun child => child.at? path :=
  rfl

theorem at?_append (first second : List Name) :
    node.at? (first ++ second) = (node.at? first).bind fun child => child.at? second := by
  induction first generalizing node with
  | nil => rfl
  | cons name rest ih =>
    rw [List.cons_append, at?_cons, at?_cons]
    cases node.child? name with
    | none => rfl
    | some child => exact ih

/-- Nodes below a well-named one are well-named, and the names on the way have no slash. -/
theorem WellNamed.at? (wellNamed : node.WellNamed) (found : node.at? path = some other) :
    (∀ name ∈ path, '/'.toUInt8 ∉ name) ∧ other.WellNamed := by
  induction path generalizing node with
  | nil =>
    obtain rfl : node = other := Option.some.inj found
    exact ⟨fun _ member => absurd member List.not_mem_nil, wellNamed⟩
  | cons name rest ih =>
    obtain ⟨child, here, below⟩ := Option.bind_eq_some_iff.mp found
    obtain ⟨unslashed, wellNamed⟩ := wellNamed.child here
    obtain ⟨later, wellNamed⟩ := ih wellNamed below
    exact ⟨List.forall_mem_cons.mpr ⟨unslashed, later⟩, wellNamed⟩

/-- Two listings have the same under a name. -/
theorem Relisted.child? (relisted : Relisted node other) (wellNamed : node.WellNamed)
    (name : Name) : Option.Rel Relisted (node.child? name) (other.child? name) := by
  have wellNamed' := relisted.wellNamed wellNamed
  cases relisted with
  | file contents => exact .none
  | @folder entries others names below =>
    change Option.Rel Relisted (entries.lookup name) (others.lookup name)
    cases found : entries.lookup name with
    | none =>
      have absent := lookup_eq_none_iff.mp found
      rw [lookup_eq_none_iff.mpr fun member => absent (names.mem_iff.mpr member)]
      exact .none
    | some child =>
      have member := wellNamed.lookup_eq_some_iff.mp found
      have present := names.mem_iff.mp (List.mem_map_of_mem member)
      obtain ⟨⟨_, child'⟩, among, rfl⟩ := List.mem_map.mp present
      rw [wellNamed'.lookup_eq_some_iff.mpr among]
      exact .some (below _ member _ among rfl)

/-- Two listings have the same at every path. -/
theorem Relisted.at? (relisted : Relisted node other) (wellNamed : node.WellNamed)
    (path : List Name) : Option.Rel Relisted (node.at? path) (other.at? path) := by
  induction path generalizing node other with
  | nil => exact .some relisted
  | cons name rest ih =>
    have here := relisted.child? wellNamed name
    have below (child : Node) (found : node.child? name = some child) : child.WellNamed :=
      (wellNamed.child found).2
    rw [at?_cons, at?_cons]
    generalize node.child? name = child at here below ⊢
    generalize other.child? name = child' at here ⊢
    cases here with
    | none => exact .none
    | some relisted => exact ih relisted (below _ rfl)

theorem Relisted.exists_at? {found : Node} (relisted : Relisted node other)
    (wellNamed : node.WellNamed) (here : node.at? path = some found) :
    ∃ found', other.at? path = some found' ∧ Relisted found found' := by
  have both := relisted.at? wellNamed path
  rw [here] at both
  generalize other.at? path = found' at both ⊢
  cases both with
  | some relisted => exact ⟨_, rfl, relisted⟩

/-- A file is found in every listing, with the same contents. -/
theorem Relisted.at?_eq_file_iff (relisted : Relisted node other) (wellNamed : node.WellNamed)
    {contents : List UInt8} :
    node.at? path = some (.file contents) ↔ other.at? path = some (.file contents) := by
  have here := relisted.at? wellNamed path
  generalize node.at? path = found at here ⊢
  generalize other.at? path = found' at here ⊢
  cases here with
  | none => exact Iff.rfl
  | some relisted => cases relisted <;> simp

theorem lookup_withEntry : (withEntry name content entries).lookup name = some content := by
  induction entries with
  | nil => exact List.lookup_cons_self
  | cons entry rest ih =>
    obtain ⟨other, node⟩ := entry
    unfold withEntry
    split
    next => exact List.lookup_cons_self
    next differs => rw [List.lookup_cons, beq_eq_false_iff_ne.mpr (Ne.symm differs), ih]

/-- What has been put at a path is found there. -/
theorem at?_put (done : put content path node = some other) : other.at? path = some content := by
  induction path generalizing node other with
  | nil => exact congrArg some (Option.some.inj done).symm
  | cons name rest ih =>
    cases node with
    | file => cases done
    | folder entries =>
      obtain ⟨child, below, rfl⟩ := Option.map_eq_some_iff.mp done
      rw [at?_cons, child?, lookup_withEntry]
      exact ih below

/-- A folder takes whatever is put there, whether or not it has the name. -/
theorem exists_put (found : node.at? path = some (.folder entries)) :
    ∃ other, put content (path ++ [name]) node = some other := by
  induction path generalizing node with
  | nil =>
    obtain rfl : node = .folder entries := Option.some.inj found
    exact ⟨_, rfl⟩
  | cons first rest ih =>
    obtain ⟨child, here, below⟩ := Option.bind_eq_some_iff.mp found
    cases node with
    | file => cases here
    | folder siblings =>
      obtain ⟨child', done⟩ := ih below
      refine ⟨.folder (withEntry first child' siblings), ?_⟩
      rw [List.cons_append, put, show siblings.lookup first = some child from here,
        Option.getD_some, done, Option.map_some]

end Interlock.Bench.Node

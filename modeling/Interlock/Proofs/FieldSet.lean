import Interlock.FieldSet
import Mathlib.Data.List.Nodup
import Mathlib.Logic.Function.Basic

/-!
# A field set is a map from its names

The names and what they hold are two lists that belong together by position only (`Holds`). Since
the names are distinct, the first position at which a name is found is its only one, so writing
there changes what this name holds and nothing else. Requests can therefore be answered from a map
(`Request.ask`), which is what `serve` is compared with, for one request and then for any number of
them. `lastLeft` is what the map holds, read off the requests.
-/

namespace Interlock.FieldSet

variable {α : Type}

/-- What can be asked of a field set. -/
inductive Request (α : Type) where
  | get (name : String)
  | set (name : String) (value : α)
  | take (name : String)
  deriving Repr, DecidableEq

/-- What a request that is not refused is answered with. -/
inductive Answer (α : Type) where
  | done
  | content (held : Option α)
  deriving Repr, DecidableEq

/-- The outcome of an operation that leaves the set alone when it is refused. -/
def settle (s : FieldSet α) :
    Except Fault (Answer α × FieldSet α) → Except Fault (Answer α) × FieldSet α
  | .ok (answer, s') => (.ok answer, s')
  | .error fault => (.error fault, s)

/-- Carry a request out. -/
def serve (s : FieldSet α) : Request α → Except Fault (Answer α) × FieldSet α
  | .get name => s.settle ((s.get name).map fun held => (.content held, s))
  | .set name value => s.settle ((s.set name value).map fun s' => (.done, s'))
  | .take name => s.settle ((s.take name).map fun (held, s') => (.content held, s'))

/-- Carry requests out, one after the other. -/
def serveAll (s : FieldSet α) :
    List (Request α) → List (Except Fault (Answer α)) × FieldSet α
  | [] => ([], s)
  | request :: later =>
    ((s.serve request).1 :: ((s.serve request).2.serveAll later).1,
      ((s.serve request).2.serveAll later).2)

namespace Request

def name : Request α → String
  | .get name | .set name _ | .take name => name

/-- What a request finds in a map from declared names, and what it makes of the map. -/
def ask (names : List String) (held : String → Option α) :
    Request α → Except Fault (Answer α) × (String → Option α)
  | .get name =>
    if name ∈ names then (.ok (.content (held name)), held) else (.error (unknown name), held)
  | .set name value =>
    if name ∈ names then (.ok .done, Function.update held name (some value))
    else (.error (unknown name), held)
  | .take name =>
    if name ∈ names then (.ok (.content (held name)), Function.update held name none)
    else (.error (unknown name), held)

/-- What requests find in a map from declared names, one after the other, and what they make of
it. -/
def askAll (names : List String) (held : String → Option α) :
    List (Request α) → List (Except Fault (Answer α)) × (String → Option α)
  | [] => ([], held)
  | request :: later =>
    ((request.ask names held).1 :: (askAll names (request.ask names held).2 later).1,
      (askAll names (request.ask names held).2 later).2)

end Request

/-- The value that requests have left under a name: the last one set, unless it has been taken
since. The latest request comes first. -/
def lastLeft (name : String) : List (Request α) → Option α
  | [] => none
  | .get _ :: earlier => lastLeft name earlier
  | .set other value :: earlier => if other = name then some value else lastLeft name earlier
  | .take other :: earlier => if other = name then none else lastLeft name earlier

/-- Each name holds what the map says, at its own position. -/
def Holds (s : FieldSet α) (held : String → Option α) : Prop :=
  s.slots = s.names.map held

/-! ## Declarations -/

/-- The name found is the first one that equals an earlier name. -/
theorem repeated?_eq_some {earlier names : List String} {name : String} (clean : earlier.Nodup)
    (found : repeated? earlier names = some name) :
    ∃ before after, names = before ++ name :: after ∧ (earlier ++ before).Nodup ∧
      name ∈ earlier ++ before := by
  induction names generalizing earlier with
  | nil => cases found
  | cons first rest ih =>
    unfold repeated? at found
    split at found
    · rename_i again
      cases found
      exact ⟨[], rest, rfl, by simpa using clean, by simpa using again⟩
    · rename_i fresh
      have longer : (earlier ++ [first]).Nodup :=
        List.nodup_append.mpr ⟨clean, by simp, by
          intro a inEarlier b atEnd equal
          exact fresh (List.mem_singleton.mp atEnd ▸ equal ▸ inEarlier)⟩
      obtain ⟨before, after, rfl, distinct, mem⟩ := ih longer found
      exact ⟨first :: before, after, rfl, by simpa using distinct, by simpa using mem⟩

theorem repeated?_of_first {earlier before after : List String} {name : String}
    (distinct : (earlier ++ before).Nodup) (again : name ∈ earlier ++ before) :
    repeated? earlier (before ++ name :: after) = some name := by
  induction before generalizing earlier with
  | nil =>
    have mem : name ∈ earlier := by simpa using again
    simp [repeated?, mem]
  | cons first before ih =>
    have fresh : first ∉ earlier := by
      intro mem
      exact (List.nodup_append.mp distinct).2.2 first mem first (List.mem_cons_self ..) rfl
    have later := @ih (earlier ++ [first]) (by simpa using distinct) (by simpa using again)
    simpa [repeated?, fresh] using later

theorem declare_of_repeated?_eq_some {names : List String} {name : String}
    (found : repeated? [] names = some name) :
    (declare names : Except Fault (FieldSet α)) = .error (declaredTwice name) := by
  unfold declare
  split
  · rename_i other result
    cases result.symm.trans found
    rfl
  · rename_i result
    cases result.symm.trans found

/-- What is declared are the names, and all of them are empty. -/
theorem declare_of_repeated?_eq_none {names : List String} (clean : repeated? [] names = none) :
    ∃ s : FieldSet α, declare names = .ok s ∧ s.names = names ∧ s.Holds fun _ => none := by
  unfold declare
  split
  · rename_i result
    cases result.symm.trans clean
  · refine ⟨_, rfl, rfl, ?_⟩
    show List.replicate names.length none = names.map fun _ => none
    rw [List.map_const']

/-- A declaration is refused for the first name that equals an earlier one. -/
theorem declare_eq_error {names : List String} {fault : Fault} :
    (declare names : Except Fault (FieldSet α)) = .error fault ↔
      ∃ before name after, names = before ++ name :: after ∧ before.Nodup ∧ name ∈ before ∧
        fault = declaredTwice name := by
  constructor
  · intro refused
    cases found : repeated? [] names with
    | none =>
      obtain ⟨s, declared, -⟩ := @declare_of_repeated?_eq_none α names found
      cases declared.symm.trans refused
    | some name =>
      obtain ⟨before, after, rfl, distinct, again⟩ := repeated?_eq_some List.nodup_nil found
      cases (declare_of_repeated?_eq_some found).symm.trans refused
      exact ⟨before, name, after, rfl, distinct, again, rfl⟩
  · rintro ⟨before, name, after, rfl, distinct, again, rfl⟩
    exact declare_of_repeated?_eq_some (@repeated?_of_first [] before after name distinct again)

theorem names_of_declare {names : List String} {s : FieldSet α} (declared : declare names = .ok s) :
    s.names = names ∧ s.Holds fun _ => none := by
  cases found : repeated? [] names with
  | none =>
    obtain ⟨s', declared', facts⟩ := @declare_of_repeated?_eq_none α names found
    cases declared'.symm.trans declared
    exact facts
  | some name => cases (declare_of_repeated?_eq_some found).symm.trans declared

/-- Names can be declared if and only if no two of them are equal. -/
theorem exists_declare_iff {names : List String} :
    (∃ s : FieldSet α, declare names = .ok s) ↔ names.Nodup := by
  constructor
  · rintro ⟨s, declared⟩
    exact (names_of_declare declared).1 ▸ s.distinct
  · intro distinct
    cases found : repeated? [] names with
    | none =>
      obtain ⟨s, declared, -⟩ := @declare_of_repeated?_eq_none α names found
      exact ⟨s, declared⟩
    | some name =>
      obtain ⟨before, after, rfl, -, again⟩ := repeated?_eq_some List.nodup_nil found
      exact absurd rfl ((List.nodup_append.mp distinct).2.2 name again name
        (List.mem_cons_self ..))

/-! ## Positions -/

variable {s : FieldSet α} {held : String → Option α} {name : String} {i : Nat}

theorem names_of_index? (found : s.index? name = .ok i) : s.names[i]? = some name := by
  unfold index? at found
  split at found
  · rename_i j position
    cases found
    obtain ⟨inside, is_name, -⟩ := List.findIdx?_eq_some_iff_getElem.mp position
    rw [List.getElem?_eq_getElem inside, eq_of_beq is_name]
  · cases found

/-- A position that is found is one of both lists. -/
theorem index?_lt (found : s.index? name = .ok i) : i < s.slots.length := by
  rw [s.aligned]
  exact (List.getElem?_eq_some_iff.mp (names_of_index? found)).1

theorem index?_of_mem (declared : name ∈ s.names) : ∃ i, s.index? name = .ok i := by
  unfold index?
  cases position : s.names.findIdx? (· == name) with
  | some i => exact ⟨i, rfl⟩
  | none =>
    have absent := List.findIdx?_eq_none_iff.mp position name declared
    simp at absent

theorem index?_of_not_mem (undeclared : name ∉ s.names) :
    s.index? name = .error (unknown name) := by
  cases found : s.index? name with
  | ok i =>
    exact absurd (List.mem_of_getElem? (names_of_index? found)) undeclared
  | error fault =>
    unfold index? at found
    split at found <;> cases found
    rfl

theorem Holds.slot (holds : s.Holds held) (found : s.index? name = .ok i) :
    s.slots[i]?.join = held name := by
  rw [holds, List.getElem?_map, names_of_index? found]
  rfl

/-- Writing at the position of a name changes what this name holds. That it changes nothing else
is due to the names being distinct. -/
theorem Holds.put (holds : s.Holds held) (found : s.index? name = .ok i) (content : Option α) :
    (s.put i content).Holds (Function.update held name content) := by
  have at_i := names_of_index? found
  obtain ⟨inside, is_name⟩ := List.getElem?_eq_some_iff.mp at_i
  show s.slots.set i content = s.names.map (Function.update held name content)
  apply List.ext_getElem?
  intro j
  rw [holds, List.getElem?_set, List.length_map, List.getElem?_map, List.getElem?_map]
  by_cases same : i = j
  · subst same
    rw [if_pos rfl, if_pos inside, at_i]
    simp
  · rw [if_neg same]
    cases other : s.names[j]? with
    | none => rfl
    | some else_name =>
      obtain ⟨inside_j, is_else⟩ := List.getElem?_eq_some_iff.mp other
      have differs : else_name ≠ name := by
        rintro rfl
        exact same ((List.Nodup.getElem_inj_iff s.distinct).mp (is_name.trans is_else.symm))
      simp [Function.update_of_ne differs]

/-! ## Requests -/

theorem serve_of_not_mem {request : Request α} (undeclared : request.name ∉ s.names) :
    s.serve request = (.error (unknown request.name), s) := by
  have notFound := index?_of_not_mem undeclared
  cases request <;> simp only [Request.name] at notFound <;>
    simp only [serve, get, FieldSet.set, take, notFound, Except.map, settle, Request.name]

theorem Request.ask_of_not_mem {names : List String} {request : Request α}
    (undeclared : request.name ∉ names) :
    request.ask names held = (.error (unknown request.name), held) := by
  cases request <;> exact if_neg undeclared

/-- A request does to a field set what it does to the map. -/
theorem serve_eq_ask (holds : s.Holds held) (request : Request α) :
    (s.serve request).1 = (request.ask s.names held).1 ∧
      (s.serve request).2.Holds (request.ask s.names held).2 ∧
      (s.serve request).2.names = s.names := by
  by_cases declared : request.name ∈ s.names
  · obtain ⟨i, found⟩ := index?_of_mem declared
    have slot := holds.slot found
    cases request with
    | get name =>
      simp only [Request.name] at declared found slot
      simp only [serve, get, found, Except.map, settle, Request.ask, if_pos declared, slot]
      exact ⟨trivial, holds, trivial⟩
    | set name value =>
      simp only [Request.name] at declared found
      simp only [serve, FieldSet.set, found, Except.map, settle, Request.ask, if_pos declared]
      exact ⟨trivial, holds.put found (some value), rfl⟩
    | take name =>
      simp only [Request.name] at declared found slot
      simp only [serve, take, found, Except.map, settle, Request.ask, if_pos declared, slot]
      exact ⟨trivial, holds.put found none, rfl⟩
  · rw [serve_of_not_mem declared, Request.ask_of_not_mem declared]
    exact ⟨rfl, holds, rfl⟩

theorem serveAll_eq_askAll (holds : s.Holds held) (requests : List (Request α)) :
    (s.serveAll requests).1 = (Request.askAll s.names held requests).1 ∧
      (s.serveAll requests).2.Holds (Request.askAll s.names held requests).2 ∧
      (s.serveAll requests).2.names = s.names := by
  induction requests generalizing s held with
  | nil => exact ⟨rfl, holds, rfl⟩
  | cons request later ih =>
    obtain ⟨answer, holds', names⟩ := serve_eq_ask holds request
    obtain ⟨answers, holds'', names'⟩ := ih holds'
    rw [names] at answers holds'' names'
    refine ⟨?_, holds'', names'⟩
    show (s.serve request).1 :: ((s.serve request).2.serveAll later).1 = _
    rw [answer, answers]
    rfl

/-- After a request, a declared name holds what the requests up to this one have left. -/
theorem ask_eq_lastLeft {names : List String} {earlier : List (Request α)}
    (left : ∀ name ∈ names, held name = lastLeft name earlier) (request : Request α) :
    ∀ name ∈ names, (request.ask names held).2 name = lastLeft name (request :: earlier) := by
  intro name declared
  have before := left name declared
  cases request with
  | get other =>
    have kept : ((Request.get other : Request α).ask names held).2 = held := by
      show (if other ∈ names then (Except.ok (Answer.content (held other)), held)
        else (Except.error (unknown other), held)).2 = held
      split <;> rfl
    rw [kept]
    exact before
  | set other value | take other =>
    by_cases same : other = name
    · subst same
      simp [Request.ask, lastLeft, declared]
    · have elsewhere : name ≠ other := Ne.symm same
      by_cases known : other ∈ names <;>
        simp [Request.ask, lastLeft, known, same, elsewhere, before]

theorem askAll_eq_lastLeft {names : List String} {earlier : List (Request α)}
    (left : ∀ name ∈ names, held name = lastLeft name earlier) (requests : List (Request α)) :
    ∀ name ∈ names,
      (Request.askAll names held requests).2 name = lastLeft name (requests.reverse ++ earlier) := by
  induction requests generalizing held earlier with
  | nil => exact left
  | cons request later ih =>
    intro name declared
    rw [List.reverse_cons, List.append_assoc]
    exact ih (ask_eq_lastLeft left request) name declared

/-- Declaring names works if and only if they are distinct, and is refused for the first one that
equals an earlier one otherwise. From then on a field set answers every request as a map from its
names does that holds nothing in the beginning: a name holds the value that was last set and not
taken since. The names stay, and every position found is one of the slots. -/
theorem serves_as_map (names : List String) :
    ((∃ s : FieldSet α, declare names = .ok s) ↔ names.Nodup) ∧
    (∀ fault, (declare names : Except Fault (FieldSet α)) = .error fault ↔
      ∃ before name after, names = before ++ name :: after ∧ before.Nodup ∧ name ∈ before ∧
        fault = declaredTwice name) ∧
    ∀ s : FieldSet α, declare names = .ok s → ∀ requests : List (Request α),
      (s.serveAll requests).1 = (Request.askAll names (fun _ => none) requests).1 ∧
      (∀ name, (s.serveAll requests).2.get name =
        if name ∈ names then .ok ((Request.askAll names (fun _ => none) requests).2 name)
        else .error (unknown name)) ∧
      (∀ name ∈ names, (Request.askAll names (fun _ => none) requests).2 name =
        lastLeft name requests.reverse) ∧
      (s.serveAll requests).2.names = names ∧
      ∀ name i, (s.serveAll requests).2.index? name = .ok i →
        i < (s.serveAll requests).2.slots.length := by
  refine ⟨exists_declare_iff, fun fault => declare_eq_error, fun s declared requests => ?_⟩
  obtain ⟨rfl, empty⟩ := names_of_declare declared
  obtain ⟨answers, holds, names⟩ := serveAll_eq_askAll empty requests
  refine ⟨answers, fun name => ?_, ?_, names, fun name i found => index?_lt found⟩
  · rw [← names]
    split
    · rename_i mem
      obtain ⟨i, found⟩ := index?_of_mem mem
      rw [get, found, names]
      exact congrArg Except.ok (holds.slot found)
    · rename_i not_mem
      rw [get, index?_of_not_mem not_mem]
      rfl
  · intro name mem
    have left := @askAll_eq_lastLeft α (fun _ => none) s.names [] (fun _ _ => rfl) requests name mem
    rwa [List.append_nil] at left

theorem serves_as_map_two_names :
    ∃ s : FieldSet Nat, declare ["state", "reason"] = .ok s ∧
      (s.serveAll [.set "state" 1, .set "state" 2, .set "missing" 3, .get "state", .get "reason",
          .take "state", .take "state"]).1 =
        [.ok .done, .ok .done, .error (unknown "missing"), .ok (.content (some 2)),
          .ok (.content none), .ok (.content (some 2)), .ok (.content none)] ∧
      (s.serveAll [.set "state" 1, .take "reason"]).2.get "state" = .ok (some 1) := by
  obtain ⟨works, -, answers⟩ := serves_as_map (α := Nat) ["state", "reason"]
  obtain ⟨s, declared⟩ := works.mpr (by decide)
  refine ⟨s, declared, (answers s declared _).1.trans ?_, ?_⟩
  · simp [Request.askAll, Request.ask]
  · rw [(answers s declared _).2.1 "state"]
    simp [Request.askAll, Request.ask]

/-- The first name that equals an earlier one is the second "a", although "b" is repeated too. -/
example : (declare ["a", "b", "a", "b"] : Except Fault (FieldSet Nat)) =
    .error (declaredTwice "a") :=
  declare_of_repeated?_eq_some rfl

end Interlock.FieldSet

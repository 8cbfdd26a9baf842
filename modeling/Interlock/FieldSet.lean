import Interlock.Fault

/-!
# Field sets

A field set has a fixed list of distinct names, each of which holds a value or nothing. It starts
empty. Reading and writing a name that was not declared is refused and changes nothing.
-/

namespace Interlock

/-- Declared names and what each of them holds. -/
structure FieldSet (α : Type) where
  /-- The names in the order of their declaration. -/
  names : List String
  /-- What each name holds, in the same order. -/
  slots : List (Option α)
  distinct : names.Nodup
  aligned : slots.length = names.length

namespace FieldSet

variable {α : Type}

/-- The first name, in order, that equals an earlier one. `earlier` are the names before. -/
def repeated? (earlier : List String) : List String → Option String
  | [] => none
  | name :: rest => if name ∈ earlier then some name else repeated? (earlier ++ [name]) rest

theorem nodup_of_repeated?_eq_none {earlier names : List String} (clean : earlier.Nodup)
    (none : repeated? earlier names = none) : (earlier ++ names).Nodup := by
  induction names generalizing earlier with
  | nil => simpa using clean
  | cons name rest ih =>
    unfold repeated? at none
    split at none
    · contradiction
    · rename_i fresh
      have longer : (earlier ++ [name]).Nodup := by
        rw [List.nodup_append]
        refine ⟨clean, by simp, ?_⟩
        intro a inEarlier b atEnd equal
        rw [List.mem_singleton] at atEnd
        exact fresh (atEnd ▸ equal ▸ inEarlier)
      simpa using ih longer none

/-- The fault of declaring a name twice. -/
def declaredTwice (name : String) : Fault :=
  .invalidArgument ("field `" ++ name ++ "` declared more than once")

/-- The fault of using a name that was not declared. -/
def unknown (name : String) : Fault :=
  .invalidArgument ("unknown field `" ++ name ++ "`")

/-- Declare names, all of them empty. -/
def declare (names : List String) : Except Fault (FieldSet α) :=
  match result : repeated? [] names with
  | some name => .error (declaredTwice name)
  | none => .ok
    { names
      slots := List.replicate names.length none
      distinct := @nodup_of_repeated?_eq_none [] names .nil result
      aligned := List.length_replicate }

/-- The position of a declared name. -/
def index? (s : FieldSet α) (name : String) : Except Fault Nat :=
  match s.names.findIdx? (· == name) with
  | some i => .ok i
  | none => .error (unknown name)

/-- Put `content` into position `i`. -/
def put (s : FieldSet α) (i : Nat) (content : Option α) : FieldSet α :=
  { s with slots := s.slots.set i content, aligned := by simp [s.aligned] }

def get (s : FieldSet α) (name : String) : Except Fault (Option α) :=
  (s.index? name).map fun i => s.slots[i]?.join

def set (s : FieldSet α) (name : String) (value : α) : Except Fault (FieldSet α) :=
  (s.index? name).map fun i => s.put i (some value)

/-- Empty a name and return what it held. -/
def take (s : FieldSet α) (name : String) : Except Fault (Option α × FieldSet α) :=
  (s.index? name).map fun i => (s.slots[i]?.join, s.put i none)

/-- The diagnostic form: the names and what they hold. -/
def diagnostic (item : α → Text.Diagnostic) (s : FieldSet α) : Text.Diagnostic :=
  .mapping ((s.names.zip s.slots).map fun (name, content) =>
    (name, .optional (content.map item)))

end FieldSet

end Interlock

/-!
# Tables

A table is a total map from numbers to values that differs from the default at finitely many
numbers only. Threads, wait nodes and mailboxes are kept in tables, so that a statement about any
number of threads needs no bound and a run still reads and writes an array.

`get_set` is the only law a proof needs.
-/

namespace Interlock

/-- A total map from numbers to `α`: the entries, and the default value everywhere else. -/
structure Table (α : Type) where
  /-- The values at the numbers below the array's size. -/
  entries : Array α := #[]
  deriving Repr

namespace Table

variable {α : Type}

instance : Inhabited (Table α) := ⟨{}⟩

/-- The value at number `i`. -/
@[inline]
def get [Inhabited α] (t : Table α) (i : Nat) : α :=
  t.entries.getD i default

/-- The entries extended with defaults so that number `i` is among them. -/
def covering [Inhabited α] (t : Table α) (i : Nat) : Array α :=
  if i < t.entries.size then t.entries
  else t.entries ++ Array.replicate (i + 1 - t.entries.size) default

/-- The table with value `a` at number `i`. -/
def set [Inhabited α] (t : Table α) (i : Nat) (a : α) : Table α :=
  { entries := (t.covering i).setIfInBounds i a }

/-- The table with `f` applied at number `i`. -/
def modify [Inhabited α] (t : Table α) (i : Nat) (f : α → α) : Table α :=
  t.set i (f (t.get i))

/-- The table whose first entries are the given ones. -/
def ofList (xs : List α) : Table α :=
  { entries := xs.toArray }

variable [Inhabited α]

@[simp]
theorem get_empty (i : Nat) : ({} : Table α).get i = default := by
  simp [get]

theorem size_covering (t : Table α) (i : Nat) : i < (t.covering i).size := by
  unfold covering
  split
  · assumption
  · simp only [Array.size_append, Array.size_replicate]
    omega

theorem getD_covering (t : Table α) (i j : Nat) :
    (t.covering i).getD j default = t.get j := by
  unfold covering get
  split
  · rfl
  · simp only [Array.getD_eq_getD_getElem?, Array.getElem?_append, Array.getElem?_replicate]
    split
    · rfl
    · rw [Array.getElem?_eq_none (by omega)]
      split <;> rfl

/-- A write is read back at its own number and is invisible at every other. -/
theorem get_set (t : Table α) (i j : Nat) (a : α) :
    (t.set i a).get j = if j = i then a else t.get j := by
  have inside := size_covering t i
  by_cases same : j = i
  · subst same
    simp [set, get, inside]
  · rw [if_neg same, ← getD_covering t i j]
    simp [set, get, Array.getD_eq_getD_getElem?, Ne.symm same]

@[simp]
theorem get_set_same (t : Table α) (i : Nat) (a : α) : (t.set i a).get i = a := by
  simp [get_set]

theorem get_set_other (t : Table α) {i j : Nat} (a : α) (other : j ≠ i) :
    (t.set i a).get j = t.get j := by
  simp [get_set, other]

theorem get_modify (t : Table α) (i j : Nat) (f : α → α) :
    (t.modify i f).get j = if j = i then f (t.get i) else t.get j :=
  get_set t i j _

end Table

end Interlock

import Interlock.Text.Bytes

/-!
# Named values in byte order

An index holds at most one value for each name and lists the names in the order of their bytes.
Means are kept in an index of functions for each group.
-/

namespace Interlock.Bench

/-- Whether a name comes before another one in the order of their bytes. -/
def before (a b : String) : Bool :=
  Text.toBytes a < Text.toBytes b

/-- Values with names, in ascending order of the names. -/
abbrev Index (β : Type) := List (String × β)

namespace Index

variable {β : Type}

/-- The value of a name is `f` of the one it has had so far. -/
def alter (name : String) (f : Option β → β) : Index β → Index β
  | [] => [(name, f none)]
  | (other, value) :: rest =>
    if name = other then (other, f (some value)) :: rest
    else if before name other then (name, f none) :: (other, value) :: rest
    else (other, value) :: alter name f rest

def insert (name : String) (value : β) (index : Index β) : Index β :=
  index.alter name fun _ => value

def get? (name : String) (index : Index β) : Option β :=
  index.lookup name

end Index

/-- The mean time of each function of each group, in nanoseconds. -/
abbrev Results := Index (Index Float)

/-- Record the mean of a function in its group. -/
def Results.record (group function : String) (mean : Float) (results : Results) : Results :=
  results.alter group fun functions => (functions.getD []).insert function mean

/-- The mean of a function in a group. -/
def Results.mean? (results : Results) (group function : String) : Option Float :=
  (results.get? group).bind (·.get? function)

end Interlock.Bench

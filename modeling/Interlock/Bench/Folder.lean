import Interlock.Text.Bytes

/-!
# Folders

A tree of folders and files. The names are bytes, and the entries of a folder have an order, which
is the one in which it is listed; nothing is known about that order.
-/

namespace Interlock.Bench

abbrev Name := List UInt8

/-- A file or a folder. -/
inductive Node where
  | file (contents : List UInt8)
  /-- A folder with its entries in the order of listing. -/
  | folder (entries : List (Name × Node))
  deriving Inhabited

namespace Node

def isFolder : Node → Bool
  | folder _ => true
  | file _ => false

/-- The entry with a name, which a file does not have. -/
def child? (name : Name) : Node → Option Node
  | file _ => none
  | folder entries => entries.lookup name

/-- The node at a path below this one. -/
def at? (node : Node) : List Name → Option Node
  | [] => some node
  | name :: path => (node.child? name).bind fun child => child.at? path

/-- Replace the entry with a name, or append it. -/
def withEntry (name : Name) (child : Node) : List (Name × Node) → List (Name × Node)
  | [] => [(name, child)]
  | (other, node) :: rest =>
    if other = name then (name, child) :: rest else (other, node) :: withEntry name child rest

/-- Put a node at a path, and make the folders on the way. `none` if a file is in the way. -/
def put (content : Node) : List Name → Node → Option Node
  | [], _ => some content
  | _ :: _, file _ => none
  | name :: path, folder entries =>
    (put content path ((entries.lookup name).getD (folder []))).map fun child =>
      folder (withEntry name child entries)

end Node

/-- The names on a path with slashes. Empty names and single dots stand for nothing. -/
def namesOfPath (path : List UInt8) : List Name :=
  (path.splitOn '/'.toUInt8).filter fun name => !name.isEmpty && name != ['.'.toUInt8]

end Interlock.Bench

import NativeApi.Path

/-!
# File trees

A file tree is a root directory with directories and files below it, and a current directory from
which relative paths start. Every node stands at a location, the list of names from the node up to
the root, so that one step down puts a name in front and one step up takes it off.

A path is followed name by name, and unlike in `NativeApi.Path` each step looks at the tree: only
a directory has anything below it, `.` and `..` included. So `a/../b` needs `a` to exist, and a
path with a slash at its end needs a directory. The system reads a path up to its first zero byte.
-/

namespace NativeApi

/-- The names from a node up to the root. -/
abbrev Location := List Text

/-- What stands at a location. -/
inductive Node
  | directory
  | file (content : Text)
  deriving DecidableEq, Repr

/-- Why the system refuses an operation. -/
inductive FileError
  | noEntry
  | entryExists
  | notDirectory
  | isDirectory
  | nameTooLong
  | busy
  deriving DecidableEq, Repr

namespace FileError

def text : FileError → Text
  | noEntry => "No such file or directory"
  | entryExists => "File exists"
  | notDirectory => "Not a directory"
  | isDirectory => "Is a directory"
  | nameTooLong => "File name too long"
  | busy => "Device or resource busy"

end FileError

/-- All nodes below the root, each once, and the current directory. -/
structure FileTree where
  current : Location
  nodes : List (Location × Node)
  deriving DecidableEq, Repr

namespace FileTree

/-! ## Nodes -/

/-- The node at a location. The root is a directory. -/
def find? (t : FileTree) (l : Location) : Option Node :=
  if l = [] then some .directory else t.nodes.lookup l

/-- Removes the node at a location. -/
def erase (t : FileTree) (l : Location) : FileTree :=
  { t with nodes := t.nodes.filter (·.1 != l) }

/-- Puts a node at a location, in the place of the node there, if there is one. -/
def insert (t : FileTree) (l : Location) (n : Node) : FileTree :=
  { t with nodes := (t.erase l).nodes ++ [(l, n)] }

theorem lookup_filter_of_ne {k l : Location} (h : k ≠ l) (nodes : List (Location × Node)) :
    (nodes.filter (·.1 != l)).lookup k = nodes.lookup k := by
  induction nodes with
  | nil => rfl
  | cons n nodes ih =>
    obtain ⟨place, node⟩ := n
    rw [List.filter_cons, List.lookup_cons]
    by_cases hp : place = l
    · subst hp
      rw [if_neg (by simp), ih]
      simp [beq_eq_false_iff_ne.mpr h]
    · rw [if_pos (by simpa using hp), List.lookup_cons, ih]

theorem find?_erase_self (t : FileTree) {l : Location} (h : l ≠ []) :
    (t.erase l).find? l = none := by
  rw [find?, if_neg h, erase, List.lookup_eq_none_iff]
  intro n hn
  rw [List.mem_filter] at hn
  exact bne_iff_ne.mpr (Ne.symm (bne_iff_ne.mp hn.2))

theorem find?_erase_of_ne (t : FileTree) {k l : Location} (h : k ≠ l) :
    (t.erase l).find? k = t.find? k := by
  rw [find?, find?, erase, lookup_filter_of_ne h]

theorem find?_insert_self (t : FileTree) {l : Location} (h : l ≠ []) (n : Node) :
    (t.insert l n).find? l = some n := by
  have he := find?_erase_self t h
  rw [find?, if_neg h] at he
  rw [find?, if_neg h, insert, List.lookup_append, he]
  simp

theorem find?_insert_of_ne (t : FileTree) {k l : Location} (h : k ≠ l) (n : Node) :
    (t.insert l n).find? k = t.find? k := by
  rw [← find?_erase_of_ne t h, find?, find?, insert, List.lookup_append]
  simp [List.lookup_cons, beq_eq_false_iff_ne.mpr h]

/-! ## Following paths -/

/-- The longest name that a directory can hold. -/
def nameLimit : Nat := 255

/-- The longest path that the system follows. -/
def pathLimit : Nat := 4095

/-- One step down from a directory. There need not be a node at the location it leads to. -/
def step (t : FileTree) (l : Location) (name : Text) : Except FileError Location :=
  match t.find? l with
  | none => .error .noEntry
  | some (.file _) => .error .notDirectory
  | some .directory =>
    if name = Path.here then .ok l
    else if name = Path.above then .ok l.tail
    else if nameLimit < name.length then .error .nameTooLong
    else .ok (name :: l)

/-- Follows names from a location on. -/
def walk (t : FileTree) (l : Location) (names : List Text) : Except FileError Location :=
  names.foldlM t.step l

/-- The part of a path that the system reads, if it can read it. -/
def systemPath (p : Text) : Except FileError Text :=
  let path := Text.untilZero p
  if path = [] then .error .noEntry
  else if pathLimit < path.length then .error .nameTooLong
  else .ok path

/-- Where the names of a path start from. -/
def start (t : FileTree) (p : Text) : Location := if Path.isAbsolute p then [] else t.current

/-- The names in a path, without the empty ones between neighbouring slashes. -/
def names (p : Text) : List Text := (Text.splitOn Path.slash p).filter (· != [])

/-- A path with a slash at its end goes one step further, to the same place. -/
def finalStep (p : Text) : List Text := if p.getLast? = some Path.slash then [Path.here] else []

/-- The node that a path leads to. -/
def status (t : FileTree) (p : Text) : Except FileError Node := do
  let path ← systemPath p
  let l ← t.walk (t.start path) (names path ++ finalStep path)
  match t.find? l with
  | some n => .ok n
  | none => .error .noEntry

/-- The content of the file that a path leads to. A directory can be opened too, and nothing can be
read from it. -/
def read (t : FileTree) (p : Text) : Option Text :=
  match t.status p with
  | .ok (.file content) => some content
  | .ok .directory => some []
  | .error _ => none

end FileTree

end NativeApi

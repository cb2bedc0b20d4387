import NativeApi.Text.Basic

/-!
# Paths

A path is a text of components between slashes; it is absolute if it starts with a slash. All
operations here are lexical: they look at the text alone and never at a file system.

## Normal form

`Path.components` walks a path from left to right with a stack of names. An empty component and
`.` leave the stack as it is, `..` takes the last name off, and any other component is put on.
Where there is no name to take off, `..` is kept on a relative path and dropped at the root.
`Path.normal` writes the stack down again. Whether the path denotes a directory survives: a path
that ended in a slash, in `.` or in a `..` that took a name off ends in a slash. A path that ends
in a kept `..` denotes a directory anyway and has none.

Slashes in excess vanish, with one exception: a path of nothing but slashes is a way to write the
root, and the root stays written that way, also under a target that is resolved below it.
-/

namespace NativeApi

namespace Path

def slash : UInt8 := 0x2F

/-- The component that stays in the same directory. -/
def here : Text := "."

/-- The component that goes to the directory above. -/
def above : Text := ".."

/-- An absolute path starts at the root. -/
def isAbsolute (p : Text) : Bool := p.head? == some slash

/-- The last component, empty if the path ends in a slash. -/
def fileName (p : Text) : Text := (Text.splitOn slash p).getLast?.getD []

/-! ## Parent and join -/

/-- The path names the root, with any number of slashes. -/
def isRoot (p : Text) : Bool := isAbsolute p && p.all (· == slash)

/-- The path without its last component and the slashes before it; at the root, the root. -/
def parent (p : Text) : Text :=
  let directory := Text.dropTrailing (· == slash) (Text.dropTrailing (· != slash) p)
  if isRoot p then p else if directory.isEmpty && isAbsolute p then [slash] else directory

/-- The path `q` as seen from the directory `p`. An absolute `q` is seen alike from everywhere. -/
def join (p q : Text) : Text :=
  if isAbsolute q then q
  else if p.isEmpty || p.getLast? == some slash then p ++ q
  else p ++ [slash] ++ q

/-! ## Normal form -/

/-- One step of the walk. The stack holds the names walked so far, the last one first. -/
def step (absolute : Bool) (stack : List Text) (component : Text) : List Text :=
  if component = [] ∨ component = here then stack
  else if component = above then
    match stack with
    | [] => if absolute then [] else [above]
    | top :: below => if top = above then above :: top :: below else below
  else component :: stack

/-- The names that a path walks through, from the first to the last. -/
def components (p : Text) : List Text :=
  ((Text.splitOn slash p).foldl (step (isAbsolute p)) []).reverse

/-- A path whose last component names no file denotes a directory. -/
def endsInDirectory (p : Text) : Bool :=
  fileName p = [] || fileName p = here || fileName p = above

/-- How the root of a path is written; nothing for a relative path. -/
def root (p : Text) : Text := if isRoot p then p else if isAbsolute p then [slash] else []

/-- Writes names below a root as a path. Without names and root it is the current directory. -/
def ofComponents (root : Text) (directory : Bool) (names : List Text) : Text :=
  if names.isEmpty then if root.isEmpty then here else root
  else root ++ Text.joinWith slash names
    ++ Text.showIf (directory && names.getLast? != some above) [slash]

/-- The normal form of a path, with its root written in the given way. -/
def normalBelow (root p : Text) : Text :=
  if p.isEmpty then [] else ofComponents root (endsInDirectory p) (components p)

/-- The normal form of a path. The empty path stays empty. -/
def normal (p : Text) : Text := normalBelow (root p) p

/-! ## Included files -/

/-- The file that `target` names inside the file `including`: a relative target is taken from the
directory of the including file. -/
def resolve (including target : Text) : Text :=
  if isAbsolute target || (parent including).isEmpty then normal target
  else normalBelow (root (parent including)) (join (parent including) target)

end Path

end NativeApi

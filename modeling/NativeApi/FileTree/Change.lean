import NativeApi.FileTree.Basic

/-!
# Changes to file trees

Creating, replacing, moving and removing nodes. Each of these operations follows its path up to
the last name and then works in the directory reached, so the directory must exist, while the
node itself may or may not.
-/

namespace NativeApi

namespace FileTree

/-- The last step of a path. -/
inductive Target
  /-- A node of a directory that exists. -/
  | entry (location : Location)
  /-- The root, or a path whose last name is `.` or `..`: a directory that is in use. -/
  | inUse
  deriving DecidableEq, Repr

/-- Follows a path up to its last name. -/
def target (t : FileTree) (p : Text) : Except FileError Target := do
  let path ← systemPath p
  match (names path).getLast? with
  | none => .ok .inUse
  | some last =>
    let directory ← t.walk (t.start path) (names path).dropLast
    let l ← t.step directory last
    if last = Path.here ∨ last = Path.above then .ok .inUse else .ok (.entry l)

/-! ## Directories -/

/-- Makes one directory. It is no error if it is there already. -/
def makeDirectory (t : FileTree) (p : Text) : Except FileError FileTree := do
  match ← t.target p with
  | .inUse => .ok t
  | .entry l =>
    match t.find? l with
    | none => .ok (t.insert l .directory)
    | some .directory => .ok t
    | some (.file _) => .error .entryExists

/-- A path, the directory above it, the directory above that, and so on, up to the root or to the
last one below the current directory. Each is shorter than the one before, so as many steps as the
path has bytes are enough. -/
def ancestors : (steps : Nat) → Text → List Text
  | 0, _ => []
  | steps + 1, p =>
    if p = [] then []
    else if Path.isRoot p then [p]
    else p :: ancestors steps (Path.parent p)

/-- At most this many directories are made for one path. -/
def missingLimit : Nat := 1000

/-- The paths, from the innermost on, that lead to nothing, up to the first one that leads to a
directory. A path that ends in `.` or `..` is left out, because making the others makes it exist. -/
def missing (t : FileTree) : (room : Nat) → List Text → Except FileError (List Text)
  | _, [] => .ok []
  | room, p :: above =>
    match t.status p with
    | .ok .directory => .ok []
    | .ok (.file _) => .error .notDirectory
    | .error e =>
      if e ≠ .noEntry ∧ e ≠ .notDirectory then .error e
      else if Path.fileName p = Path.here ∨ Path.fileName p = Path.above then t.missing room above
      else
        match room with
        | 0 => .error .nameTooLong
        | room + 1 => (t.missing room above).map (p :: ·)

/-- Makes directories one after the other. Those made before a failure stay. -/
def makeAll (t : FileTree) : List Text → FileTree × Option FileError
  | [] => (t, none)
  | p :: rest =>
    match t.makeDirectory p with
    | .ok u => u.makeAll rest
    | .error e => (t, some e)

/-- Makes a directory and all directories above it that are missing. -/
def makeDirectories (t : FileTree) (p : Text) : FileTree × Option FileError :=
  match t.missing missingLimit (ancestors p.length p) with
  | .ok paths => t.makeAll paths.reverse
  | .error e => (t, some e)

/-! ## Files -/

/-- Writes a file, in the place of the file there, if there is one. -/
def writeFile (t : FileTree) (p content : Text) : Except FileError FileTree := do
  match ← t.target p with
  | .inUse => .error .isDirectory
  | .entry l =>
    if t.find? l = some .directory ∨ finalStep (Text.untilZero p) ≠ [] then .error .isDirectory
    else .ok (t.insert l (.file content))

/-- Removes a file, if there is one. -/
def removeFile (t : FileTree) (p : Text) : FileTree :=
  match t.target p with
  | .ok (.entry l) => if t.find? l = some .directory then t else t.erase l
  | _ => t

/-- Moves the file at `p` to `q`, in the place of the file there, if there is one. A file cannot
take the place of a directory, and a path with a slash at its end asks for a directory. -/
def moveFile (t : FileTree) (p q : Text) : Except FileError FileTree := do
  let origin ← t.target p
  let destination ← t.target q
  match origin, destination with
  | .entry l, .entry k =>
    match t.find? l with
    | some (.file content) =>
      if finalStep (Text.untilZero p) ≠ [] ∨ finalStep (Text.untilZero q) ≠ [] then
        .error .notDirectory
      else if t.find? k = some .directory then .error .isDirectory
      else .ok ((t.erase l).insert k (.file content))
    | some .directory => .error .isDirectory
    | none => .error .noEntry
  | _, _ => .error .busy

end FileTree

end NativeApi

import NativeApi.FileTree.Change

/-!
# Output files

Output is written to a file beside its destination, which then takes the place of the destination
in one move. A failure at any point therefore leaves an older output as it was, and no output that
is cut short. The directories above the destination are made first.
-/

namespace NativeApi

/-- Why output could not be written, with the reason that the system gives. -/
inductive OutputFault
  | directories (path reason : Text)
  | opening (temporary : Text)
  | moving (temporary path reason : Text)
  deriving DecidableEq, Repr

namespace OutputFault

open Text (quoted)

def message : OutputFault → Text
  | directories path reason =>
    "failed to create directories for " ++ quoted path ++ ": " ++ reason
  | opening temporary => "unable to open " ++ quoted temporary ++ " for writing."
  | moving temporary path reason =>
    "failed to move " ++ quoted temporary ++ " to " ++ quoted path ++ ": " ++ reason

end OutputFault

namespace OutputFile

/-- The file beside the destination. -/
def temporary (path : Text) : Text := path ++ ".partial"

/-- Makes the directories above a path. A path without a directory needs none. -/
def makeParents (t : FileTree) (path : Text) : FileTree × Option FileError :=
  if Path.parent path = [] then (t, none) else t.makeDirectories (Path.parent path)

/-- Writes the file beside the destination and moves it. -/
def writeAndMove (t : FileTree) (path content : Text) : FileTree × Option OutputFault :=
  match t.writeFile (temporary path) content with
  | .error _ => (t, some (.opening (temporary path)))
  | .ok u =>
    match u.moveFile (temporary path) path with
    | .error e => (u.removeFile (temporary path), some (.moving (temporary path) path e.text))
    | .ok v => (v, none)

/-- Writes output to a path. -/
def write (t : FileTree) (path content : Text) : FileTree × Option OutputFault :=
  match makeParents t path with
  | (u, some e) => (u, some (.directories path e.text))
  | (u, none) => writeAndMove u path content

end OutputFile

end NativeApi

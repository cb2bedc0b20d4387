import NativeApi.Collection.Declare
import NativeApi.Path

/-!
# Sources

Collecting a source carries a session through its lines. The first line that is refused ends the
collection, with one more diagnostic and everything else as it was before that line. An include
line stands for the lines of the file that it names: they act on the same state, with nothing saved
before them and nothing restored behind them.

What is saved and restored is the name of the current file. Targets of includes are resolved
against it, and diagnostics carry it, so it has to be the including file again behind an include.

Reading files is a parameter, a function from paths to contents, so collection is a function. It
ends because the number of includes that may still be opened gets smaller with each include; files
that include each other use it up and fail.
-/

namespace NativeApi

/-- A file that has been read: its path and its lines. -/
structure Source where
  path : Text
  lines : List Text
  deriving DecidableEq, Repr

namespace Source

def ofContent (path content : Text) : Source := ⟨path, Text.lines content⟩

end Source

/-! ## Sessions -/

/-- A state, all diagnostics so far, and the file whose lines are being collected. A session can go
on after a collection that ended early. -/
structure Session where
  state : State
  diagnostics : List Diagnostic
  file : Text
  deriving DecidableEq, Repr

/-- How a collection, or a part of one, ends: the session it leaves and whether it succeeded. -/
structure Outcome where
  session : Session
  success : Bool
  deriving DecidableEq, Repr

namespace Session

def initial : Session := ⟨State.initial, [], []⟩

/-- The session with a new state. -/
def accept (c : Session) (s : State) : Outcome := ⟨{ c with state := s }, true⟩

/-- The session with one more diagnostic, for a fault at a line of a file. -/
def refuse (c : Session) (fault : Fault) (file : Text) (line : Nat) : Outcome :=
  ⟨{ c with diagnostics := c.diagnostics ++ [⟨fault, file, line⟩] }, false⟩

/-- The session inside a file. -/
def enter (c : Session) (file : Text) : Session := { c with file := file }

end Session

namespace Outcome

/-- Goes on with the session that is left, unless the collection has ended early. -/
def andThen (o : Outcome) (next : Session → Outcome) : Outcome :=
  if o.success then next o.session else o

/-- The outcome as seen from inside a file. -/
def enter (o : Outcome) (file : Text) : Outcome := { o with session := o.session.enter file }

end Outcome

/-! ## Lines -/

/-- What an include line does, given its number, the path in it and the session. -/
abbrev Opening := Nat → Text → Session → Outcome

/-- The effect of an include line, which needs a header as declarations do. -/
def collectInclusion (opening : Opening) (number : Nat) (path : Text) (c : Session) : Outcome :=
  match c.state.requireHeader .inclusion with
  | .ok _ => opening number path c
  | .error fault => c.refuse fault c.file number

/-- The effect of one line. -/
def collectLine (opening : Opening) (number : Nat) (raw : Text) (c : Session) : Outcome :=
  match Line.ofText raw with
  | .blank => ⟨c, true⟩
  | .unknown word => c.refuse (.unknownCommand word) c.file number
  | .command k =>
    match Statement.ofCommand? k with
    | none => c.refuse (.fieldCount k.keyword) c.file number
    | some (.declare d) =>
      match c.state.declare d with
      | .ok s => c.accept s
      | .error fault => c.refuse fault c.file number
    | some (.inclusion path) => collectInclusion opening number path c

/-- The effect of the lines of a file from a line number on. -/
def collectLines (opening : Opening) : Nat → List Text → Session → Outcome
  | _, [], c => ⟨c, true⟩
  | number, raw :: rest, c =>
    (collectLine opening number raw c).andThen (collectLines opening (number + 1) rest)

/-! ## Files -/

/-- The effect of a source. The file that was current before is current again afterwards. -/
def collectInside (opening : Opening) (source : Source) (c : Session) : Outcome :=
  (collectLines opening 1 source.lines (c.enter source.path)).enter c.file

/-- Collects a source below which `levels` includes may be opened. -/
def collectWithin (read : Text → Option Text) : (levels : Nat) → Source → Session → Outcome
  | 0, source, c =>
    collectInside (fun number path d ↦ d.refuse (.includeDepth path) d.file number) source c
  | levels + 1, source, c =>
    collectInside (fun number path d ↦
      let target := Path.resolve d.file path
      match read target with
      | none => d.refuse (.unreadableInclude target) d.file number
      | some content => collectWithin read levels (Source.ofContent target content) d) source c

/-- Collects a source. -/
def collectSource (read : Text → Option Text) (source : Source) (c : Session) : Outcome :=
  collectWithin read includeLimit source c

/-- Collects the file at a path. -/
def collectPath (read : Text → Option Text) (path : Text) (c : Session) : Outcome :=
  match read path with
  | none => c.refuse (.unreadableSource path) path 0
  | some content => collectSource read (Source.ofContent path content) c

end NativeApi

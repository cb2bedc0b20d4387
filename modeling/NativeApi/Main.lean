import NativeApi.Compilation

/-!
# The program

Runs a compilation on the file system of the machine. Files are read when the collection asks for
them: it is run on the files known so far, and if it stops at a path that has not been looked up,
that file is read and the collection is run again.
-/

namespace NativeApi

namespace Main

/-- The content of a file. A directory can be opened, and nothing can be read from it. -/
def readFile? (path : Text) : IO (Option Text) := do
  match String.fromUTF8? ⟨path.toArray⟩ with
  | none => return none
  | some name =>
    match ← (IO.FS.Handle.mk name .read).toBaseIO with
    | .error _ => return none
    | .ok handle =>
      match ← handle.readBinToEnd.toBaseIO with
      | .error _ => return some []
      | .ok bytes => return some bytes.toList

/-- The path at which a collection stopped because it could not be read. -/
def unreadablePath? (o : Outcome) : Option Text :=
  match o.session.diagnostics.getLast?.map Diagnostic.fault with
  | some (.unreadableSource path) => some path
  | some (.unreadableInclude path) => some path
  | _ => none

/-- Collects a file, reading what it includes. -/
partial def collect (path : Text) (known : List (Text × Option Text)) : IO Outcome := do
  let outcome := collectPath (fun p ↦ (known.lookup p).join) path Session.initial
  match unreadablePath? outcome with
  | none => return outcome
  | some p =>
    if (known.lookup p).isSome then return outcome
    else collect path ((p, ← readFile? p) :: known)

/-- The reason that the system gives for an error. -/
def reason (e : IO.Error) : Text :=
  let details := match e with
    | .noFileOrDirectory _ _ details => details
    | .inappropriateType _ _ details => details
    | .alreadyExists _ _ details => details
    | .permissionDenied _ _ details => details
    | .resourceBusy _ details => details
    | e => toString e
  details.toUTF8.toList

/-- The reason why directories cannot be made. What stands in their way is not a directory. -/
def directoryReason : IO.Error → Text
  | .alreadyExists .. => FileError.notDirectory.text
  | e => reason e

/-- A path as the system library takes it. -/
def toName (path : Text) : String := (String.fromUTF8? ⟨path.toArray⟩).getD ""

/-- Writes output to a path; the result is the fault that kept it from being written. -/
def writeOutput (path content : Text) : IO (Option OutputFault) := do
  let temporary := OutputFile.temporary path
  let parent := Path.parent path
  let made ← (if parent = [] then pure () else IO.FS.createDirAll (toName parent)).toBaseIO
  if let .error e := made then
    return some (.directories path (directoryReason e))
  let written ← (IO.FS.writeBinFile (toName temporary) ⟨content.toArray⟩).toBaseIO
  if let .error _ := written then
    return some (.opening temporary)
  let moved ← (IO.FS.rename (toName temporary) (toName path)).toBaseIO
  if let .error e := moved then
    let _ ← (IO.FS.removeFile (toName temporary)).toBaseIO
    return some (.moving temporary path (reason e))
  return none

/-- A whole run on the file system of the machine. -/
def runOnSystem (arguments : List Text) : IO Report := do
  match Options.ofArguments arguments with
  | .error fault => return usageReport fault
  | .ok o =>
    match Job.ofOutcome o (← collect o.input []) with
    | .error report => return report
    | .ok job => return job.finish (← writeOutput job.path job.content)

end Main

end NativeApi

open NativeApi in
def main (arguments : List String) : IO UInt32 := do
  let report ← Main.runOnSystem (arguments.map (·.toUTF8.toList))
  (← IO.getStdout).write ⟨report.output.toArray⟩
  (← IO.getStderr).write ⟨report.errors.toArray⟩
  return UInt32.ofNat report.exitStatus

import NativeApi.Assembly.Module
import NativeApi.Collection.Source
import NativeApi.CommandLine
import NativeApi.FileTree.OutputFile

/-!
# Compilation

The whole program: it reads the command line, collects the definition file, renders the model and
writes the assembly text. Each stage can end the run; then the exit status is 1, the reason is on
standard error, and nothing has been written unless writing itself failed.

The run is cut in two where the output is written. `Job.ofOutcome` says what is to be written and
where, and `Job.finish` reports how that went, so that the same decisions serve a file tree and the
file system of the machine.
-/

namespace NativeApi

/-- What a run leaves behind besides files. -/
structure Report where
  exitStatus : Nat
  output : Text
  errors : Text
  deriving DecidableEq, Repr

/-! ## Messages -/

/-- The first lines of output, once the command line has been read. -/
def startNotice (o : Options) : Text :=
  "[information] Starting metatext2il.\n" ++ "  input: " ++ o.input ++ "\n"
    ++ "  output: " ++ o.output ++ "\n"

/-- How many declarations of each kind have been collected. -/
def collectionNotice (m : Model) : Text :=
  "[notice] Collected metadata " ++ Text.quoted m.name
    ++ " (functions: " ++ Text.decimal m.functions.length
    ++ ", function pointers: " ++ Text.decimal m.functionPointers.length
    ++ ", interfaces: " ++ Text.decimal m.interfaces.length
    ++ " with " ++ Text.decimal (m.interfaces.flatMap (·.methods)).length ++ " methods"
    ++ ", enumerations: " ++ Text.decimal m.enumerations.length
    ++ ", structs: " ++ Text.decimal m.structs.length
    ++ ", guids: " ++ Text.decimal m.guids.length
    ++ ", dlls: " ++ Text.decimal m.dlls.length ++ ").\n"

def haltNotice : Text := "META-W6001 Translation halted; no output written.\n"

def diagnosticLine (d : Diagnostic) : Text := d.text ++ "\n"

/-! ## Stages -/

/-- Output that is ready to be written. -/
structure Job where
  path : Text
  content : Text
  /-- What standard output shows so far. -/
  notices : Text
  deriving DecidableEq, Repr

namespace Job

/-- What follows from a collection: text to be written, or the report of a run that ends here. -/
def ofOutcome (o : Options) (outcome : Outcome) : Except Report Job :=
  let c := outcome.session
  if outcome.success then
    let notices := startNotice o ++ collectionNotice c.state.model
    let rendering := c.state.model.render
    match rendering.fault with
    | some fault => .error ⟨1, notices, diagnosticLine ⟨fault, [], 0⟩ ++ haltNotice⟩
    | none => .ok ⟨o.output, rendering.text, notices⟩
  else .error ⟨1, startNotice o, c.diagnostics.flatMap diagnosticLine ++ haltNotice⟩

/-- The report of a run whose output has been written, or could not be. -/
def finish (job : Job) : Option OutputFault → Report
  | none => ⟨0, job.notices ++ "[notice] IL written to " ++ job.path ++ "\n", []⟩
  | some fault =>
    ⟨1, job.notices, "META-E6004 OutputWriteFailed: " ++ fault.message ++ "\n" ++ haltNotice⟩

end Job

/-- The report of a run with a command line that is refused. -/
def usageReport (fault : UsageFault) : Report := ⟨1, [], fault.message ++ Options.usage⟩

/-- A whole run on a file tree. -/
def run (t : FileTree) (arguments : List Text) : FileTree × Report :=
  match Options.ofArguments arguments with
  | .error fault => (t, usageReport fault)
  | .ok o =>
    match Job.ofOutcome o (collectPath t.read o.input Session.initial) with
    | .error report => (t, report)
    | .ok job =>
      let (u, fault) := OutputFile.write t job.path job.content
      (u, job.finish fault)

end NativeApi

import NativeApi.Compilation
import NativeApi.Proofs.Placement

/-!
# Runs of the program

A run has one way to its end. The arguments must name two files, the first must compile to a text,
and the text must be written to the second. `Options.GivenBy` and `Compiles` say when the first two
steps are done, without saying how the program does them; together they are what a run needs to be
`Ready` to write.

A run that does not get there writes nothing (`run_of_not_ready`). One that does leaves the file
tree as the writing leaves it (`run_of_ready`), and where the text stands after that is a matter of
file trees only.
-/

namespace NativeApi

/-! ## Arguments -/

/-- The arguments, each up to its first zero byte, are an input and an output, and neither looks
like an option. -/
structure Options.GivenBy (o : Options) (arguments : List Text) : Prop where
  named : arguments.map Text.untilZero = [o.input, o.output]
  plain : ∀ argument ∈ [o.input, o.output], ¬(1 < argument.length ∧ argument.head? = some 0x2D)

theorem Options.looksLikeOption_iff {argument : Text} :
    looksLikeOption argument = true ↔ 1 < argument.length ∧ argument.head? = some 0x2D := by
  rw [looksLikeOption, Bool.and_eq_true, decide_eq_true_iff, beq_iff_eq]

theorem Options.ofArguments_eq_ok_iff {arguments : List Text} {o : Options} :
    ofArguments arguments = .ok o ↔ o.GivenBy arguments := by
  constructor
  · intro h
    rw [ofArguments] at h
    split at h
    · cases h
    · rename_i hplain
      split at h
      · rename_i input output hnamed
        cases h
        refine ⟨hnamed, fun argument hargument hoption ↦ ?_⟩
        rw [hnamed, List.find?_eq_none] at hplain
        exact hplain argument hargument (looksLikeOption_iff.mpr hoption)
      · cases h
      · cases h
  · rintro ⟨hnamed, hplain⟩
    have hnone : (arguments.map Text.untilZero).find? looksLikeOption = none := by
      rw [hnamed, List.find?_eq_none]
      exact fun argument hargument hoption ↦
        hplain argument hargument (looksLikeOption_iff.mp hoption)
    rw [ofArguments, hnone]
    simp only [hnamed]

/-! ## Compilation -/

/-- The definitions at a path are collected and rendered without a fault, and this is the text. -/
structure Compiles (read : Text → Option Text) (input text : Text) : Prop where
  collected : (collectPath read input Session.initial).success = true
  rendered : (collectPath read input Session.initial).session.state.model.render.fault = none
  text_eq : (collectPath read input Session.initial).session.state.model.render.text = text

theorem append_haltNotice_ne_nil (t : Text) : t ++ haltNotice ≠ [] :=
  List.append_ne_nil_of_right_ne_nil t (by decide)

namespace Job

variable {o : Options} {read : Text → Option Text}

/-- What compiles becomes a job that writes the text to the output. -/
theorem ofOutcome_of_compiles {text : Text} (h : Compiles read o.input text) :
    ∃ notices, ofOutcome o (collectPath read o.input Session.initial)
      = .ok ⟨o.output, text, notices⟩ := by
  rw [ofOutcome, if_pos h.collected]
  simp only [h.rendered, h.text_eq]
  exact ⟨_, rfl⟩

/-- What does not compile ends the run with a report of the failure. -/
theorem ofOutcome_of_not_compiles (h : ∀ text, ¬Compiles read o.input text) :
    ∃ report, ofOutcome o (collectPath read o.input Session.initial) = .error report ∧
      report.exitStatus = 1 ∧ report.errors ≠ [] := by
  rw [ofOutcome]
  split
  · rename_i hcollected
    generalize hmodel : (collectPath read o.input Session.initial).session.state.model = m
    cases hrendered : m.render.fault with
    | none =>
      rw [← hmodel] at hrendered
      exact absurd ⟨hcollected, hrendered, rfl⟩ (h _)
    | some fault =>
      simp only [hrendered]
      refine ⟨_, rfl, rfl, ?_⟩
      exact append_haltNotice_ne_nil _
  · refine ⟨_, rfl, rfl, ?_⟩
    exact append_haltNotice_ne_nil _

/-- The report of a finished job says whether the output has been written. -/
theorem finish_spec (job : Job) (fault : Option OutputFault) :
    (fault = none ∧ (job.finish fault).exitStatus = 0 ∧ (job.finish fault).errors = []) ∨
    (fault ≠ none ∧ (job.finish fault).exitStatus = 1 ∧ (job.finish fault).errors ≠ []) := by
  cases fault with
  | none => exact .inl ⟨rfl, rfl, rfl⟩
  | some fault =>
    exact .inr ⟨by simp, rfl, append_haltNotice_ne_nil _⟩

end Job

theorem usageReport_errors_ne_nil (fault : UsageFault) : (usageReport fault).errors ≠ [] :=
  List.append_ne_nil_of_right_ne_nil _ (by decide)

/-! ## Runs -/

/-- Everything is done but the writing of a text to the output. -/
structure Ready (t : FileTree) (arguments : List Text) (o : Options) (text : Text) : Prop where
  given : o.GivenBy arguments
  compiles : Compiles t.read o.input text

section Runs

variable {t : FileTree} {arguments : List Text}

theorem Ready.unique {o o' : Options} {text text' : Text} (h : Ready t arguments o text)
    (h' : Ready t arguments o' text') : o = o' ∧ text = text' := by
  have ho : o = o' := by
    have hgiven := Options.ofArguments_eq_ok_iff.mpr h.given
    rw [Options.ofArguments_eq_ok_iff.mpr h'.given] at hgiven
    exact (Except.ok.inj hgiven).symm
  subst ho
  exact ⟨rfl, h.compiles.text_eq.symm.trans h'.compiles.text_eq⟩

/-- A run that is ready leaves behind what the writing leaves behind. -/
theorem run_of_ready {o : Options} {text : Text} (h : Ready t arguments o text) :
    (run t arguments).1 = (OutputFile.write t o.output text).1 ∧
      (((OutputFile.write t o.output text).2 = none ∧ (run t arguments).2.exitStatus = 0 ∧
          (run t arguments).2.errors = []) ∨
        ((OutputFile.write t o.output text).2 ≠ none ∧ (run t arguments).2.exitStatus = 1 ∧
          (run t arguments).2.errors ≠ [])) := by
  obtain ⟨notices, hjob⟩ := Job.ofOutcome_of_compiles h.compiles
  have hrun : run t arguments = ((OutputFile.write t o.output text).1,
      Job.finish ⟨o.output, text, notices⟩ (OutputFile.write t o.output text).2) := by
    rw [run, Options.ofArguments_eq_ok_iff.mpr h.given]
    simp only [hjob]
  rw [hrun]
  exact ⟨rfl, Job.finish_spec _ _⟩

/-- A run that never gets ready changes no file. -/
theorem run_of_not_ready (h : ∀ o text, ¬Ready t arguments o text) :
    (run t arguments).1 = t ∧ (run t arguments).2.exitStatus = 1 ∧
      (run t arguments).2.errors ≠ [] := by
  rw [run]
  cases hgiven : Options.ofArguments arguments with
  | error fault => exact ⟨rfl, rfl, usageReport_errors_ne_nil fault⟩
  | ok o =>
    have hcompiles : ∀ text, ¬Compiles t.read o.input text := fun text hcompiles ↦
      h o text ⟨Options.ofArguments_eq_ok_iff.mp hgiven, hcompiles⟩
    obtain ⟨report, hreport, hstatus, herrors⟩ := Job.ofOutcome_of_not_compiles hcompiles
    simp only [hreport]
    exact ⟨trivial, hstatus, herrors⟩

end Runs

/-- **A run leaves no wrong output.** It exits with zero exactly if two arguments that are no
options name an input that compiles and an output to which the text can be written, and otherwise
with one. If it exits with zero, the output is a file with exactly the text of the input, and
standard error is empty. If it exits with one, standard error is not empty, and unless the fault is
in the writing, every file is as it was. -/
theorem run_leaves_no_wrong_output (t : FileTree) (arguments : List Text) :
    ((run t arguments).2.exitStatus = 0 ↔
      ∃ o text, Ready t arguments o text ∧ (OutputFile.write t o.output text).2 = none) ∧
    ((run t arguments).2.exitStatus ≠ 0 → (run t arguments).2.exitStatus = 1) ∧
    ((run t arguments).2.exitStatus = 0 → (run t arguments).2.errors = [] ∧
      ∀ o text, Ready t arguments o text →
        (run t arguments).1.status o.output = .ok (.file text)) ∧
    ((run t arguments).2.exitStatus = 1 → (run t arguments).2.errors ≠ [] ∧
      ((∀ o text, ¬Ready t arguments o text) → (run t arguments).1 = t)) := by
  by_cases h : ∃ o text, Ready t arguments o text
  · obtain ⟨o, text, hready⟩ := h
    obtain ⟨htree, ⟨hwrite, hstatus, herrors⟩ | ⟨hwrite, hstatus, herrors⟩⟩ := run_of_ready hready
    · rw [hstatus]
      refine ⟨iff_of_true rfl ⟨o, text, hready, hwrite⟩, by simp, fun _ ↦ ⟨herrors, ?_⟩, by simp⟩
      intro o' text' hready'
      obtain ⟨rfl, rfl⟩ := hready.unique hready'
      rw [htree]
      exact OutputFile.status_write hwrite
    · rw [hstatus]
      refine ⟨iff_of_false (by simp) ?_, by simp, by simp, fun _ ↦ ⟨herrors, fun hnone ↦ ?_⟩⟩
      · rintro ⟨o', text', hready', hwrite'⟩
        obtain ⟨rfl, rfl⟩ := hready.unique hready'
        exact hwrite hwrite'
      · exact absurd hready (hnone o text)
  · have hnone : ∀ o text, ¬Ready t arguments o text := fun o text hready ↦ h ⟨o, text, hready⟩
    obtain ⟨htree, hstatus, herrors⟩ := run_of_not_ready hnone
    rw [hstatus]
    refine ⟨iff_of_false (by simp) ?_, by simp, by simp, fun _ ↦ ⟨herrors, fun _ ↦ htree⟩⟩
    rintro ⟨o, text, hready, -⟩
    exact hnone o text hready

/-- A file with definitions that includes another one, and an older output. -/
def treeWithOutput : FileTree where
  current := ["work"]
  nodes := [(["work"], .directory), (["out", "work"], .directory),
    (["Api.txt", "work"], .file "meta\tApi\t1.0.0.0\ninclude\tdlls.txt\nstruct\tItem\n"),
    (["dlls.txt", "work"], .file "dll\ta.dll\n"), (["Api.il", "out", "work"], .file "older")]

theorem run_leaves_no_wrong_output_in_place_of_older :
    (run treeWithOutput ["Api.txt", "out/Api.il"]).2.exitStatus = 0 ∧
      (∃ o text, Ready treeWithOutput ["Api.txt", "out/Api.il"] o text ∧
        (run treeWithOutput ["Api.txt", "out/Api.il"]).1.status o.output = .ok (.file text)) ∧
      (run treeWithOutput ["dlls.txt", "out/Api.il"]).2.exitStatus = 1 ∧
      (run treeWithOutput ["dlls.txt", "out/Api.il"]).1 = treeWithOutput := by
  have hzero : (run treeWithOutput ["Api.txt", "out/Api.il"]).2.exitStatus = 0 := by
    decide
  have hone : (run treeWithOutput ["dlls.txt", "out/Api.il"]).2.exitStatus = 1 := by
    decide
  have hnone : ∀ o text, ¬Ready treeWithOutput ["dlls.txt", "out/Api.il"] o text := by
    intro o text h
    have hcollected := h.compiles.collected
    rw [← (List.cons.inj h.given.named).1] at hcollected
    exact absurd hcollected (by decide)
  obtain ⟨hiff, -, hplace, -⟩ :=
    run_leaves_no_wrong_output treeWithOutput ["Api.txt", "out/Api.il"]
  obtain ⟨o, text, hready, -⟩ := hiff.mp hzero
  obtain ⟨-, -, -, hkept⟩ := run_leaves_no_wrong_output treeWithOutput ["dlls.txt", "out/Api.il"]
  exact ⟨hzero, ⟨o, text, hready, (hplace hzero).2 o text hready⟩, hone, (hkept hone).2 hnone⟩

end NativeApi

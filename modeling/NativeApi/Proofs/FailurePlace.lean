import NativeApi.Proofs.Refusal

/-!
# Places of failures

A collection that fails leaves one diagnostic, and its place is that of the first line refused: the
file in which the line physically stands and its position there, counted from one over all lines of
the file. `FailsAt` says which line that is. It goes through the lines of a source, behind lines
that are all accepted, and from an include line into the file that the line opens.

Diagnostics are placed differently: the collection keeps a current file, which an include sets and
puts back, and counts lines as it goes. The two agree because lines that are accepted leave the
current file as it was, and the count is one more than the number of lines before.
-/

namespace NativeApi

/-! ## First refused lines -/

/-- Collecting a source, below which `levels` includes may be opened, fails at a line of a file. -/
inductive FailsAt (read : Text → Option Text) : Nat → Source → Session → Text → Nat → Prop
  /-- The lines before are accepted, and the line itself opens no file and is refused. -/
  | line {levels : Nat} {source : Source} {c d : Session} {before after : List Text} {raw : Text}
      (hlines : source.lines = before ++ raw :: after)
      (hbefore :
        collectLines (openingWithin read levels) 1 before (c.enter source.path) = ⟨d, true⟩)
      (hopened : opened? read levels raw d = none)
      (hrefused :
        (collectLine (openingWithin read levels) (before.length + 1) raw d).success = false) :
      FailsAt read levels source c source.path (before.length + 1)
  /-- The lines before are accepted, and the line opens a file that fails at a line. -/
  | included {levels : Nat} {source inner : Source} {c d : Session} {before after : List Text}
      {raw file : Text} {number : Nat} (hlines : source.lines = before ++ raw :: after)
      (hbefore :
        collectLines (openingWithin read (levels + 1)) 1 before (c.enter source.path) = ⟨d, true⟩)
      (hopened : opened? read (levels + 1) raw d = some inner)
      (h : FailsAt read levels inner d file number) :
      FailsAt read (levels + 1) source c file number

namespace Call

/-- The place at which a call fails. A file that cannot be read fails at its own path and line 0. -/
def FailsAt (call : Call) (c : Session) (file : Text) (number : Nat) : Prop :=
  match call with
  | source read s => NativeApi.FailsAt read includeLimit s c file number
  | path read p =>
    match read p with
    | none => file = p ∧ number = 0
    | some content =>
      NativeApi.FailsAt read includeLimit (Source.ofContent p content) c file number

end Call

/-! ## Accepted lines -/

section Lines

variable {read : Text → Option Text} {levels : Nat} {c d : Session}

/-- An item that is accepted changes the state at most. -/
theorem Item.apply_of_success {i : Item} (h : (i.apply c).success = true) :
    ∃ s, i.apply c = c.accept s := by
  rw [Item.apply] at h ⊢
  cases happly : i.element.apply c.state with
  | ok s => exact ⟨s, rfl⟩
  | error fault => rw [happly] at h; cases h

theorem replay_of_success {items : List Item} (h : (replay items c).success = true) :
    ∃ s, replay items c = c.accept s := by
  induction items generalizing c with
  | nil => exact ⟨c.state, rfl⟩
  | cons i items ih =>
    rw [replay_cons] at h ⊢
    obtain ⟨hi, hitems⟩ := success_andThen.mp h
    obtain ⟨s, hs⟩ := Item.apply_of_success hi
    rw [hs] at hitems ⊢
    obtain ⟨t, ht⟩ := ih hitems
    exact ⟨t, ht⟩

/-- A source that is accepted changes the state at most. -/
theorem collectWithin_of_success {source : Source}
    (h : (collectWithin read levels source c).success = true) :
    ∃ s, collectWithin read levels source c = c.accept s := by
  rw [collectWithin_eq_replay] at h ⊢
  exact replay_of_success h

/-- A line that is accepted changes the state at most, also if it opens a file. -/
theorem collectLine_of_success {number : Nat} {raw : Text}
    (h : (collectLine (openingWithin read levels) number raw c).success = true) :
    ∃ s, collectLine (openingWithin read levels) number raw c = c.accept s := by
  match hopened : opened? read levels raw c with
  | none =>
    rcases collectLine_cases hopened with ⟨s, hs⟩ | ⟨fault, hfault⟩
    · exact ⟨s, hs⟩
    · rw [hfault] at h
      cases h
  | some inner =>
    match levels with
    | 0 => cases hopened
    | levels + 1 =>
      rw [collectLine_of_opened? hopened] at h ⊢
      exact collectWithin_of_success h

theorem collectLines_of_success {number : Nat} {lines : List Text}
    (h : (collectLines (openingWithin read levels) number lines c).success = true) :
    ∃ s, collectLines (openingWithin read levels) number lines c = c.accept s := by
  induction lines generalizing number c with
  | nil => exact ⟨c.state, rfl⟩
  | cons raw lines ih =>
    rw [collectLines] at h ⊢
    obtain ⟨hline, hlines⟩ := success_andThen.mp h
    obtain ⟨s, hs⟩ := collectLine_of_success hline
    rw [hs] at hlines ⊢
    obtain ⟨t, ht⟩ := ih hlines
    exact ⟨t, ht⟩

/-! ## Stopping -/

theorem collectLines_append (opening : Opening) (number : Nat) (before rest : List Text)
    (c : Session) :
    collectLines opening number (before ++ rest) c
      = (collectLines opening number before c).andThen
          (collectLines opening (number + before.length) rest) := by
  induction before generalizing number c with
  | nil => rfl
  | cons raw before ih =>
    have hrest : collectLines opening (number + 1) (before ++ rest)
        = fun d ↦ (collectLines opening (number + 1) before d).andThen
            (collectLines opening (number + 1 + before.length) rest) := funext (ih (number + 1))
    rw [List.cons_append, collectLines, collectLines, hrest, Outcome.andThen_assoc,
      List.length_cons, Nat.add_right_comm, Nat.add_assoc number]

/-- Behind accepted lines, a line that is not accepted is where the collection stops. -/
theorem collectLines_of_refused {opening : Opening} {number : Nat} {before after : List Text}
    {raw : Text} (hbefore : collectLines opening number before c = ⟨d, true⟩)
    (hraw : (collectLine opening (number + before.length) raw d).success = false) :
    collectLines opening number (before ++ raw :: after) c
      = collectLine opening (number + before.length) raw d := by
  rw [collectLines_append, hbefore, Outcome.andThen, if_pos rfl, collectLines, Outcome.andThen,
    if_neg (Bool.eq_false_iff.mp hraw)]

/-- Lines that are not all accepted stop at one of them. -/
theorem exists_refused_line {opening : Opening} {number : Nat} {lines : List Text}
    (h : (collectLines opening number lines c).success = false) :
    ∃ before raw after d, lines = before ++ raw :: after ∧
      collectLines opening number before c = ⟨d, true⟩ ∧
      (collectLine opening (number + before.length) raw d).success = false := by
  induction lines generalizing number c with
  | nil => cases h
  | cons raw lines ih =>
    rw [collectLines] at h
    by_cases hraw : (collectLine opening number raw c).success = true
    · rw [Outcome.andThen, if_pos hraw] at h
      obtain ⟨before, other, after, d, rfl, hbefore, hother⟩ := ih h
      refine ⟨raw :: before, other, after, d, rfl, ?_, ?_⟩
      · rw [collectLines, Outcome.andThen, if_pos hraw, hbefore]
      · have hnumber : number + (raw :: before).length = number + 1 + before.length := by
          rw [List.length_cons]
          omega
        rw [hnumber]
        exact hother
    · exact ⟨[], raw, lines, c, rfl, rfl, Bool.eq_false_iff.mpr hraw⟩

/-- A source that stops at a line leaves the session that the line leaves, back in the file that was
current before. -/
theorem collectWithin_of_refused {source : Source} {before after : List Text} {raw : Text}
    (hlines : source.lines = before ++ raw :: after)
    (hbefore :
      collectLines (openingWithin read levels) 1 before (c.enter source.path) = ⟨d, true⟩)
    (hraw :
      (collectLine (openingWithin read levels) (before.length + 1) raw d).success = false) :
    collectWithin read levels source c
      = (collectLine (openingWithin read levels) (before.length + 1) raw d).enter c.file := by
  rw [Nat.add_comm _ 1] at hraw ⊢
  rw [collectWithin_eq, collectInside, hlines, collectLines_of_refused hbefore hraw]

/-- Behind accepted lines of a source, its file is current, and there are no new diagnostics. -/
theorem session_of_accepted {path : Text} {before : List Text}
    (h : collectLines (openingWithin read levels) 1 before (c.enter path) = ⟨d, true⟩) :
    d.file = path ∧ d.diagnostics = c.diagnostics := by
  have hsuccess :
      (collectLines (openingWithin read levels) 1 before (c.enter path)).success = true := by
    rw [h]
  obtain ⟨s, hs⟩ := collectLines_of_success hsuccess
  rw [h, Session.accept, Outcome.mk.injEq] at hs
  rw [hs.1]
  exact ⟨rfl, rfl⟩

end Lines

/-! ## Diagnostics -/

section Sources

variable {read : Text → Option Text} {levels : Nat} {source : Source} {c : Session}

/-- Where a source fails at a line, it fails, with one diagnostic for that line. -/
theorem FailsAt.diagnostics {file : Text} {number : Nat}
    (h : FailsAt read levels source c file number) :
    (collectWithin read levels source c).success = false ∧
      ∃ fault, (collectWithin read levels source c).session.diagnostics
        = c.diagnostics ++ [⟨fault, file, number⟩] := by
  induction h with
  | line hlines hbefore hopened hrefused =>
    rw [collectWithin_of_refused hlines hbefore hrefused]
    obtain ⟨hfile, hdiagnostics⟩ := session_of_accepted hbefore
    rcases collectLine_cases hopened with ⟨s, hs⟩ | ⟨fault, hfault⟩
    · rw [hs] at hrefused
      cases hrefused
    · rw [hfault, hfile, ← hdiagnostics]
      exact ⟨rfl, fault, rfl⟩
  | included hlines hbefore hopened h ih =>
    obtain ⟨hfails, fault, hfault⟩ := ih
    rw [← collectLine_of_opened? hopened] at hfails hfault
    rw [collectWithin_of_refused hlines hbefore hfails]
    -- The diagnostics from before pass through the lines before the include line unchanged.
    rw [(session_of_accepted hbefore).2] at hfault
    exact ⟨hfails, fault, hfault⟩

/-- A source that fails does so at a line. -/
theorem exists_failsAt (h : (collectWithin read levels source c).success = false) :
    ∃ file number, FailsAt read levels source c file number := by
  induction levels generalizing source c with
  | zero =>
    rw [collectWithin_eq] at h
    obtain ⟨before, raw, after, d, hlines, hbefore, hraw⟩ := exists_refused_line h
    rw [Nat.add_comm 1] at hraw
    exact ⟨source.path, before.length + 1, .line hlines hbefore rfl hraw⟩
  | succ levels ih =>
    rw [collectWithin_eq] at h
    obtain ⟨before, raw, after, d, hlines, hbefore, hraw⟩ := exists_refused_line h
    rw [Nat.add_comm 1] at hraw
    cases hopened : opened? read (levels + 1) raw d with
    | none => exact ⟨source.path, before.length + 1, .line hlines hbefore hopened hraw⟩
    | some inner =>
      rw [collectLine_of_opened? hopened] at hraw
      obtain ⟨file, number, hinner⟩ := ih hraw
      exact ⟨file, number, .included hlines hbefore hopened hinner⟩

end Sources

namespace Call

variable {call : Call} {c : Session}

/-- Where a call fails at a place, it fails, with one diagnostic for that place. -/
theorem FailsAt.diagnostics {file : Text} {number : Nat} (h : call.FailsAt c file number) :
    (call.perform c).success = false ∧
      ∃ fault, (call.perform c).session.diagnostics
        = c.diagnostics ++ [⟨fault, file, number⟩] := by
  cases call with
  | source read s => exact NativeApi.FailsAt.diagnostics h
  | path read p =>
    rw [Call.FailsAt] at h
    rw [perform, collectPath]
    cases hread : read p with
    | none =>
      rw [hread] at h
      obtain ⟨rfl, rfl⟩ := h
      exact ⟨rfl, .unreadableSource file, rfl⟩
    | some content =>
      rw [hread] at h
      exact NativeApi.FailsAt.diagnostics h

/-- A call that fails does so at a place. -/
theorem exists_failsAt (h : (call.perform c).success = false) :
    ∃ file number, call.FailsAt c file number := by
  cases call with
  | source read s => exact NativeApi.exists_failsAt h
  | path read p =>
    rw [perform, collectPath] at h
    simp only [Call.FailsAt]
    cases hread : read p with
    | none => exact ⟨p, 0, rfl, rfl⟩
    | some content =>
      rw [hread] at h
      exact NativeApi.exists_failsAt h

/-- A call that succeeds leaves the diagnostics as they were. -/
theorem diagnostics_of_success (h : (call.perform c).success = true) :
    (call.perform c).session.diagnostics = c.diagnostics := by
  rw [call.perform_eq_replay] at h ⊢
  obtain ⟨s, hs⟩ := replay_of_success h
  rw [hs]
  rfl

end Call

/-- **One failure, one diagnostic.** A call appends to the diagnostics, nothing if it succeeds and
one diagnostic if it fails, which has the place of the first line refused. -/
theorem failure_is_reported_once (call : Call) (c : Session) :
    ∃ new, (call.perform c).session.diagnostics = c.diagnostics ++ new ∧
      ((call.perform c).success = true ↔ new = []) ∧
      ((call.perform c).success = false ↔ ∃ d, new = [d]) ∧
      ((call.perform c).success = false ↔ ∃ file number, call.FailsAt c file number) ∧
      ∀ file number, call.FailsAt c file number → ∃ fault, new = [⟨fault, file, number⟩] := by
  have hplace : (call.perform c).success = false ↔ ∃ file number, call.FailsAt c file number :=
    ⟨Call.exists_failsAt, fun ⟨_, _, h⟩ ↦ h.diagnostics.1⟩
  by_cases hsuccess : (call.perform c).success = true
  · have hnone : ∀ file number, ¬call.FailsAt c file number := by
      intro file number h
      rw [h.diagnostics.1] at hsuccess
      cases hsuccess
    refine ⟨[], ?_, by simp [hsuccess], by simp [hsuccess], hplace, ?_⟩
    · rw [Call.diagnostics_of_success hsuccess, List.append_nil]
    · intro file number h
      exact absurd h (hnone file number)
  · rw [Bool.not_eq_true] at hsuccess
    obtain ⟨file, number, h⟩ := hplace.mp hsuccess
    obtain ⟨-, fault, hfault⟩ := h.diagnostics
    refine ⟨[⟨fault, file, number⟩], hfault, by simp [hsuccess], by simp [hsuccess], hplace, ?_⟩
    -- Two places of one failure agree, since each is the place of the only new diagnostic.
    intro other line hother
    obtain ⟨-, reason, hreason⟩ := hother.diagnostics
    rw [hfault] at hreason
    exact ⟨reason, List.append_cancel_left hreason⟩

/-- Behind an include, the line is counted in the including file, blank lines and comments too. -/
example :
    (collectSource (fun _ ↦ some "dll\ta.dll")
      ⟨"main", ["meta\tApi\t1.0.0.0", "", "include\tlib", "# rest", "dll"]⟩
      Session.initial).session.diagnostics = [⟨.fieldCount .dll, "main", 5⟩] := by
  decide

/-- A source whose include fails at its third line, in a file with a blank line. -/
def brokenIncludeCall : Call :=
  .source (fun _ ↦ some "dll\ta.dll\n\ndll")
    ⟨"main", ["meta\tApi\t1.0.0.0", "include\tlib", "dll"]⟩

theorem failure_is_reported_once_inside_include :
    (brokenIncludeCall.perform Session.initial).success = false ∧
      brokenIncludeCall.FailsAt Session.initial "lib" 3 ∧
      (brokenIncludeCall.perform Session.initial).session.diagnostics
        = [⟨.fieldCount .dll, "lib", 3⟩] := by
  have hsuccess : (brokenIncludeCall.perform Session.initial).success = false := by decide
  have hdiagnostics : (brokenIncludeCall.perform Session.initial).session.diagnostics
      = [⟨.fieldCount .dll, "lib", 3⟩] := by decide
  obtain ⟨new, hnew, -, -, hfails, hplace⟩ :=
    failure_is_reported_once brokenIncludeCall Session.initial
  obtain ⟨file, number, h⟩ := hfails.mp hsuccess
  obtain ⟨fault, rfl⟩ := hplace file number h
  rw [hdiagnostics] at hnew
  cases hnew
  exact ⟨hsuccess, h, hdiagnostics⟩

end NativeApi

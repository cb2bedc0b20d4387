import NativeApi.Proofs.Nesting
import NativeApi.Proofs.Reachable

/-!
# The depth of includes

A file is included at most sixty-four levels deep, and a file that is included while it is still in
progress makes the collection fail. The first is what each step keeps (`Progress.Valid`). For the
second, the files in progress are linked by includes, each to the one above it, so that including
one of them again closes a cycle, and no source that leads to a cycle is collected with success.

That the limit has been met shows in the diagnostics: they name it exactly if an include line has
been read in a file at the greatest depth (`Progress.AtLimit`), since every other fault has another
code.
-/

namespace NativeApi

/-! ## The stack -/

/-- The last file is the root, and every other one is included by the file behind it in the list,
which becomes current again after it. -/
def StackedOn (read : Text → Option Text) (root : Source) : List OpenFile → Prop
  | [] => True
  | [f] => f.source = root
  | f :: g :: below =>
    f.enclosing = g.source.path ∧ Includes read g.source f.source ∧ StackedOn read root (g :: below)

section Stack

variable {read : Text → Option Text} {root : Source} {f g : OpenFile} {files : List OpenFile}

/-- How far a file has been read does not matter to the stack. -/
theorem StackedOn.advance (h : StackedOn read root (f :: files)) (position : Nat) :
    StackedOn read root ({ f with position := position } :: files) := by
  cases files with
  | nil => exact h
  | cons g below => exact h

/-- The root leads to every file in progress. -/
theorem StackedOn.reflTransGen_root (h : StackedOn read root files) (hf : f ∈ files) :
    Relation.ReflTransGen (Includes read) root f.source := by
  induction files generalizing f with
  | nil => cases hf
  | cons first rest ih =>
    cases rest with
    | nil =>
      obtain rfl := List.mem_singleton.mp hf
      rw [show f.source = root from h]
    | cons next below =>
      obtain ⟨-, hincludes, hbelow⟩ := h
      rcases List.mem_cons.mp hf with rfl | hf
      · exact (ih hbelow List.mem_cons_self).tail hincludes
      · exact ih hbelow hf

/-- Every file in progress leads to the innermost one. -/
theorem StackedOn.reflTransGen_head (h : StackedOn read root (f :: files)) (hg : g ∈ f :: files) :
    Relation.ReflTransGen (Includes read) g.source f.source := by
  induction files generalizing f with
  | nil => rw [List.mem_singleton.mp hg]
  | cons next below ih =>
    obtain ⟨-, hincludes, hbelow⟩ := h
    rcases List.mem_cons.mp hg with rfl | hg
    · exact .refl
    · exact (ih hbelow hg).tail hincludes

/-- All files but the last are included. -/
theorem StackedOn.exists_includes (h : StackedOn read root files) (hf : f ∈ files.dropLast) :
    ∃ source, Includes read source f.source := by
  induction files with
  | nil => cases hf
  | cons first rest ih =>
    cases rest with
    | nil => cases hf
    | cons next below =>
      obtain ⟨-, hincludes, hbelow⟩ := h
      rw [List.dropLast_cons_cons, List.mem_cons] at hf
      rcases hf with rfl | hf
      · exact ⟨_, hincludes⟩
      · exact ih hbelow hf

/-- An included source is what its path names. -/
theorem Includes.read_path {source inner : Source} (h : Includes read source inner) :
    ∃ content, read inner.path = some content ∧ inner = Source.ofContent inner.path content := by
  obtain ⟨raw, -, path, content, -, hread, rfl⟩ := h
  exact ⟨content, hread, rfl⟩

end Stack

namespace Progress

/-! ## What a step keeps -/

/-- The files in progress are linked by includes, the innermost is current, and there are not more
than the limit allows besides the root. -/
structure Valid (read : Text → Option Text) (root : Source) (p : Progress) : Prop where
  stacked : StackedOn read root p.files
  file : ∀ f ∈ p.files.head?, p.outcome.session.file = f.source.path
  length : p.files.length ≤ includeLimit + 1

section Step

variable {read : Text → Option Text} {root : Source} {p : Progress}

theorem valid_enter (root : Source) (c : Session) : (enter [] root c).Valid read root where
  stacked := rfl
  file f hf := by cases hf; rfl
  length := by rw [enter, List.length_singleton]; omega

/-- A line that opens no file leaves the current file as it is. -/
theorem file_collectLine {opening : Opening} {raw : Text}
    (h : (Line.ofText raw).target? = none) (number : Nat) (c : Session) :
    (collectLine opening number raw c).session.file = c.file := by
  rcases collectLine_of_target?_eq_none opening h with ⟨s, hs⟩ | ⟨fault, hfault⟩
  · rw [hs]
    rfl
  · rw [hfault]
    rfl

theorem Valid.readLine {f : OpenFile} {below : List OpenFile} {raw : Text} {c : Session}
    (h : (⟨f :: below, ⟨c, true⟩⟩ : Progress).Valid read root) (hraw : raw ∈ f.source.lines) :
    (readLine read f below raw c).Valid read root := by
  have hfile : c.file = f.source.path := h.file f rfl
  rw [Progress.readLine]
  cases htarget : (Line.ofText raw).target? with
  | none =>
    refine ⟨h.stacked.advance _, fun g hg ↦ ?_, h.length⟩
    cases hg
    exact (file_collectLine htarget _ c).trans hfile
  | some path =>
    cases hsource : sourceAt read below.length path c with
    | error fault =>
      simp only [hsource]
      refine ⟨h.stacked.advance _, fun g hg ↦ ?_, h.length⟩
      cases hg
      exact hfile
    | ok inner =>
      simp only [hsource]
      obtain ⟨-, hroom, content, hread, rfl⟩ := sourceAt_eq_ok hsource
      refine ⟨⟨hfile, ?_, h.stacked.advance _⟩, fun g hg ↦ ?_, ?_⟩
      · rw [hfile] at hread ⊢
        exact ⟨raw, hraw, path, content, htarget, hread, rfl⟩
      · cases hg
        rfl
      · rw [enter, List.length_cons, List.length_cons]
        omega

theorem Valid.step (h : p.Valid read root) : (step read p).Valid read root := by
  obtain ⟨files, o⟩ := p
  cases files with
  | nil => exact h
  | cons f below =>
    -- A file that is taken off gives way to the one that it has been entered from.
    have hpop : (⟨below, o.enter f.enclosing⟩ : Progress).Valid read root := by
      have hlength := h.length
      rw [List.length_cons] at hlength
      cases below with
      | nil => exact ⟨trivial, fun _ hg ↦ absurd hg (Option.not_mem_none _), Nat.zero_le _⟩
      | cons next rest =>
        obtain ⟨henclosing, -, hrest⟩ := h.stacked
        refine ⟨hrest, fun g hg ↦ ?_, Nat.le_of_succ_le hlength⟩
        cases hg
        exact henclosing
    obtain ⟨c, success⟩ := o
    cases success with
    | false =>
      rw [step_of_refused rfl]
      exact hpop
    | true =>
      cases hline : f.source.lines[f.position]? with
      | none =>
        rw [step_of_end hline]
        exact hpop
      | some raw =>
        rw [step_of_line hline]
        exact h.readLine (List.mem_of_getElem? hline)

theorem Valid.iterate (h : p.Valid read root) (n : Nat) :
    ((Progress.step read)^[n] p).Valid read root := by
  induction n with
  | zero => exact h
  | succ n ih =>
    rw [Function.iterate_succ_apply']
    exact ih.step

/-! ### Cycles -/

/-- A line that is read next stands in the innermost file. -/
theorem MeetsInclude.exists_raw {path : Text} (h : p.MeetsInclude path) :
    ∃ f below raw c, p = ⟨f :: below, ⟨c, true⟩⟩ ∧ f.source.lines[f.position]? = some raw ∧
      (Line.ofText raw).target? = some path ∧ c.state.model.header.isSome := by
  obtain ⟨files, c, success⟩ := p
  obtain ⟨hnext, hheader⟩ := h
  obtain ⟨raw, hraw, htarget⟩ := Option.bind_eq_some_iff.mp hnext
  rw [nextLine?] at hraw
  split at hraw
  · rename_i hsuccess
    obtain ⟨f, hf, hraw⟩ := Option.bind_eq_some_iff.mp hraw
    obtain ⟨below, rfl⟩ := List.head?_eq_some_iff.mp hf
    obtain rfl : success = true := hsuccess
    exact ⟨f, below, raw, c, rfl, hraw, htarget, hheader⟩
  · cases hraw

/-- An include line that names a file in progress, other than the root, closes a cycle. -/
theorem Valid.exists_cycle (h : p.Valid read root) {path : Text} (hmeets : p.MeetsInclude path)
    {f : OpenFile} (hf : f ∈ p.files.dropLast)
    (hpath : Path.resolve p.outcome.session.file path = f.source.path) :
    ∃ source, Relation.ReflTransGen (Includes read) root source ∧
      Relation.TransGen (Includes read) source source := by
  obtain ⟨top, below, raw, c, rfl, hraw, htarget, -⟩ := hmeets.exists_raw
  obtain ⟨source, hincluded⟩ := h.stacked.exists_includes hf
  obtain ⟨content, hread, hsource⟩ := hincluded.read_path
  have hmem : f ∈ top :: below := List.dropLast_subset _ hf
  have hfile : c.file = top.source.path := h.file top rfl
  have hagain : Includes read top.source f.source := by
    refine ⟨raw, List.mem_of_getElem? hraw, path, content, htarget, ?_, ?_⟩
    · rw [← hfile, hpath, hread]
    · rw [← hfile, hpath]
      exact hsource
  exact ⟨f.source, h.stacked.reflTransGen_root hmem,
    .tail' (h.stacked.reflTransGen_head hmem) hagain⟩

/-! ## Diagnostics -/

/-- The next line is an include line in a file at the greatest depth: there are sixty-four files in
progress above the root. -/
def AtLimit (p : Progress) : Prop := p.files.length = 64 + 1 ∧ ∃ path, p.MeetsInclude path

theorem not_atLimit_of_nextLine? (h : p.nextLine? = none) : ¬p.AtLimit := by
  rintro ⟨-, path, hmeets, -⟩
  rw [h] at hmeets
  cases hmeets

/-- The last step has added no diagnostic, or one with which the collection fails. -/
inductive Reports (p q : Progress) : Prop
  | silent (hdiagnostics : q.outcome.session.diagnostics = p.outcome.session.diagnostics)
      (hsuccess : q.outcome.success = p.outcome.success) (hlimit : ¬p.AtLimit)
  | failure {d : Diagnostic} (hbefore : p.outcome.success = true)
      (hdiagnostics : q.outcome.session.diagnostics = p.outcome.session.diagnostics ++ [d])
      (hafter : q.outcome.success = false) (hcode : d.fault.code = "META-E3010" ↔ p.AtLimit)

/-- A line that opens no file is refused for nothing about a file. -/
theorem collectLine_cases_of_target? (opening : Opening) {raw : Text}
    (h : (Line.ofText raw).target? = none) (number : Nat) (c : Session) :
    (∃ s, collectLine opening number raw c = c.accept s) ∨
      ∃ fault, collectLine opening number raw c = c.refuse fault c.file number ∧
        fault.concernsFile = false := by
  rw [collectLine]
  cases hline : Line.ofText raw with
  | blank => exact .inl ⟨c.state, rfl⟩
  | unknown word => exact .inr ⟨_, rfl, rfl⟩
  | command k =>
    rw [hline, Line.target?] at h
    cases hstatement : Statement.ofCommand? k with
    | none => exact .inr ⟨.fieldCount k.keyword, by simp only [hstatement], rfl⟩
    | some statement =>
      rw [hstatement] at h
      cases statement with
      | inclusion path => cases h
      | declare d =>
        simp only [hstatement]
        cases hdeclare : c.state.declare d with
        | ok s => exact .inl ⟨s, rfl⟩
        | error fault => exact .inr ⟨fault, rfl, FileIndependent.declare _ _ _ hdeclare⟩

/-- The fault of an include line is that of the limit exactly if there is a header and no room. -/
theorem code_of_sourceAt {depth : Nat} {path : Text} {c : Session} {fault : Fault}
    (h : sourceAt read depth path c = .error fault) :
    fault.code = "META-E3010" ↔ c.state.model.header.isSome ∧ includeLimit < depth + 1 := by
  rw [Fault.code_eq_includeDepth_iff]
  cases hheader : c.state.model.header with
  | none =>
    rw [sourceAt_of_header_eq_none hheader] at h
    cases h
    exact iff_of_false (by simp) (by simp)
  | some header =>
    rw [sourceAt_of_isSome_header (Option.isSome_of_eq_some hheader)] at h
    split at h
    · rename_i hfull
      cases h
      exact iff_of_true ⟨path, rfl⟩ ⟨rfl, hfull⟩
    · rename_i hroom
      refine iff_of_false ?_ (fun hfull ↦ hroom hfull.2)
      split at h
      · cases h
        simp
      · cases h

theorem Valid.reports (h : p.Valid read root) : p.Reports (Progress.step read p) := by
  obtain ⟨files, c, success⟩ := p
  cases files with
  | nil => exact .silent rfl rfl (not_atLimit_of_nextLine? (by simp [nextLine?]))
  | cons f below =>
    cases success with
    | false =>
      rw [step_of_refused rfl]
      exact .silent rfl rfl (not_atLimit_of_nextLine? rfl)
    | true =>
      cases hline : f.source.lines[f.position]? with
      | none =>
        rw [step_of_end hline]
        exact .silent rfl rfl (not_atLimit_of_nextLine? (by simp [nextLine?, hline]))
      | some raw =>
        have hnext : (⟨f :: below, ⟨c, true⟩⟩ : Progress).nextLine? = some raw := by
          simp [nextLine?, hline]
        rw [step_of_line hline, Progress.readLine]
        cases htarget : (Line.ofText raw).target? with
        | none =>
          have hlimit : ¬(⟨f :: below, ⟨c, true⟩⟩ : Progress).AtLimit := by
            rintro ⟨-, path, hmeets, -⟩
            rw [hnext, Option.bind_some, htarget] at hmeets
            cases hmeets
          rcases collectLine_cases_of_target? (fun _ _ d ↦ ⟨d, true⟩) htarget
            (f.position + 1) c with ⟨s, hs⟩ | ⟨fault, hfault, hconcerns⟩
          · simp only [hs]
            exact .silent rfl rfl hlimit
          · simp only [hfault]
            refine .failure rfl rfl rfl (iff_of_false (fun hcode ↦ ?_) hlimit)
            obtain ⟨path, rfl⟩ := Fault.code_eq_includeDepth_iff.mp hcode
            cases hconcerns
        | some path =>
          have hmeets : (⟨f :: below, ⟨c, true⟩⟩ : Progress).AtLimit ↔
              c.state.model.header.isSome ∧ includeLimit < below.length + 1 := by
            have hlength : below.length + 1 ≤ 64 + 1 := h.length
            have hlimit : includeLimit = 64 := rfl
            rw [AtLimit, List.length_cons, hlimit]
            constructor
            · rintro ⟨hfull, -, -, hheader⟩
              exact ⟨hheader, by omega⟩
            · rintro ⟨hheader, hfull⟩
              refine ⟨by omega, path, ?_, hheader⟩
              rw [hnext, Option.bind_some, htarget]
          cases hsource : sourceAt read below.length path c with
          | error fault =>
            simp only [hsource]
            exact .failure rfl rfl rfl ((code_of_sourceAt hsource).trans hmeets.symm)
          | ok inner =>
            simp only [hsource]
            refine .silent rfl rfl fun hlimit ↦ ?_
            have hroom := (sourceAt_eq_ok hsource).2.1
            have hfull := (hmeets.mp hlimit).2
            omega

end Step

end Progress

/-! ## Calls -/

namespace Call

/-- The contents of files during a call. -/
def read : Call → Text → Option Text
  | source read _ => read
  | path read _ => read

/-- The source that a call collects. There is none if the file of the call cannot be read. -/
def source? : Call → Option Source
  | source _ s => some s
  | path read p => (read p).map (Source.ofContent p)

/-- The progress that a call begins with. A call without a source is at its end. -/
def start (call : Call) (c : Session) : Progress :=
  match call.source? with
  | none => ⟨[], call.perform c⟩
  | some s => Progress.enter [] s c

/-- The progress of a call after a number of steps. -/
def after (call : Call) (c : Session) (n : Nat) : Progress :=
  (Progress.step call.read)^[n] (call.start c)

section Steps

variable {call : Call} {s : Source} {c : Session}

theorem perform_of_source? (h : call.source? = some s) (c : Session) :
    call.perform c = collectWithin call.read includeLimit s c := by
  cases call with
  | source read root =>
    obtain rfl := Option.some.inj h
    rfl
  | path read p =>
    obtain ⟨content, hcontent, rfl⟩ := Option.map_eq_some_iff.mp h
    rw [perform, collectPath, hcontent]
    rfl

theorem perform_of_source?_eq_none (h : call.source? = none) (c : Session) :
    ∃ p, call.perform c = c.refuse (.unreadableSource p) p 0 := by
  cases call with
  | source read root => cases h
  | path read p =>
    have hnone : read p = none := Option.map_eq_none_iff.mp h
    exact ⟨p, by rw [perform, collectPath, hnone]⟩

/-- Where no file is in progress, no step changes anything. -/
theorem iterate_step_nil (read : Text → Option Text) (o : Outcome) (n : Nat) :
    (Progress.step read)^[n] ⟨[], o⟩ = ⟨[], o⟩ :=
  Function.iterate_fixed rfl n

theorem after_of_source?_eq_none (h : call.source? = none) (c : Session) (n : Nat) :
    call.after c n = ⟨[], call.perform c⟩ := by
  rw [after, start, h]
  exact iterate_step_nil _ _ n

theorem valid_after (h : call.source? = some s) (c : Session) (n : Nat) :
    (call.after c n).Valid call.read s := by
  rw [after, start, h]
  exact (Progress.valid_enter s c).iterate n

theorem after_succ (call : Call) (c : Session) (n : Nat) :
    call.after c (n + 1) = Progress.step call.read (call.after c n) :=
  Function.iterate_succ_apply' _ _ _

/-- The steps of a call come to an end, with what the call gives. -/
theorem exists_after_eq (call : Call) (c : Session) :
    ∃ n, call.after c n = ⟨[], call.perform c⟩ := by
  cases h : call.source? with
  | none => exact ⟨0, after_of_source?_eq_none h c 0⟩
  | some s =>
    rw [perform_of_source? h]
    simp only [after, start, h]
    exact Progress.reaches_collected call.read includeLimit [] s c (Nat.zero_add _)

theorem length_after_le (call : Call) (c : Session) (n : Nat) :
    (call.after c n).files.length ≤ 64 + 1 := by
  cases h : call.source? with
  | none =>
    rw [after_of_source?_eq_none h]
    exact Nat.zero_le _
  | some s => exact (valid_after h c n).length

/-- The diagnostics so far. There are none while the call has not failed, and the limit is reported
if it has been met. -/
theorem diagnostics_after (call : Call) (c : Session) (n : Nat) :
    ∃ new, (call.after c n).outcome.session.diagnostics = c.diagnostics ++ new ∧
      ((call.after c n).outcome.success = true → new = []) ∧
      ((∃ d ∈ new, d.fault.code = "META-E3010") ↔ ∃ k < n, (call.after c k).AtLimit) := by
  cases h : call.source? with
  | none =>
    obtain ⟨p, hp⟩ := perform_of_source?_eq_none h c
    simp only [after_of_source?_eq_none h, hp]
    refine ⟨[⟨.unreadableSource p, p, 0⟩], rfl,
      fun hsuccess ↦ absurd hsuccess Bool.false_ne_true, ?_⟩
    refine iff_of_false ?_ ?_
    · rintro ⟨d, hd, hcode⟩
      rw [List.mem_singleton.mp hd, Fault.code_eq_includeDepth_iff] at hcode
      obtain ⟨other, hother⟩ := hcode
      cases hother
    · rintro ⟨k, -, hlimit⟩
      exact Progress.not_atLimit_of_nextLine? (by simp [Progress.nextLine?]) hlimit
  | some s =>
    induction n with
    | zero =>
      rw [after, start, h]
      exact ⟨[], (List.append_nil _).symm, fun _ ↦ rfl, by simp⟩
    | succ n ih =>
      obtain ⟨new, hnew, hnone, hcode⟩ := ih
      have hlast : (∃ k < n + 1, (call.after c k).AtLimit) ↔
          (∃ k < n, (call.after c k).AtLimit) ∨ (call.after c n).AtLimit := by
        simp only [Nat.lt_succ_iff_lt_or_eq, or_and_right, exists_or, exists_eq_left]
      rw [after_succ, hlast, ← hcode]
      cases (valid_after h c n).reports with
      | silent hdiagnostics hsuccess hlimit =>
        refine ⟨new, hdiagnostics.trans hnew, fun hstep ↦ hnone (hsuccess ▸ hstep), ?_⟩
        rw [or_iff_left hlimit]
      | @failure d hbefore hdiagnostics hafter hlimit =>
        obtain rfl := hnone hbefore
        rw [hnew, List.append_nil] at hdiagnostics
        refine ⟨[d], hdiagnostics, fun hstep ↦ ?_, ?_⟩
        · rw [hafter] at hstep
          cases hstep
        · simpa using hlimit

/-- The limit is reported exactly if an include line is met in a file at the greatest depth. -/
theorem limit_reported_iff (call : Call) (c : Session) :
    ∃ new, (call.perform c).session.diagnostics = c.diagnostics ++ new ∧
      ((call.perform c).success = true → new = []) ∧
      ((∃ d ∈ new, d.fault.code = "META-E3010") ↔ ∃ n, (call.after c n).AtLimit) := by
  obtain ⟨last, hlast⟩ := call.exists_after_eq c
  obtain ⟨new, hnew, hnone, hcode⟩ := diagnostics_after call c last
  rw [hlast] at hnew hnone
  refine ⟨new, hnew, hnone, hcode.trans ⟨fun ⟨k, _, hk⟩ ↦ ⟨k, hk⟩, fun ⟨k, hk⟩ ↦ ⟨k, ?_, hk⟩⟩⟩
  by_contra hlate
  -- Behind its end a call meets no line.
  have hend : call.after c k = ⟨[], call.perform c⟩ := by
    obtain ⟨j, rfl⟩ := Nat.exists_eq_add_of_le' (Nat.not_lt.mp hlate)
    rw [after] at hlast ⊢
    rw [Function.iterate_add_apply, hlast, iterate_step_nil]
  rw [hend] at hk
  exact Progress.not_atLimit_of_nextLine? (by simp [Progress.nextLine?]) hk

/-- A call that includes a file again while it is in progress fails. -/
theorem not_success_of_again (call : Call) (c : Session) {n : Nat} {path : Text}
    (hmeets : (call.after c n).MeetsInclude path) {f : OpenFile}
    (hf : f ∈ (call.after c n).files.dropLast)
    (hpath : Path.resolve (call.after c n).outcome.session.file path = f.source.path) :
    (call.perform c).success = false := by
  cases h : call.source? with
  | none =>
    rw [after_of_source?_eq_none h] at hf
    cases hf
  | some s =>
    obtain ⟨source, hroot, hcycle⟩ := (valid_after h c n).exists_cycle hmeets hf hpath
    rw [perform_of_source? h]
    exact not_success_of_cycle hroot hcycle includeLimit c

end Steps

end Call

/-- Files that include each other in a row: the names get longer by one byte with each, and the
sixty-fourth includes nothing. -/
def rowOfFiles (path : Text) : Option Text :=
  if path.length < 64 then some ("include\t" ++ path ++ "x") else some []

/-- Collects a source that includes the first file of the row. -/
def rowCall : Call := .source rowOfFiles ⟨"main", ["meta\tApi\t1.0.0.0", "include\tx"]⟩

/-- **Includes are bounded.** Every call comes to an end, and no file is more than sixty-four levels
below the source of the call. The limit is reported exactly if an include line is read, behind a
header, in a file at that depth, and then the call fails, while files at that depth can be collected
with success. A call in which an include line names an included file that is still in progress
fails. -/
theorem inclusion_is_bounded :
    (∀ (call : Call) (c : Session),
      (∃ n, call.after c n = ⟨[], call.perform c⟩) ∧
      (∀ n, (call.after c n).files.length ≤ 64 + 1) ∧
      (∃ new, (call.perform c).session.diagnostics = c.diagnostics ++ new ∧
        ((call.perform c).success = true → new = []) ∧
        ((∃ d ∈ new, d.fault.code = "META-E3010") ↔ ∃ n, (call.after c n).AtLimit)) ∧
      ∀ n path, (call.after c n).MeetsInclude path →
        (∃ f ∈ (call.after c n).files.dropLast,
          Path.resolve (call.after c n).outcome.session.file path = f.source.path) →
        (call.perform c).success = false) ∧
    ∃ call n, (Call.perform call Session.initial).success = true ∧
      (call.after Session.initial n).files.length = 64 + 1 := by
  refine ⟨fun call c ↦ ⟨call.exists_after_eq c, call.length_after_le c, call.limit_reported_iff c,
    ?_⟩, rowCall, 65, by decide +kernel, by decide +kernel⟩
  rintro n path hmeets ⟨f, hf, hpath⟩
  exact call.not_success_of_again c hmeets hf hpath

/-- Two files that include each other, the first of them included behind a third. -/
def cyclicFiles : Text → Option Text := fun path ↦
  [(("first" : Text), ("dll\ta.dll" : Text)), ("second", "struct\tItem\ninclude\t./third"),
    ("third", "# again\ninclude\tx/../second")].lookup path

def cyclicCall : Call :=
  .source cyclicFiles ⟨"main", ["meta\tApi\t1.0.0.0", "include\tfirst", "include\tsecond"]⟩

theorem inclusion_is_bounded_for_cycle :
    (cyclicCall.after Session.initial 8).MeetsInclude "x/../second" ∧
      (∃ f ∈ (cyclicCall.after Session.initial 8).files.dropLast,
        Path.resolve (cyclicCall.after Session.initial 8).outcome.session.file "x/../second"
          = f.source.path) ∧
      (cyclicCall.perform Session.initial).success = false := by
  have hmeets : (cyclicCall.after Session.initial 8).MeetsInclude "x/../second" :=
    ⟨by decide, by decide⟩
  have hagain : ∃ f ∈ (cyclicCall.after Session.initial 8).files.dropLast,
      Path.resolve (cyclicCall.after Session.initial 8).outcome.session.file "x/../second"
        = f.source.path := by decide
  exact ⟨hmeets, hagain,
    (inclusion_is_bounded.1 cyclicCall Session.initial).2.2.2 8 _ hmeets hagain⟩

end NativeApi

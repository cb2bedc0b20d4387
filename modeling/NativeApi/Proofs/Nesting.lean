import Mathlib.Logic.Function.Iterate
import NativeApi.Proofs.Cycles
import NativeApi.Proofs.Faults

/-!
# Nested files, step by step

`collectWithin` counts down the includes that may still be opened, and ends by its form. Here
nothing is counted down: a collection is a stack of files in progress, and one step reads one line
of the innermost file. An include line puts a file on the stack, unless as many files as the limit
allows are included already. A file is taken off when its lines have all been read or one has been
refused.

That this comes to an end at all, and with what `collectWithin` gives, is
`Progress.reaches_collected`. So what holds of every state of the stack holds of all that happens
during a collection: how deep files are nested, which files are in progress, and which line is read
next.
-/

namespace NativeApi

/-! ## Steps -/

/-- A file in progress: its source, how many of its lines have been read, and the file that was
current before. -/
structure OpenFile where
  source : Source
  position : Nat
  enclosing : Text

/-- The files in progress, the innermost first, and the outcome so far. The last of them is the
source that is collected, and the others are included. -/
structure Progress where
  files : List OpenFile
  outcome : Outcome

/-- The source that an include line opens in a file at a depth, or the fault for which it opens
none. Included files are one level deeper than the file that includes them. -/
def sourceAt (read : Text → Option Text) (depth : Nat) (path : Text) (c : Session) :
    Except Fault Source := do
  let _ ← c.state.requireHeader .inclusion
  if includeLimit < depth + 1 then .error (.includeDepth path)
  else
    let target := Path.resolve c.file path
    match read target with
    | none => .error (.unreadableInclude target)
    | some content => .ok (Source.ofContent target content)

namespace Progress

/-- A source is put on the stack. -/
def enter (files : List OpenFile) (source : Source) (c : Session) : Progress :=
  ⟨⟨source, 0, c.file⟩ :: files, ⟨c.enter source.path, true⟩⟩

/-- The innermost file `f` reads a line. -/
def readLine (read : Text → Option Text) (f : OpenFile) (below : List OpenFile) (raw : Text)
    (c : Session) : Progress :=
  let files := { f with position := f.position + 1 } :: below
  match (Line.ofText raw).target? with
  | none => ⟨files, collectLine (fun _ _ d ↦ ⟨d, true⟩) (f.position + 1) raw c⟩
  | some path =>
    match sourceAt read below.length path c with
    | .error fault => ⟨files, c.refuse fault c.file (f.position + 1)⟩
    | .ok inner => enter files inner c

/-- One step. Nothing happens once there is no file in progress. -/
def step (read : Text → Option Text) : Progress → Progress
  | ⟨[], o⟩ => ⟨[], o⟩
  | ⟨f :: below, o⟩ =>
    match if o.success then f.source.lines[f.position]? else none with
    | none => ⟨below, o.enter f.enclosing⟩
    | some raw => readLine read f below raw o.session

/-- The line that is read next. -/
def nextLine? (p : Progress) : Option Text :=
  if p.outcome.success then p.files.head?.bind fun f ↦ f.source.lines[f.position]? else none

/-- The next line is an include line with one path, behind a header. -/
def MeetsInclude (p : Progress) (path : Text) : Prop :=
  (p.nextLine?.bind fun raw ↦ (Line.ofText raw).target?) = some path ∧
    p.outcome.session.state.model.header.isSome

/-- Steps lead from one progress to another. -/
def Reaches (read : Text → Option Text) (p q : Progress) : Prop := ∃ n, (step read)^[n] p = q

/-- A line without a target is read in the same way however files are opened. -/
theorem collectLine_congr {raw : Text} (h : (Line.ofText raw).target? = none)
    (first second : Opening) {number : Nat} {c : Session} :
    collectLine first number raw c = collectLine second number raw c := by
  rw [collectLine, collectLine]
  cases hline : Line.ofText raw with
  | blank => rfl
  | unknown word => rfl
  | command k =>
    rw [hline, Line.target?] at h
    cases hstatement : Statement.ofCommand? k with
    | none => simp only [hstatement]
    | some statement =>
      cases statement with
      | declare d => simp only [hstatement]
      | inclusion path => rw [hstatement] at h; cases h

section Reaches

variable {read : Text → Option Text} {p q r : Progress}

theorem Reaches.refl (p : Progress) : Reaches read p p := ⟨0, rfl⟩

theorem Reaches.trans (h : Reaches read p q) (h' : Reaches read q r) : Reaches read p r := by
  obtain ⟨n, rfl⟩ := h
  obtain ⟨k, rfl⟩ := h'
  exact ⟨k + n, Function.iterate_add_apply _ _ _ _⟩

theorem reaches_step (read : Text → Option Text) (p : Progress) : Reaches read p (step read p) :=
  ⟨1, rfl⟩

end Reaches

section Steps

variable {read : Text → Option Text} {f : OpenFile} {below : List OpenFile} {c : Session}

theorem step_of_refused {o : Outcome} (h : o.success = false) :
    step read ⟨f :: below, o⟩ = ⟨below, o.enter f.enclosing⟩ := by
  simp [step, h]

theorem step_of_end (h : f.source.lines[f.position]? = none) :
    step read ⟨f :: below, ⟨c, true⟩⟩ = ⟨below, ⟨c.enter f.enclosing, true⟩⟩ := by
  simp [step, h, Outcome.enter]

theorem step_of_line {raw : Text} (h : f.source.lines[f.position]? = some raw) :
    step read ⟨f :: below, ⟨c, true⟩⟩ = readLine read f below raw c := by
  simp [step, h]

/-! ### Include lines -/

theorem sourceAt_of_header_eq_none {depth : Nat} {path : Text} (h : c.state.model.header = none) :
    sourceAt read depth path c = .error (.missingContext .inclusion .header) := by
  rw [sourceAt, State.requireHeader, h]
  rfl

theorem sourceAt_of_isSome_header {depth : Nat} {path : Text} (h : c.state.model.header.isSome) :
    sourceAt read depth path c =
      if includeLimit < depth + 1 then .error (.includeDepth path)
      else match read (Path.resolve c.file path) with
        | none => .error (.unreadableInclude (Path.resolve c.file path))
        | some content => .ok (Source.ofContent (Path.resolve c.file path) content) := by
  obtain ⟨header, hheader⟩ := Option.isSome_iff_exists.mp h
  rw [sourceAt, State.requireHeader, hheader]
  rfl

/-- A source that is opened has been read, and there is room for it. -/
theorem sourceAt_eq_ok {depth : Nat} {path : Text} {inner : Source}
    (h : sourceAt read depth path c = .ok inner) :
    c.state.model.header.isSome ∧ depth + 1 ≤ includeLimit ∧
      ∃ content, read (Path.resolve c.file path) = some content ∧
        inner = Source.ofContent (Path.resolve c.file path) content := by
  cases hheader : c.state.model.header with
  | none =>
    rw [sourceAt_of_header_eq_none hheader] at h
    cases h
  | some header =>
    have hsome := Option.isSome_of_eq_some hheader
    rw [sourceAt_of_isSome_header hsome] at h
    split at h
    · cases h
    · rename_i hroom
      split at h
      · cases h
      · rename_i content hread
        cases h
        exact ⟨rfl, Nat.not_lt.mp hroom, content, hread, rfl⟩

variable {depth levels number : Nat} {path : Text}

/-- What stands at the limit and what does not is the same with levels counted up or down. -/
theorem collectInclusion_of_sourceAt_eq_error (hlevels : depth + levels = includeLimit)
    {fault : Fault} (h : sourceAt read depth path c = .error fault) :
    collectInclusion (openingWithin read levels) number path c = c.refuse fault c.file number := by
  cases hheader : c.state.model.header with
  | none =>
    rw [sourceAt_of_header_eq_none hheader] at h
    cases h
    exact collectInclusion_of_header_eq_none _ path hheader
  | some header =>
    have hsome := Option.isSome_of_eq_some hheader
    rw [sourceAt_of_isSome_header hsome] at h
    rw [collectInclusion_of_isSome_header _ path hsome]
    cases levels with
    | zero =>
      rw [if_pos (by omega)] at h
      cases h
      rfl
    | succ levels =>
      rw [if_neg (by omega)] at h
      cases hread : read (Path.resolve c.file path) with
      | none =>
        rw [hread] at h
        cases h
        simp only [openingWithin, hread]
      | some content =>
        rw [hread] at h
        cases h

theorem collectInclusion_of_sourceAt_eq_ok (number : Nat) (hlevels : depth + levels = includeLimit)
    {inner : Source} (h : sourceAt read depth path c = .ok inner) :
    ∃ fewer, levels = fewer + 1 ∧
      collectInclusion (openingWithin read levels) number path c
        = collectWithin read fewer inner c := by
  obtain ⟨hheader, hroom, content, hread, rfl⟩ := sourceAt_eq_ok h
  obtain ⟨fewer, rfl⟩ : ∃ fewer, levels = fewer + 1 := ⟨levels - 1, by omega⟩
  refine ⟨fewer, rfl, ?_⟩
  rw [collectInclusion_of_isSome_header _ path hheader]
  simp only [openingWithin, hread]

end Steps

/-! ## Steps come to an end -/

section Run

variable {read : Text → Option Text} {levels : Nat} {below : List OpenFile}

/-- The steps of a source end with what collecting it gives. -/
def Collects (read : Text → Option Text) (levels : Nat) : Prop :=
  ∀ (below : List OpenFile) (source : Source) (c : Session),
    below.length + levels = includeLimit →
      Reaches read (enter below source c) ⟨below, collectWithin read levels source c⟩

/-- A line is read in one step, or, if it opens a file, in those of the file. -/
theorem reaches_line (hinner : ∀ fewer, levels = fewer + 1 → Collects read fewer)
    (hlevels : below.length + levels = includeLimit) {f : OpenFile} {raw : Text}
    (hraw : f.source.lines[f.position]? = some raw) (c : Session) :
    Reaches read ⟨f :: below, ⟨c, true⟩⟩
      ⟨{ f with position := f.position + 1 } :: below,
        collectLine (openingWithin read levels) (f.position + 1) raw c⟩ := by
  refine (reaches_step read _).trans ?_
  rw [step_of_line hraw, readLine]
  cases htarget : (Line.ofText raw).target? with
  | none =>
    -- The way in which files are opened does not matter to a line that opens none.
    rw [collectLine_congr htarget _ (openingWithin read levels)]
    exact .refl _
  | some path =>
    rw [collectLine_of_target?_eq_some (openingWithin read levels) htarget]
    cases hsource : sourceAt read below.length path c with
    | error fault =>
      simp only [hsource, collectInclusion_of_sourceAt_eq_error hlevels hsource]
      exact .refl _
    | ok inner =>
      obtain ⟨fewer, rfl, heq⟩ :=
        collectInclusion_of_sourceAt_eq_ok (f.position + 1) hlevels hsource
      simp only [hsource, heq]
      refine hinner fewer rfl _ inner c ?_
      rw [List.length_cons]
      omega

theorem reaches_lines (hinner : ∀ fewer, levels = fewer + 1 → Collects read fewer)
    (hlevels : below.length + levels = includeLimit) {lines : List Text} {f : OpenFile}
    (hlines : f.source.lines.drop f.position = lines) (c : Session) :
    Reaches read ⟨f :: below, ⟨c, true⟩⟩
      ⟨below, (collectLines (openingWithin read levels) (f.position + 1) lines c).enter
        f.enclosing⟩ := by
  induction lines generalizing f c with
  | nil =>
    have hend : f.source.lines[f.position]? = none := by
      rw [← List.head?_drop, hlines]
      rfl
    have h := reaches_step read ⟨f :: below, ⟨c, true⟩⟩
    rw [step_of_end hend] at h
    exact h
  | cons raw lines ih =>
    have hraw : f.source.lines[f.position]? = some raw := by
      rw [← List.head?_drop, hlines]
      rfl
    have hrest : f.source.lines.drop (f.position + 1) = lines := by
      rw [← List.tail_drop, hlines]
      rfl
    refine (reaches_line hinner hlevels hraw c).trans ?_
    rw [collectLines]
    cases hline : collectLine (openingWithin read levels) (f.position + 1) raw c with
    | mk d success =>
      cases success with
      | true => exact ih (f := { f with position := f.position + 1 }) hrest d
      | false =>
        have h := reaches_step read ⟨{ f with position := f.position + 1 } :: below, ⟨d, false⟩⟩
        rw [step_of_refused rfl] at h
        exact h

/-- **Collections come to an end.** Whatever files there are, steps lead from a source that is put
on the stack to the outcome of collecting it, with the source off the stack. -/
theorem reaches_collected (read : Text → Option Text) (levels : Nat) : Collects read levels := by
  induction levels with
  | zero =>
    intro below source c hlevels
    rw [collectWithin_eq]
    exact reaches_lines (fun fewer h ↦ by omega) hlevels (f := ⟨source, 0, c.file⟩) rfl _
  | succ levels ih =>
    intro below source c hlevels
    rw [collectWithin_eq]
    refine reaches_lines (fun fewer h ↦ ?_) hlevels (f := ⟨source, 0, c.file⟩) rfl _
    cases h
    exact ih

end Run

end Progress

end NativeApi

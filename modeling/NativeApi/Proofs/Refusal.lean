import NativeApi.Proofs.DefinitionLanguage

/-!
# Refused lines

A line is refused with one diagnostic and changes nothing else: neither the model nor a slot of the
scope, and not the current file. This holds of every line that opens no file, whatever it is refused
for. An include line opens a file only if it has one path, stands behind the header and names a
readable file while the limit allows one more (`opened?`); otherwise it is refused as well, in the
same way.

An include line that opens a file can fail behind it, and then the lines of that file which have
been accepted stay accepted. Hence a collection that fails leaves the state behind the items before
the first refused one, in the expansion of its includes.
-/

namespace NativeApi

/-! ## Include lines -/

/-- What an include line does in a source below which `levels` includes may be opened. -/
def openingWithin (read : Text → Option Text) : (levels : Nat) → Opening
  | 0, number, path, c => c.refuse (.includeDepth path) c.file number
  | levels + 1, number, path, c =>
    let target := Path.resolve c.file path
    match read target with
    | none => c.refuse (.unreadableInclude target) c.file number
    | some content => collectWithin read levels (Source.ofContent target content) c

theorem collectWithin_eq (read : Text → Option Text) (levels : Nat) (source : Source)
    (c : Session) :
    collectWithin read levels source c = collectInside (openingWithin read levels) source c := by
  cases levels <;> rfl

/-- The path of an include line that has as many fields as it takes. -/
def Line.target? : Line → Option Text
  | .command k =>
    match Statement.ofCommand? k with
    | some (.inclusion path) => some path
    | _ => none
  | _ => none

/-- The source that a line opens, if it opens one. -/
def opened? (read : Text → Option Text) : (levels : Nat) → (raw : Text) → Session → Option Source
  | 0, _, _ => none
  | _ + 1, raw, c =>
    if c.state.model.header.isSome then
      (Line.ofText raw).target?.bind fun path ↦
        (read (Path.resolve c.file path)).map (Source.ofContent (Path.resolve c.file path))
    else none

theorem Line.isInclusion_of_target? {l : Line} {path : Text} (h : l.target? = some path) :
    l.isInclusion = true := by
  match l with
  | .command k =>
    rw [target?] at h
    split at h
    · rename_i statement hstatement
      exact decide_eq_true (Statement.keyword_of_inclusion hstatement)
    · cases h

theorem Line.target?_eq_none {l : Line} (h : l.isInclusion = false) : l.target? = none := by
  rw [Option.eq_none_iff_forall_not_mem]
  intro path hpath
  rw [isInclusion_of_target? hpath] at h
  cases h

/-! ## The effect of one line -/

section Lines

variable {c : Session} {number : Nat} {raw : Text}

/-- A line without a target is accepted with a state, or refused. -/
theorem collectLine_of_target?_eq_none (opening : Opening)
    (h : (Line.ofText raw).target? = none) :
    (∃ s, collectLine opening number raw c = c.accept s) ∨
      ∃ fault, collectLine opening number raw c = c.refuse fault c.file number := by
  rw [collectLine]
  cases hline : Line.ofText raw with
  | blank => exact .inl ⟨c.state, rfl⟩
  | unknown word => exact .inr ⟨_, rfl⟩
  | command k =>
    rw [hline, Line.target?] at h
    cases hstatement : Statement.ofCommand? k with
    | none => exact .inr ⟨.fieldCount k.keyword, by simp only [hstatement]⟩
    | some statement =>
      rw [hstatement] at h
      cases statement with
      | inclusion path => cases h
      | declare d =>
        simp only [hstatement]
        cases c.state.declare d with
        | ok s => exact .inl ⟨s, rfl⟩
        | error fault => exact .inr ⟨fault, rfl⟩

/-- An include line without a target has the wrong number of fields. -/
theorem collectLine_of_isInclusion (opening : Opening) (h : (Line.ofText raw).isInclusion = true)
    (htarget : (Line.ofText raw).target? = none) :
    collectLine opening number raw c = c.refuse (.fieldCount .inclusion) c.file number := by
  rw [collectLine]
  cases hline : Line.ofText raw with
  | blank => rw [hline] at h; cases h
  | unknown word => rw [hline] at h; cases h
  | command k =>
    rw [hline] at h htarget
    obtain ⟨keyword, operands⟩ := k
    have hkeyword : keyword = .inclusion := of_decide_eq_true h
    subst hkeyword
    cases operands with
    | nil => rfl
    | cons path rest =>
      cases rest with
      | nil => cases htarget
      | cons other rest => rfl

/-- A line with a target acts as an include line. -/
theorem collectLine_of_target?_eq_some (opening : Opening) {path : Text}
    (h : (Line.ofText raw).target? = some path) :
    collectLine opening number raw c = collectInclusion opening number path c := by
  rw [collectLine]
  cases hline : Line.ofText raw with
  | blank => rw [hline] at h; cases h
  | unknown word => rw [hline] at h; cases h
  | command k =>
    rw [hline, Line.target?] at h
    split at h
    · rename_i target hstatement
      cases h
      simp only [hstatement]
    · cases h

/-- Without a header an include line is refused. -/
theorem collectInclusion_of_header_eq_none (opening : Opening) (path : Text)
    (h : c.state.model.header = none) :
    collectInclusion opening number path c
      = c.refuse (.missingContext .inclusion .header) c.file number := by
  rw [collectInclusion, State.requireHeader, h]
  rfl

theorem collectInclusion_of_isSome_header (opening : Opening) (path : Text)
    (h : c.state.model.header.isSome) :
    collectInclusion opening number path c = opening number path c := by
  obtain ⟨header, hheader⟩ := Option.isSome_iff_exists.mp h
  rw [collectInclusion, State.requireHeader, hheader]
  rfl

variable {read : Text → Option Text} {levels : Nat}

/-- An include line that opens no file is refused. -/
theorem collectLine_of_opened?_eq_none {path : Text}
    (htarget : (Line.ofText raw).target? = some path) (h : opened? read levels raw c = none) :
    ∃ fault, collectLine (openingWithin read levels) number raw c
      = c.refuse fault c.file number := by
  rw [collectLine_of_target?_eq_some _ htarget]
  by_cases hheader : c.state.model.header.isSome
  · rw [collectInclusion_of_isSome_header _ path hheader]
    cases levels with
    | zero => exact ⟨_, rfl⟩
    | succ levels =>
      rw [opened?, if_pos hheader, htarget, Option.bind_some, Option.map_eq_none_iff] at h
      refine ⟨.unreadableInclude (Path.resolve c.file path), ?_⟩
      simp only [openingWithin, h]
  · rw [Option.not_isSome_iff_eq_none] at hheader
    exact ⟨_, collectInclusion_of_header_eq_none _ path hheader⟩

/-- A line that opens a file collects it, with one level less. -/
theorem collectLine_of_opened? {inner : Source} (h : opened? read (levels + 1) raw c = some inner) :
    collectLine (openingWithin read (levels + 1)) number raw c
      = collectWithin read levels inner c := by
  rw [opened?] at h
  split at h
  · rename_i hheader
    obtain ⟨path, htarget, hinner⟩ := Option.bind_eq_some_iff.mp h
    obtain ⟨content, hcontent, rfl⟩ := Option.map_eq_some_iff.mp hinner
    rw [collectLine_of_target?_eq_some _ htarget,
      collectInclusion_of_isSome_header _ path hheader]
    simp only [openingWithin, hcontent]
  · cases h

/-- A line that opens no file is accepted with a state, or refused. -/
theorem collectLine_cases (h : opened? read levels raw c = none) :
    (∃ s, collectLine (openingWithin read levels) number raw c = c.accept s) ∨
      ∃ fault, collectLine (openingWithin read levels) number raw c
        = c.refuse fault c.file number := by
  match htarget : (Line.ofText raw).target? with
  | none => exact collectLine_of_target?_eq_none _ htarget
  | some path => exact .inr (collectLine_of_opened?_eq_none htarget h)

end Lines

/-! ## The first refused item -/

/-- An item that is refused adds a diagnostic with its place to the session and leaves the rest. -/
theorem Item.apply_of_not_success {i : Item} {c : Session} (h : (i.apply c).success = false) :
    ∃ fault, i.apply c = c.refuse fault i.file i.line := by
  rw [Item.apply] at h ⊢
  cases happly : i.element.apply c.state with
  | ok s => rw [happly] at h; cases h
  | error fault => exact ⟨fault, rfl⟩

/-- A replay that fails stops at an item, behind others that are all accepted. -/
theorem exists_refused_item {items : List Item} {c : Session}
    (h : (replay items c).success = false) :
    ∃ before i after, items = before ++ i :: after ∧ (replay before c).success = true ∧
      (i.apply (replay before c).session).success = false ∧
      replay items c = i.apply (replay before c).session := by
  induction items generalizing c with
  | nil => cases h
  | cons i items ih =>
    rw [replay_cons] at h
    by_cases hi : (i.apply c).success = true
    · rw [Outcome.andThen, if_pos hi] at h
      obtain ⟨before, j, after, rfl, hbefore, hj, hstop⟩ := ih h
      have hfirst : replay (i :: before) c = replay before (i.apply c).session := by
        rw [replay_cons, Outcome.andThen, if_pos hi]
      refine ⟨i :: before, j, after, rfl, ?_, ?_, ?_⟩
      · rw [hfirst]
        exact hbefore
      · rw [hfirst]
        exact hj
      · rw [hfirst, replay_cons, Outcome.andThen, if_pos hi]
        exact hstop
    · refine ⟨[], i, items, rfl, rfl, Bool.eq_false_iff.mpr hi, ?_⟩
      rw [replay_cons, Outcome.andThen, if_neg hi]
      rfl

/-- **Refused lines change nothing.** A line that includes no file, if it is refused, leaves one
more diagnostic and nothing else; an include line that opens no file is refused and does the same. A
call that fails leaves the state behind the items before the first refused one. -/
theorem refused_lines_change_nothing :
    (∀ opening number raw c, (Line.ofText raw).isInclusion = false →
      (collectLine opening number raw c).success = false →
      ∃ d, (collectLine opening number raw c).session
        = { c with diagnostics := c.diagnostics ++ [d] }) ∧
    (∀ read levels number raw c, (Line.ofText raw).isInclusion = true →
      opened? read levels raw c = none →
      (collectLine (openingWithin read levels) number raw c).success = false ∧
        ∃ d, (collectLine (openingWithin read levels) number raw c).session
          = { c with diagnostics := c.diagnostics ++ [d] }) ∧
    ∀ (call : Call) (c : Session), (call.perform c).success = false →
      ∃ before i after, call.items = before ++ i :: after ∧ (replay before c).success = true ∧
        (i.apply (replay before c).session).success = false ∧
        (call.perform c).session.state = (replay before c).session.state := by
  refine ⟨fun opening number raw c h hfails ↦ ?_, fun read levels number raw c h hopened ↦ ?_,
    fun call c hfails ↦ ?_⟩
  · rcases collectLine_of_target?_eq_none opening (Line.target?_eq_none h) with
      ⟨s, hs⟩ | ⟨fault, hfault⟩
    · rw [hs] at hfails
      cases hfails
    · rw [hfault]
      exact ⟨⟨fault, c.file, number⟩, rfl⟩
  · have hrefused : ∃ fault, collectLine (openingWithin read levels) number raw c
        = c.refuse fault c.file number := by
      match htarget : (Line.ofText raw).target? with
      | none => exact ⟨_, collectLine_of_isInclusion _ h htarget⟩
      | some path => exact collectLine_of_opened?_eq_none htarget hopened
    obtain ⟨fault, hfault⟩ := hrefused
    rw [hfault]
    exact ⟨rfl, ⟨fault, c.file, number⟩, rfl⟩
  · rw [call.perform_eq_replay] at hfails ⊢
    obtain ⟨before, i, after, hitems, hbefore, hi, hstop⟩ := exists_refused_item hfails
    obtain ⟨fault, hfault⟩ := Item.apply_of_not_success hi
    refine ⟨before, i, after, hitems, hbefore, hi, ?_⟩
    rw [hstop, hfault]
    rfl

/-- A session with a header and nothing else. -/
def headedSession : Session :=
  ((Call.source (fun _ ↦ none) ⟨"header", ["meta\tApi\t1.0.0.0"]⟩).perform Session.initial).session

/-- A collection that fails behind an include that it has accepted. -/
def interruptedCall : Call :=
  .source (fun _ ↦ some "dll\ta.dll") ⟨"main", ["include\tlib", "struct\tItem", "meth\tGet"]⟩

theorem refused_lines_change_nothing_behind_header :
    (∃ d, (collectLine (openingWithin (fun _ ↦ none) 1) 2 "variant\tLow\t1" headedSession).session
      = { headedSession with diagnostics := headedSession.diagnostics ++ [d] }) ∧
    (∃ d, (collectLine (openingWithin (fun _ ↦ none) 1) 2 "include\tlib" headedSession).session
      = { headedSession with diagnostics := headedSession.diagnostics ++ [d] }) ∧
    ∃ before i after, interruptedCall.items = before ++ i :: after ∧
      (replay before headedSession).success = true ∧
      (i.apply (replay before headedSession).session).success = false ∧
      (interruptedCall.perform headedSession).session.state
        = (replay before headedSession).session.state := by
  obtain ⟨hline, hinclusion, hcall⟩ := refused_lines_change_nothing
  refine ⟨hline _ _ _ _ ?_ ?_, (hinclusion _ _ _ _ _ ?_ ?_).2, hcall _ _ ?_⟩ <;> decide

end NativeApi

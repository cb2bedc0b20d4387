import NativeApi.Proofs.PrintedLines

/-!
# Imported libraries

A library is kept in three forms: as written, in the slot for the functions to come; as written
again, in each function that has been declared since; and in small letters, in the list of libraries
to import. Only the last is printed at the head of the text, so it has to know of whatever the other
two hold.

The list is a set written down: what is in it says all (`Model.eq_of_mem_dlls_iff`), because it is
strictly increasing. It holds the libraries of the dll lines accepted so far and no others, whatever
stands between those lines.
-/

namespace NativeApi

/-! ## Sorted lists of texts -/

namespace Model

variable {t : Text} {ts us : List Text}

theorem pairwise_insertText (h : ts.Pairwise (· < ·)) : (insertText t ts).Pairwise (· < ·) := by
  induction ts with
  | nil => exact List.pairwise_singleton _ _
  | cons u ts ih =>
    obtain ⟨hu, hts⟩ := List.pairwise_cons.mp h
    rw [insertText]
    by_cases hlt : t < u
    · rw [if_pos hlt, List.pairwise_cons]
      refine ⟨fun v hv ↦ ?_, h⟩
      rcases List.mem_cons.mp hv with rfl | hv
      · exact hlt
      · exact List.lt_trans hlt (hu v hv)
    · rw [if_neg hlt]
      by_cases heq : t = u
      · rw [if_pos heq]
        exact h
      · have hgt : u < t := Std.lt_of_le_of_ne (List.not_lt.mp hlt) (Ne.symm heq)
        rw [if_neg heq, List.pairwise_cons]
        refine ⟨fun v hv ↦ ?_, ih hts⟩
        rcases mem_insertText_iff.mp hv with rfl | hv
        · exact hgt
        · exact hu v hv

/-- A strictly increasing list is known by its elements. -/
theorem eq_of_mem_iff (hts : ts.Pairwise (· < ·)) (hus : us.Pairwise (· < ·))
    (h : ∀ t, t ∈ ts ↔ t ∈ us) : ts = us := by
  have hnodup {l : List Text} (hl : l.Pairwise (· < ·)) : l.Nodup := by
    refine hl.imp ?_
    rintro t u htu rfl
    exact List.lt_irrefl t htu
  refine List.Perm.eq_of_pairwise (fun t u _ _ htu hut ↦ ?_) hts hus
    ((List.perm_ext_iff_of_nodup (hnodup hts) (hnodup hus)).mpr h)
  exact absurd (List.lt_trans htu hut) (List.lt_irrefl t)

end Model

/-! ## Libraries of a history -/

/-- The library that a declaration imports, in small letters. -/
def Declaration.library? : Declaration → Option Text
  | dll name => some (Text.toLower name)
  | _ => none

/-- The libraries that declarations import, each as often as it is imported. -/
def librariesOf (ds : List Declaration) : List Text := ds.filterMap Declaration.library?

namespace State

variable {s : State} {d : Declaration} {e : Entry}

/-- Only a library changes the list of libraries. -/
theorem dlls_add_cases (s : State) (e : Entry) :
    (∃ name, e = .dll name ∧
      (s.add e).model.dlls = Model.insertText (Text.toLower name) s.model.dlls) ∨
    (∀ name, e ≠ .dll name) ∧ (s.add e).model.dlls = s.model.dlls := by
  cases e with
  | dll name => exact .inl ⟨name, rfl, rfl⟩
  | argument a =>
    refine .inr ⟨fun _ h ↦ (by cases h), ?_⟩
    simp only [add]
    split
    · rfl
    · rename_i slot hslot
      cases slot <;> rfl
  | _ =>
    refine .inr ⟨fun _ h ↦ (by cases h), ?_⟩
    simp only [add]
    try split
    all_goals rfl

theorem mem_dlls_add_iff (h : s.read d = .ok e) {dll : Text} :
    dll ∈ (s.add e).model.dlls ↔ d.library? = some dll ∨ dll ∈ s.model.dlls := by
  have hreads := (read_eq_ok.mp h).1
  rcases s.dlls_add_cases e with ⟨name, rfl, hdlls⟩ | ⟨hne, hdlls⟩
  · rw [hdlls, Model.mem_insertText_iff]
    cases hreads
    rw [Declaration.library?, Option.some.injEq, eq_comm]
  · rw [hdlls]
    cases hreads with
    | dll name => exact absurd rfl (hne name)
    | _ => simp [Declaration.library?]

theorem Run.mem_dlls_iff {ds : List Declaration} {es : List Entry} (h : s.Run ds es) {dll : Text} :
    dll ∈ (s.addAll es).model.dlls ↔ dll ∈ librariesOf ds ∨ dll ∈ s.model.dlls := by
  induction h with
  | nil s => simp [librariesOf]
  | cons hread t ih =>
    rw [addAll_cons, ih, mem_dlls_add_iff hread, ← or_assoc]
    refine or_congr_left ?_
    simp only [librariesOf, List.mem_filterMap, List.mem_cons, exists_eq_or_imp]
    exact or_comm

/-! ### The invariant -/

/-- The list of libraries is strictly increasing, and it knows of the library in the slot and of
those of the functions. -/
structure ImportsKnown (s : State) : Prop where
  sorted : s.model.dlls.Pairwise (· < ·)
  slot : ∀ name ∈ s.scope.dll, Text.toLower name ∈ s.model.dlls
  functions : ∀ f ∈ s.model.functions, Text.toLower f.dll ∈ s.model.dlls

theorem importsKnown_initial : initial.ImportsKnown where
  sorted := List.Pairwise.nil
  slot _ hname := absurd hname (Option.not_mem_none _)
  functions _ hf := absurd hf List.not_mem_nil

/-- A function has its library from the slot, and keeps it. -/
theorem dll_of_mem_functions_add {f : FreeFunction} (hf : f ∈ (s.add e).model.functions) :
    (∃ g ∈ s.model.functions, g.dll = f.dll) ∨ f.dll ∈ s.scope.dll := by
  cases e with
  | function name returnType convention =>
    simp only [add] at hf
    split at hf
    · exact .inl ⟨f, hf, rfl⟩
    · rename_i dll hdll
      rcases List.mem_append.mp hf with hf | hf
      · exact .inl ⟨f, hf, rfl⟩
      · rw [List.mem_singleton.mp hf]
        exact .inr hdll
  | argument a =>
    simp only [add] at hf
    split at hf
    · exact .inl ⟨f, hf, rfl⟩
    · rename_i slot hslot
      cases slot with
      | function index =>
        rcases mem_modify hf with hf | ⟨g, hg, rfl⟩
        · exact .inl ⟨f, hf, rfl⟩
        · exact .inl ⟨g, hg, rfl⟩
      | _ => exact .inl ⟨f, hf, rfl⟩
  | _ =>
    simp only [add] at hf
    try split at hf
    all_goals exact .inl ⟨f, hf, rfl⟩

theorem slot_add {name : Text} (h : name ∈ (s.add e).scope.dll) :
    e = .dll name ∨ name ∈ s.scope.dll := by
  cases e with
  | dll new =>
    rw [Option.mem_some_iff.mp h]
    exact .inl rfl
  | _ =>
    simp only [add] at h
    try split at h
    all_goals exact .inr h

theorem ImportsKnown.add (hs : s.ImportsKnown) (e : Entry) : (s.add e).ImportsKnown := by
  have hgrows : ∀ dll ∈ s.model.dlls, dll ∈ (s.add e).model.dlls := by
    intro dll hdll
    rcases s.dlls_add_cases e with ⟨name, -, hdlls⟩ | ⟨-, hdlls⟩
    · rw [hdlls]
      exact Model.mem_insertText_iff.mpr (.inr hdll)
    · rw [hdlls]
      exact hdll
  constructor
  · rcases s.dlls_add_cases e with ⟨name, -, hdlls⟩ | ⟨-, hdlls⟩
    · rw [hdlls]
      exact Model.pairwise_insertText hs.sorted
    · rw [hdlls]
      exact hs.sorted
  · intro name hname
    rcases slot_add hname with rfl | hname
    · exact Model.mem_insertText_iff.mpr (.inl rfl)
    · exact hgrows _ (hs.slot name hname)
  · intro f hf
    rcases dll_of_mem_functions_add hf with ⟨g, hg, hdll⟩ | hdll
    · rw [← hdll]
      exact hgrows _ (hs.functions g hg)
    · exact hgrows _ (hs.slot _ hdll)

end State

theorem Visited.importsKnown {s : State} (h : Visited s) : s.ImportsKnown :=
  h.induction State.importsKnown_initial fun _ _ e hs _ ↦ hs.add e

theorem VisitedBy.mem_dlls_iff {ds : List Declaration} {s : State} (h : VisitedBy ds s)
    {dll : Text} :
    dll ∈ s.model.dlls ↔ dll ∈ librariesOf ds := by
  obtain ⟨es, hrun, rfl⟩ := h.exists_run
  rw [hrun.mem_dlls_iff]
  exact or_iff_left List.not_mem_nil

/-! ## Imports in the text -/

/-- The lines of a text import the libraries of a model and no others, and whatever library the code
of a function is taken from is, but for the case of its letters, one of them. -/
structure Model.ImportsInText (m : Model) : Prop where
  imports : ∃ own, m.render.text.lines = m.dlls.map importLine ++ own ∧
    ∀ line ∈ own, ∀ dll, line ≠ importLine dll
  implementations : ∀ line ∈ m.render.text.lines, implementationHead <+: line →
    ∃ f ∈ m.functions, line = f.implementationLine ∧
      importLine (Text.toLower f.dll) ∈ m.render.text.lines

theorem Model.importsInText {m : Model} {header : Header} (hm : m.AllTexts Text.OneLine)
    (hheader : m.header = some header)
    (hfunctions : ∀ f ∈ m.functions, Text.toLower f.dll ∈ m.dlls) : m.ImportsInText := by
  obtain ⟨own, hlines, hown⟩ := lines_render hm hheader
  refine ⟨⟨own, hlines, fun line hline ↦ (hown line hline).not_import⟩, fun line hline hstart ↦ ?_⟩
  have himports {f : FreeFunction} (hf : f ∈ m.functions) :
      importLine (Text.toLower f.dll) ∈ m.render.text.lines := by
    rw [hlines]
    exact List.mem_append_left _ (List.mem_map_of_mem (hfunctions f hf))
  rw [hlines, List.mem_append] at hline
  rcases hline with hline | hline
  · obtain ⟨dll, -, rfl⟩ := List.mem_map.mp hline
    have hapart : Apart importHead implementationHead := by decide
    exact absurd hstart (hapart.not_start (importHead_of_importLine dll))
  · obtain ⟨f, hf, hfline⟩ := (hown line hline).implementation hstart
    exact ⟨f, hf, hfline, himports hf⟩

/-- **Imports are complete, in small letters and sorted.** In every state that collections pass
through, the libraries are those of the dll lines accepted so far, in small letters, each of them
once and in strictly increasing order of bytes; so neither the order of those lines nor the case of
their letters matters. The library of every function is among them. In the text they come first, and
where no operand has a line feed, which is so in all files, no other line imports a library and
every line that names the library of a function stands behind the line that imports it. -/
theorem imports_are_exact {ds : List Declaration} {s : State} (h : VisitedBy ds s) :
    (∀ dll, dll ∈ s.model.dlls ↔ ∃ name, Declaration.dll name ∈ ds ∧ Text.toLower name = dll) ∧
      s.model.dlls.Pairwise (· < ·) ∧
      (∀ (es : List Declaration) (t : State), VisitedBy es t →
        (∀ dll, dll ∈ librariesOf es ↔ dll ∈ librariesOf ds) → t.model.dlls = s.model.dlls) ∧
      (∀ f ∈ s.model.functions, Text.toLower f.dll ∈ s.model.dlls) ∧
      ∀ header, s.model.header = some header →
        s.model.render.text
            = s.model.dlls.flatMap importLine ++ s.model.withoutDlls.render.text ∧
          ((∀ d ∈ ds, d.OneLine) → s.model.ImportsInText) := by
  have hknown := h.visited.importsKnown
  refine ⟨fun dll ↦ ?_, hknown.sorted, fun es t ht hsame ↦ ?_, hknown.functions,
    fun header hheader ↦ ⟨Model.text_render hheader, fun hds ↦ ?_⟩⟩
  · rw [h.mem_dlls_iff, librariesOf, List.mem_filterMap]
    constructor
    · rintro ⟨d, hd, hlibrary⟩
      cases d with
      | dll name =>
        cases hlibrary
        exact ⟨name, hd, rfl⟩
      | _ => cases hlibrary
    · rintro ⟨name, hname, rfl⟩
      exact ⟨.dll name, hname, rfl⟩
  · refine Model.eq_of_mem_iff ht.visited.importsKnown.sorted hknown.sorted fun dll ↦ ?_
    rw [ht.mem_dlls_iff, h.mem_dlls_iff, hsame]
  · exact Model.importsInText (h.oneLine hds) hheader hknown.functions

/-- A file that imports a library, includes a file that imports two, one of them again, declares a
function in the last of them, and fails. -/
def importingFiles (path : Text) : Option Text :=
  if path = "main" then
    some "meta\tApi\t1.0.0.0\ndll\tb.dll\ninclude\tlib\nfn\tGo\tvoid\t0\ndll\n"
  else some "dll\tB.DLL\ndll\tA.dll"

def importingCall : Call := .path importingFiles "main"

def importingState : State := (replay importingCall.items Session.initial).session.state

theorem imports_are_exact_across_files :
    (replay importingCall.items Session.initial).success = false ∧
      VisitedBy [.header "Api" "1.0.0.0", .dll "b.dll", .dll "B.DLL", .dll "A.dll",
        .function "Go" "void" "0" none] importingState ∧
      importingState.model.dlls = ["a.dll", "b.dll"] ∧
      importingState.model.ImportsInText ∧
      importLine (Text.toLower "A.dll") ∈ importingState.model.render.text.lines := by
  have haccepted : acceptedIn importingCall.items Session.initial
      = [.header "Api" "1.0.0.0", .dll "b.dll", .dll "B.DLL", .dll "A.dll",
        .function "Go" "void" "0" none] := by decide
  have hvisited : VisitedBy ([] ++ acceptedIn importingCall.items Session.initial) importingState :=
    .of_call .initial importingCall (List.append_nil _).symm
  have hone : ∀ d ∈ [] ++ acceptedIn importingCall.items Session.initial, d.OneLine :=
    fun d hd ↦ oneLine_of_mem_acceptedIn_path hd
  have hheader : importingState.model.header = some ⟨"Api", "1.0.0.0"⟩ := by decide
  have hdlls : importingState.model.dlls = ["a.dll", "b.dll"] := by decide
  obtain ⟨-, -, -, -, htext⟩ := imports_are_exact hvisited
  have himports := (htext _ hheader).2 hone
  obtain ⟨own, hlines, -⟩ := himports.imports
  refine ⟨by decide, ?_, hdlls, himports, ?_⟩
  · rw [haccepted] at hvisited
    exact hvisited
  · rw [hlines, hdlls]
    exact List.mem_append_left _ (by decide)

end NativeApi

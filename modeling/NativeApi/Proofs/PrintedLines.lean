import Mathlib.Data.List.Infix
import NativeApi.Proofs.Association
import NativeApi.Proofs.OneLine

/-!
# Lines of assembly text

Assembly text is written in whole lines. Where a model has texts of one line only, each line is the
one that a single place of the printer has begun and ended, and it shows by its first bytes which
place that was. So a line that looks like the import of a library comes from the list of libraries,
and one that looks like an imported function comes from a function (`Model.lines_render`).

Both kinds of lines start at the margin or four blanks behind it, where no name and no type of a
model is ever written.
-/

namespace NativeApi

open Text (newline quoted)
open Rendering (write stop concat block indent)

variable {P Q : Text → Prop}

/-! ## Whole lines -/

namespace Text

variable {t u body ending : Text}

/-- The text ends the line that it stands in. -/
def EndsLine (t : Text) : Prop := ∃ body : Text, body.OneLine ∧ t = body ++ [newline]

theorem endsLine_newline : EndsLine "\n" := ⟨[], List.not_mem_nil, rfl⟩

theorem EndsLine.literal {cs : List Char} (hlast : (cs.map Char.toUInt8).getLast? = some newline)
    (h : OneLine (cs.map Char.toUInt8).dropLast) : EndsLine (ofLiteral (String.ofList cs)) := by
  refine ⟨_, h, ?_⟩
  rw [ofLiteral_ofList]
  exact (List.dropLast_append_getLast? newline hlast).symm

theorem EndsLine.append (ht : OneLine t) (hu : EndsLine u) : EndsLine (t ++ u) := by
  obtain ⟨body, hbody, rfl⟩ := hu
  exact ⟨t ++ body, ht.append hbody, (List.append_assoc _ _ _).symm⟩

/-- A text of whole lines, each with a property. -/
inductive WholeLines (P : Text → Prop) : Text → Prop
  | nil : WholeLines P []
  | cons {body rest : Text} (hbody : body.OneLine) (h : P (body ++ [newline]))
      (t : WholeLines P rest) : WholeLines P (body ++ newline :: rest)

namespace WholeLines

theorem append (ht : WholeLines P t) (hu : WholeLines P u) : WholeLines P (t ++ u) := by
  induction ht with
  | nil => exact hu
  | cons hbody h _ ih =>
    rw [List.append_assoc, List.cons_append]
    exact .cons hbody h ih

theorem line (hbody : body.OneLine) (hending : ending.EndsLine) (h : P (body ++ ending)) :
    WholeLines P (body ++ ending) := by
  obtain ⟨t, ht, rfl⟩ := hending
  rw [← List.append_assoc] at h ⊢
  exact .cons (hbody.append ht) h .nil

/-- Whole lines and the opening of one more. -/
theorem append_opening (ht : WholeLines P t) {opening : Text} (hopening : opening.OneLine)
    (hending : ending.EndsLine) (h : P (opening ++ ending)) :
    WholeLines P ((t ++ opening) ++ ending) := by
  rw [List.append_assoc]
  exact ht.append (line hopening hending h)

theorem mono (hPQ : ∀ line, P line → Q line) (ht : WholeLines P t) : WholeLines Q t := by
  induction ht with
  | nil => exact .nil
  | cons hbody h _ ih => exact .cons hbody (hPQ _ h) ih

theorem compositional : Compositional (WholeLines P) := ⟨.nil, fun _ _ ht hu ↦ ht.append hu⟩

theorem flatMap {α : Type} {f : α → Text} {as : List α} (h : ∀ a ∈ as, WholeLines P (f a)) :
    WholeLines P (as.flatMap f) := compositional.flatMap h

/-- The lines of the text are those that it is made of. -/
theorem forall_mem_lines (ht : WholeLines P t) : ∀ line ∈ t.lines, P line := by
  induction ht with
  | nil => exact fun _ h ↦ absurd h List.not_mem_nil
  | cons hbody h _ ih =>
    rw [lines_append_newline hbody, List.forall_mem_cons]
    exact ⟨h, ih⟩

theorem lines_append (ht : WholeLines P t) (u : Text) : (t ++ u).lines = t.lines ++ u.lines := by
  induction ht with
  | nil => rfl
  | cons hbody _ _ ih =>
    rw [List.append_assoc, List.cons_append, lines_append_newline hbody, ih,
      lines_append_newline hbody, List.cons_append]

end WholeLines

end Text

namespace Rendering

/-- What is written are whole lines, each with a property, whether or not writing ends early. -/
def WholeLines (P : Text → Prop) (r : Rendering) : Prop := r.text.WholeLines P

variable {r s : Rendering}

theorem WholeLines.append (hr : r.WholeLines P) (hs : s.WholeLines P) : (r ++ s).WholeLines P := by
  rw [WholeLines, text_append]
  split
  · exact Text.WholeLines.append hr hs
  · rw [List.append_nil]
    exact hr

theorem WholeLines.write {t : Text} (h : t.WholeLines P) : (write t).WholeLines P := h

theorem WholeLines.concat {α : Type} {render : α → Rendering} {as : List α}
    (h : ∀ a ∈ as, (render a).WholeLines P) : (concat (as.map render)).WholeLines P :=
  concat_map_induction (P := WholeLines P) .nil (fun _ _ hr hs ↦ hr.append hs) h

theorem WholeLines.mono (hPQ : ∀ line, P line → Q line) (hr : r.WholeLines P) : r.WholeLines Q :=
  Text.WholeLines.mono hPQ hr

end Rendering

/-! ## Kinds of lines -/

/-- The line that imports a library. -/
def importLine (dll : Text) : Text := ".module extern " ++ quoted dll ++ "\n"

/-- How the line begins that tells where the code of a function is. -/
def implementationHead : Text := "    .method public hidebysig static pinvokeimpl(\""

/-- The line that tells in which library the code of a function is, and how it is called. -/
def FreeFunction.implementationLine (f : FreeFunction) : Text :=
  implementationHead ++ f.dll ++ "\" nomangle " ++ f.convention ++ ")\n"

/-- A line that imports no library and tells of no function where its code is. -/
structure PlainLine (line : Text) : Prop where
  not_import : ∀ dll, line ≠ importLine dll
  not_implementation : ¬implementationHead <+: line

/-- A line of a model without its libraries. -/
structure Model.OwnLine (m : Model) (line : Text) : Prop where
  not_import : ∀ dll, line ≠ importLine dll
  implementation : implementationHead <+: line → ∃ f ∈ m.functions, line = f.implementationLine

theorem PlainLine.ownLine {line : Text} (h : PlainLine line) (m : Model) : m.OwnLine line :=
  ⟨h.not_import, fun himplementation ↦ absurd himplementation h.not_implementation⟩

/-- Neither text begins with the other, so no text begins with both. -/
def Apart (t u : Text) : Prop := ¬t <+: u ∧ ¬u <+: t

instance (t u : Text) : Decidable (Apart t u) := inferInstanceAs (Decidable (_ ∧ _))

theorem Apart.literal {cs ds : List Char}
    (h : Apart (cs.map Char.toUInt8) (ds.map Char.toUInt8)) :
    Apart (Text.ofLiteral (String.ofList cs)) (Text.ofLiteral (String.ofList ds)) := by
  rwa [Text.ofLiteral_ofList, Text.ofLiteral_ofList]

theorem Apart.not_start {t u line : Text} (h : Apart t u) (ht : t <+: line) : ¬u <+: line := by
  intro hu
  rcases List.prefix_or_prefix_of_prefix ht hu with htu | hut
  · exact h.1 htu
  · exact h.2 hut

/-- How the line of a library begins. -/
def importHead : Text := ".module extern '"

theorem importHead_of_importLine (dll : Text) : importHead <+: importLine dll := by
  refine ⟨dll ++ "'" ++ "\n", ?_⟩
  rw [importLine, quoted, show importHead = ".module extern " ++ "'" from rfl]
  simp only [List.append_assoc]

theorem ne_importLine_of_start {start line : Text} (hline : start <+: line)
    (hstart : Apart start importHead) (dll : Text) : line ≠ importLine dll := by
  intro hdll
  rw [hdll] at hline
  exact hstart.not_start hline (importHead_of_importLine dll)

/-- The first bytes of a line can tell that it is plain. -/
theorem plainLine_of_start (start : Text) {line : Text} (hline : start <+: line)
    (himport : Apart start importHead) (himplementation : Apart start implementationHead) :
    PlainLine line :=
  ⟨ne_importLine_of_start hline himport, himplementation.not_start hline⟩

theorem Apart.append {t u : Text} (h : Apart t u) (v : Text) : Apart (t ++ v) u :=
  ⟨fun hprefix ↦ h.1 ((List.prefix_append t v).trans hprefix),
    h.not_start (List.prefix_append t v)⟩

/-- Neither kind of line is indented further than one level. -/
theorem plainLine_of_deep (level : Nat) {line : Text} (hline : indent (level + 2) <+: line) :
    PlainLine line := by
  have hstart : List.replicate 5 Text.blank <+: indent (level + 2) := by
    refine ⟨List.replicate (4 * level + 3) Text.blank, ?_⟩
    rw [List.replicate_append_replicate, indent]
    congr 1
    omega
  exact plainLine_of_start _ (hstart.trans hline) (by decide) (by decide)

theorem plainLine_of_indent (level : Nat) (start : Text) {line : Text}
    (hline : indent (level + 1) ++ start <+: line)
    (hstart : Apart (indent 1 ++ start) implementationHead) : PlainLine line := by
  cases level with
  | zero =>
    have hblank : Apart (indent 1) importHead := by decide
    exact plainLine_of_start _ hline (hblank.append start) hstart
  | succ level => exact plainLine_of_deep level ((List.prefix_append _ start).trans hline)

/-- A line of which both the start and the ending are known. -/
theorem plainLine_of_ending (start ending : Text) {line : Text} (hline : start <+: line)
    (hstart : Apart start implementationHead) (hending : ending <:+ line)
    (hquote : ¬ending <:+ "'\n" ∧ ¬"'\n" <:+ ending) : PlainLine line := by
  refine ⟨fun dll hdll ↦ ?_, hstart.not_start hline⟩
  have hclose : ("'\n" : Text) <:+ importLine dll := by
    refine ⟨".module extern " ++ "'" ++ dll, ?_⟩
    rw [importLine, quoted, show ("'\n" : Text) = "'" ++ "\n" from rfl]
    simp only [List.append_assoc]
  rw [hdll] at hending
  rcases List.suffix_or_suffix_of_suffix hending hclose with h | h
  · exact hquote.1 h
  · exact hquote.2 h

/-- A line that is fixed throughout. -/
theorem wholeLines_plainLine {line : Text} (hending : line.EndsLine)
    (himport : Apart line importHead) (himplementation : Apart line implementationHead) :
    line.WholeLines PlainLine := by
  have hplain : PlainLine ([] ++ line) :=
    plainLine_of_start line (List.prefix_refl _) himport himplementation
  exact .line List.not_mem_nil hending hplain

theorem wholeLines_newline : Text.WholeLines PlainLine "\n" :=
  wholeLines_plainLine Text.endsLine_newline (by decide) (by decide)

/-! ## Parts of lines -/

theorem oneLine_indent (level : Nat) : (indent level).OneLine :=
  fun hmem ↦ absurd (List.eq_of_mem_replicate hmem) (by decide)

namespace Model

variable {m : Model} (hm : m.AllTexts Text.OneLine)
include hm

theorem oneLine_qualified {name : Text} (hname : name.OneLine) : (m.qualified name).OneLine :=
  hm.qualified Text.compositional_oneLine (by decide) hname

theorem oneLine_ilType {type : TypeReference} (htype : type.AllTexts Text.OneLine) :
    (m.ilType type).OneLine := by
  have hfixed : ∀ t ∈ Resolution.fixedTexts, t.OneLine := by decide
  exact hm.ilType Text.compositional_oneLine hfixed htype

end Model

/-! ## Members -/

theorem oneLine_remark {comment : Text} (h : comment.OneLine) : (remark comment).OneLine :=
  .showIf (.append (by decide) h) _

/-- The lines of a custom attribute, by how they begin. -/
theorem wholeLines_customAttribute_of {P : Text → Prop} (level : Nat) {constructor comment : Text}
    (blob : Blob) (hconstructor : constructor.OneLine) (hcomment : comment.OneLine)
    (hopening : ∀ line : Text, (indent level ++ ".custom instance void " : Text) <+: line → P line)
    (hblob : ∀ line : Text, indent (level + 1) <+: line → P line)
    (hclosing : P (indent level ++ ")\n")) :
    (customAttribute level constructor blob comment).WholeLines P := by
  have hlines : customAttribute level constructor blob comment
      = (indent level ++ ".custom instance void " ++ constructor ++ " = (\n")
        ++ (indent (level + 1) ++ Hex.dump blob ++ remark comment ++ "\n")
        ++ (indent level ++ ")\n") := by
    simp only [customAttribute, List.append_assoc]
  have hhead : Text.OneLine ".custom instance void " := .literal (by decide)
  rw [hlines]
  refine .append (.append ?_ ?_) ?_
  · exact .line (.append (.append (oneLine_indent _) hhead) hconstructor)
      (.literal (by decide) (by decide)) (hopening _ (by simp))
  · exact .line
      (.append (.append (oneLine_indent _) (Hex.oneLine_dump _)) (oneLine_remark hcomment))
      Text.endsLine_newline (hblob _ (by simp))
  · exact .line (oneLine_indent _) (.literal (by decide) (by decide)) hclosing

theorem wholeLines_customAttribute (level : Nat) {constructor comment : Text} (blob : Blob)
    (hconstructor : constructor.OneLine) (hcomment : comment.OneLine) :
    (customAttribute (level + 1) constructor blob comment).WholeLines PlainLine := by
  refine wholeLines_customAttribute_of (level + 1) blob hconstructor hcomment ?_ ?_ ?_
  · exact fun _ h ↦ plainLine_of_indent level ".custom instance void " h (by decide)
  · exact fun _ h ↦ plainLine_of_deep level h
  · exact plainLine_of_indent level ")\n" (List.prefix_refl _) (by decide)

/-- A line with nothing but a brace. -/
theorem wholeLines_brace (level : Nat) {brace : Text} (hending : brace.EndsLine)
    (himport : Apart brace importHead) (himplementation : Apart brace implementationHead)
    (hindented : Apart (indent 1 ++ brace) implementationHead) :
    (indent level ++ brace).WholeLines PlainLine := by
  refine .line (oneLine_indent level) hending ?_
  cases level with
  | zero => exact plainLine_of_start brace (List.prefix_refl _) himport himplementation
  | succ level => exact plainLine_of_indent level brace (List.prefix_refl _) hindented

theorem Rendering.WholeLines.block (hplain : ∀ line, PlainLine line → P line) (level : Nat)
    {body : Rendering} (hbody : body.WholeLines P) : (block level body).WholeLines P := by
  refine .append (.append (.write (.mono hplain ?_)) hbody) (.write (.mono hplain ?_))
  · exact wholeLines_brace level (.literal (by decide) (by decide)) (.literal (by decide))
      (.literal (by decide)) (by decide)
  · exact wholeLines_brace level (.literal (by decide) (by decide)) (.literal (by decide))
      (.literal (by decide)) (by decide)

theorem oneLine_platformAttribute {constructor : Text} (h : constructor.OneLine) :
    (platformAttribute constructor).OneLine := .append (.literal (by decide)) h

theorem ArraySize.oneLine_comment (size : ArraySize) : size.comment.OneLine := by
  cases size with
  | inArgument index => exact .append (.literal (by decide)) (Text.oneLine_decimal index)
  | constant count => exact .append (.literal (by decide)) (Text.oneLine_decimal count)

theorem wholeLines_associatedEnum (level : Nat) {type : TypeReference}
    (htype : type.AllTexts Text.OneLine) :
    (associatedEnum (level + 1) type.backingEnum).WholeLines PlainLine := by
  cases hname : type.backingEnum with
  | none => exact .nil
  | some name =>
    rw [associatedEnum]
    split
    · exact .nil
    · exact wholeLines_customAttribute level _ (oneLine_platformAttribute (.literal (by decide)))
        (htype.2 name hname)

namespace Argument

variable {a : Argument}

theorem wholeLines_markerAttribute (level : Nat) (flag : Bool) {constructor : Text}
    (h : constructor.OneLine) :
    (markerAttribute (level + 1) flag constructor).WholeLines PlainLine := by
  cases flag
  · exact .nil
  · exact wholeLines_customAttribute level _ (oneLine_platformAttribute h) List.not_mem_nil

theorem wholeLines_sizeAttribute (level : Nat) (function : Text) (a : Argument) :
    (a.sizeAttribute (level + 1) function).WholeLines PlainLine := by
  rw [sizeAttribute]
  split
  · exact .nil
  · split
    · exact .nil
    · exact wholeLines_customAttribute level _ (oneLine_platformAttribute (.literal (by decide)))
        (ArraySize.oneLine_comment _)

theorem wholeLines_attributes (level : Nat) (function : Text) (position : Nat)
    (ha : a.AllTexts Text.OneLine) :
    (a.attributes (level + 2) function position).WholeLines PlainLine := by
  rw [attributes]
  split
  · refine .append (.append (.write (.append (.append ?_ ?_) ?_)) ?_) ?_
    · refine .line (.append (.append (oneLine_indent _) (by decide)) (Text.oneLine_decimal _))
        (.literal (by decide) (by decide)) ?_
      exact plainLine_of_deep level (by simp)
    · exact wholeLines_markerAttribute (level + 2) _ (.literal (by decide))
    · exact wholeLines_markerAttribute (level + 2) _ (.literal (by decide))
    · exact wholeLines_sizeAttribute (level + 2) function a
    · exact wholeLines_associatedEnum (level + 2) ha.type
  · exact .nil

end Argument

theorem wholeLines_argumentAttributes (level : Nat) (function : Text) (position : Nat)
    {as : List Argument} (has : ∀ a ∈ as, a.AllTexts Text.OneLine) :
    (argumentAttributes (level + 2) function position as).WholeLines PlainLine := by
  induction as generalizing position with
  | nil => exact .nil
  | cons a as ih =>
    obtain ⟨ha, has⟩ := List.forall_mem_cons.mp has
    exact .append (Argument.wholeLines_attributes level function position ha)
      (ih (position + 1) has)

theorem oneLine_guidConstructor : guidConstructor.OneLine :=
  oneLine_platformAttribute (.append (.literal (by decide)) (.literal (by decide)))

theorem GuidConstant.wholeLines_render {c : GuidConstant} (hc : c.AllTexts Text.OneLine) :
    c.render.WholeLines PlainLine := by
  have hstart : Text.OneLine "    .field public static valuetype [netstandard]System.Guid " :=
    .literal (by decide)
  refine .append ?_ (wholeLines_customAttribute 0 _ oneLine_guidConstructor hc.display)
  refine .line (hstart.append hc.name.quoted) Text.endsLine_newline ?_
  exact plainLine_of_start "    .field public static valuetype [netstandard]System.Guid " (by simp)
    (.literal (by decide)) (.literal (by decide))

/-- A class is made of whole lines if its members are. -/
theorem wholeLines_classBlock (hplain : ∀ line, PlainLine line → P line) {head base : Text}
    {members : Rendering} (hhead : head.OneLine) (hfirst : PlainLine (head ++ "\n"))
    (hbase : base.OneLine) (hsecond : PlainLine (base ++ "\n"))
    (hmembers : members.WholeLines P) : (classBlock head base members).WholeLines P := by
  have hlines : head ++ "\n" ++ base ++ "\n" = (head ++ "\n") ++ (base ++ "\n") :=
    List.append_assoc _ _ _
  refine .append (.append (.write ?_) (.block hplain 0 hmembers))
    (.write (wholeLines_newline.mono hplain))
  rw [hlines]
  exact .append (.line hhead Text.endsLine_newline (hplain _ hfirst))
    (.line hbase Text.endsLine_newline (hplain _ hsecond))

theorem FunctionPointer.wholeLines_constructor : constructor.WholeLines PlainLine := by
  have hlines : ("\n    .method public hidebysig specialname rtspecialname\n" : Text)
      = "\n" ++ "    .method public hidebysig specialname rtspecialname\n" :=
    Text.ofLiteral_eq_append rfl
  refine .append (.append (.write ?_) (.block (fun _ h ↦ h) 1 .nil)) (.write wholeLines_newline)
  rw [hlines]
  refine .append (.append (.append (.append (.append wholeLines_newline ?_) ?_) ?_) ?_) ?_
  all_goals
    exact wholeLines_plainLine (.literal (by decide) (by decide)) (.literal (by decide))
      (.literal (by decide))

section Model

variable {m : Model} (hm : m.AllTexts Text.OneLine)
include hm

theorem Argument.oneLine_declaration {a : Argument} (ha : a.AllTexts Text.OneLine) :
    (a.declaration m).OneLine := by
  have hin : Text.OneLine "[in] " := .literal (by decide)
  have hout : Text.OneLine "[out] " := .literal (by decide)
  have hopt : Text.OneLine "[opt] " := .literal (by decide)
  refine .append (.append (.append (.append (.append ?_ ?_) ?_) ?_) (by decide)) ha.name.quoted
  · exact hin.showIf _
  · exact hout.showIf _
  · exact hopt.showIf _
  · exact Model.oneLine_ilType hm ha.type

theorem wholeLines_argumentLines (level : Nat) {as : List Argument}
    (has : ∀ a ∈ as, a.AllTexts Text.OneLine) :
    (argumentLines m (level + 2) as).WholeLines PlainLine := by
  induction as with
  | nil => exact .nil
  | cons a as ih =>
    obtain ⟨ha, has⟩ := List.forall_mem_cons.mp has
    have hbody : (indent (level + 2) ++ a.declaration m).OneLine :=
      .append (oneLine_indent _) (Argument.oneLine_declaration hm ha)
    cases as with
    | nil => exact .line hbody Text.endsLine_newline (plainLine_of_deep level (by simp))
    | cons b as =>
      refine .append (.line hbody (.literal (by decide) (by decide)) ?_) (ih has)
      exact plainLine_of_deep level (by simp)

/-! ### Methods -/

/-- A method is made of whole lines if what it begins with and one more line are. -/
theorem wholeLines_method (hplain : ∀ line, PlainLine line → P line) {head : Text}
    (hhead : ∀ rest : Text, rest.EndsLine → (head ++ rest).WholeLines P)
    {name implementation : Text} (hname : name.OneLine) (himplementation : implementation.OneLine)
    {s : Signature} (hs : s.AllTexts Text.OneLine) :
    (method m head name implementation s).WholeLines P := by
  have hbody := (wholeLines_argumentLines hm 1 hs.arguments).mono hplain
  have hattributes := wholeLines_argumentAttributes 0 s.name 1 hs.arguments
  refine .append (.write ?_) (.block hplain 1 (hattributes.mono hplain))
  have hlines : head ++ m.ilType s.returnType ++ " " ++ name ++ " (\n"
        ++ argumentLines m 3 s.arguments ++ "        ) " ++ implementation ++ " managed\n"
      = head ++ (m.ilType s.returnType ++ " " ++ name ++ " (\n")
        ++ argumentLines m 3 s.arguments ++ ("        ) " ++ implementation ++ " managed\n") := by
    simp only [List.append_assoc]
  rw [hlines]
  refine .append (.append (hhead _ (.append ?_ (.literal (by decide) (by decide)))) hbody) ?_
  · exact .append (.append (Model.oneLine_ilType hm hs.returnType) (by decide)) hname
  · refine .line (.append (.literal (by decide)) himplementation)
      (.literal (by decide) (by decide)) (hplain _ ?_)
    exact plainLine_of_start "        ) " (by simp) (.literal (by decide)) (.literal (by decide))

theorem Interface.wholeLines_renderMethod {s : Signature} (hs : s.AllTexts Text.OneLine) :
    (renderMethod m s).WholeLines PlainLine := by
  have hbreak : ("\n    .method public hidebysig newslot abstract virtual\n" : Text)
      = "\n" ++ "    .method public hidebysig newslot abstract virtual\n" :=
    Text.ofLiteral_eq_append rfl
  have hlines :
      ("\n    .method public hidebysig newslot abstract virtual\n        instance " : Text)
        = "\n    .method public hidebysig newslot abstract virtual\n" ++ "        instance " :=
    Text.ofLiteral_eq_append rfl
  have hhead : Text.WholeLines PlainLine
      "\n    .method public hidebysig newslot abstract virtual\n" := by
    rw [hbreak]
    exact .append wholeLines_newline (wholeLines_plainLine (.literal (by decide) (by decide))
      (.literal (by decide)) (.literal (by decide)))
  refine wholeLines_method hm (fun _ h ↦ h) (fun rest hrest ↦ ?_) hs.name (by decide) hs
  rw [hlines]
  refine hhead.append_opening (.literal (by decide)) hrest ?_
  exact plainLine_of_start _ (List.prefix_append _ _) (.literal (by decide)) (.literal (by decide))

/-- The line that a function begins with is one of its own, and all others are plain. -/
theorem FreeFunction.wholeLines_render {f : FreeFunction} (hmem : f ∈ m.functions) :
    (f.render m).WholeLines m.OwnLine := by
  have hf := hm.functions f hmem
  have hplain : ∀ line, PlainLine line → m.OwnLine line := fun _ h ↦ h.ownLine m
  have hhead : Text.WholeLines m.OwnLine f.implementationLine := by
    have hhead : implementationHead.OneLine := .literal (by decide)
    refine .line (.append (.append (.append hhead hf.dll) (.literal (by decide))) hf.convention)
      (.literal (by decide) (by decide)) ⟨?_, fun _ ↦ ⟨f, hmem, rfl⟩⟩
    have hstart : implementationHead <+: f.implementationLine := by simp [implementationLine]
    exact ne_importLine_of_start hstart (.literal (by decide))
  refine .append (wholeLines_method hm hplain (fun rest hrest ↦ ?_) hf.signature.name (by decide)
    hf.signature) (.write (wholeLines_newline.mono hplain))
  have hlines : "    .method public hidebysig static pinvokeimpl(\"" ++ f.dll ++ "\" nomangle "
        ++ f.convention ++ ")\n        "
      = f.implementationLine ++ "        " := by
    rw [implementationLine, implementationHead,
      show (")\n        " : Text) = ")\n" ++ "        " from Text.ofLiteral_eq_append rfl]
    simp only [List.append_assoc]
  rw [hlines]
  refine hhead.append_opening (by decide) hrest (hplain _ ?_)
  exact plainLine_of_start _ (List.prefix_append _ _) (.literal (by decide)) (.literal (by decide))

theorem Field.wholeLines_render {f : Field} (hf : f.AllTexts Text.OneLine) :
    (f.render m).WholeLines PlainLine := by
  have hstart : Text.OneLine "    .field public " := .literal (by decide)
  refine .append (.write ?_) (wholeLines_associatedEnum 0 hf.type)
  refine .line (.append (.append (hstart.append (Model.oneLine_ilType hm hf.type)) (by decide))
    hf.name.quoted) Text.endsLine_newline ?_
  exact plainLine_of_start "    .field public " (by simp) (.literal (by decide))
    (.literal (by decide))

/-! ## Classes -/

theorem FunctionPointer.wholeLines_render {p : FunctionPointer}
    (hp : p.signature.AllTexts Text.OneLine) : (p.render m).WholeLines PlainLine := by
  have hhead : Text.WholeLines PlainLine "    .method public hidebysig newslot virtual\n" :=
    wholeLines_plainLine (.literal (by decide) (by decide)) (.literal (by decide))
      (.literal (by decide))
  have hlines : ("    .method public hidebysig newslot virtual\n        instance " : Text)
      = "    .method public hidebysig newslot virtual\n" ++ "        instance " :=
    Text.ofLiteral_eq_append rfl
  have hclass : Text.OneLine ".class public auto autochar sealed beforefieldinit " :=
    .literal (by decide)
  have hconvention : conventionConstructor.OneLine :=
    .append (.literal (by decide)) (.literal (by decide))
  rw [render]
  split
  · exact .nil
  · refine wholeLines_classBlock (fun _ h ↦ h)
      (hclass.append (Model.oneLine_qualified hm hp.name)) ?_ (.literal (by decide)) ?_
      (.append (.append (.write ?_) wholeLines_constructor) ?_)
    · exact plainLine_of_start ".class public auto autochar sealed beforefieldinit " (by simp)
        (.literal (by decide)) (.literal (by decide))
    · exact plainLine_of_start _ (List.prefix_append _ _) (.literal (by decide))
        (.literal (by decide))
    · exact wholeLines_customAttribute 0 _ hconvention List.not_mem_nil
    · refine wholeLines_method hm (fun _ h ↦ h) (fun rest hrest ↦ ?_) (by decide) (by decide) hp
      rw [hlines]
      refine hhead.append_opening (.literal (by decide)) hrest ?_
      exact plainLine_of_start _ (List.prefix_append _ _) (.literal (by decide))
        (.literal (by decide))

theorem Model.wholeLines_renderApis : m.renderApis.WholeLines m.OwnLine := by
  have hplain : ∀ line, PlainLine line → m.OwnLine line := fun _ h ↦ h.ownLine m
  have hclass : Text.OneLine ".class public auto autochar abstract sealed beforefieldinit " :=
    .literal (by decide)
  rw [renderApis]
  split
  · exact .nil
  · refine wholeLines_classBlock hplain (hclass.append (oneLine_qualified hm (by decide))) ?_
      (.literal (by decide)) ?_
      (.append (.concat fun f hf ↦ FreeFunction.wholeLines_render hm hf) (.write ?_))
    · exact plainLine_of_start ".class public auto autochar abstract sealed beforefieldinit "
        (by simp) (.literal (by decide)) (.literal (by decide))
    · exact plainLine_of_start _ (List.prefix_append _ _) (.literal (by decide))
        (.literal (by decide))
    · exact (Text.WholeLines.flatMap fun c hc ↦
        GuidConstant.wholeLines_render (hm.guids c hc)).mono hplain

theorem Interface.wholeLines_render {i : Interface} (hi : i.AllTexts Text.OneLine) :
    (i.render m).WholeLines PlainLine := by
  have hclass : Text.OneLine ".class interface public abstract auto ansi " := .literal (by decide)
  have hbase : Text.OneLine "    implements " := .literal (by decide)
  refine wholeLines_classBlock (fun _ h ↦ h) (hclass.append (Model.oneLine_qualified hm hi.name)) ?_
    (hbase.append (Model.oneLine_ilType hm hi.base)) ?_
    (.append (.write (wholeLines_customAttribute 0 _ oneLine_guidConstructor (Guid.oneLine_text _)))
      (.concat fun s hs ↦ wholeLines_renderMethod hm (hi.methods s hs)))
  · exact plainLine_of_start ".class interface public abstract auto ansi " (by simp)
      (.literal (by decide)) (.literal (by decide))
  · exact plainLine_of_start "    implements " (by simp) (.literal (by decide))
      (.literal (by decide))

theorem Enumeration.wholeLines_render {e : Enumeration} (he : e.AllTexts Text.OneLine) :
    (e.render m).WholeLines PlainLine := by
  have hclass : Text.OneLine ".class public auto ansi sealed " := .literal (by decide)
  have hvalue : Text.OneLine "    .field public specialname rtspecialname " := .literal (by decide)
  have hliteral : Text.OneLine "    .field public static literal valuetype " := .literal (by decide)
  have hbase := Model.oneLine_ilType hm he.base
  have hname := Model.oneLine_qualified hm he.name
  have hmark : Text.OneLine
      "    .custom instance void [netstandard]System.FlagsAttribute::.ctor() = ( " :=
    .literal (by decide)
  have hflags : e.flagsMark.WholeLines PlainLine := by
    rw [flagsMark]
    cases e.flags
    · exact .nil
    · refine .line (hmark.append (Hex.oneLine_dump _)) (.literal (by decide) (by decide)) ?_
      exact plainLine_of_start
        "    .custom instance void [netstandard]System.FlagsAttribute::.ctor() = ( " (by simp)
        (.literal (by decide)) (.literal (by decide))
  have hvariants : Text.WholeLines PlainLine (e.variants.flatMap (e.variantLine m)) := by
    refine .flatMap fun v hv ↦ .line ?_ (.literal (by decide) (by decide)) ?_
    · exact .append (.append (.append (.append (.append (.append (hliteral.append hname)
        (by decide)) (he.variants v hv)) (by decide)) hbase) (by decide)) v.value.oneLine_text
    · exact plainLine_of_start "    .field public static literal valuetype " (by simp)
        (.literal (by decide)) (.literal (by decide))
  refine wholeLines_classBlock (fun _ h ↦ h) (hclass.append hname) ?_ (.literal (by decide)) ?_
    (.write ?_)
  · exact plainLine_of_start ".class public auto ansi sealed " (by simp) (.literal (by decide))
      (.literal (by decide))
  · exact plainLine_of_start _ (List.prefix_append _ _) (.literal (by decide))
      (.literal (by decide))
  · have hlines : e.flagsMark ++ "    .field public specialname rtspecialname " ++ m.ilType e.base
          ++ " value__\n" ++ e.variants.flatMap (e.variantLine m)
        = e.flagsMark ++ (("    .field public specialname rtspecialname " ++ m.ilType e.base)
          ++ " value__\n") ++ e.variants.flatMap (e.variantLine m) := by
      simp only [List.append_assoc]
    rw [hlines]
    refine .append (.append hflags ?_) hvariants
    refine .line (hvalue.append hbase) (.literal (by decide) (by decide)) ?_
    exact plainLine_of_start "    .field public specialname rtspecialname " (by simp)
      (.literal (by decide)) (.literal (by decide))

theorem Struct.wholeLines_render {s : Struct} (hs : s.AllTexts Text.OneLine) :
    (s.render m).WholeLines PlainLine := by
  have hclass : Text.OneLine ".class public sequential ansi sealed beforefieldinit " :=
    .literal (by decide)
  refine wholeLines_classBlock (fun _ h ↦ h) (hclass.append (Model.oneLine_qualified hm hs.name)) ?_
    (.literal (by decide)) ?_ (.concat fun f hf ↦ Field.wholeLines_render hm (hs.fields f hf))
  · exact plainLine_of_start ".class public sequential ansi sealed beforefieldinit " (by simp)
      (.literal (by decide)) (.literal (by decide))
  · exact plainLine_of_start _ (List.prefix_append _ _) (.literal (by decide))
      (.literal (by decide))

end Model

/-! ## The whole text -/

theorem wholeLines_references : references.WholeLines PlainLine := by
  have hhead : ("    .publickeytoken = (\n        cc 7b 13 ff cd 2d dd 51\n    )\n" : Text)
      = "    .publickeytoken = (\n" ++ "        cc 7b 13 ff cd 2d dd 51\n    )\n" :=
    Text.ofLiteral_eq_append rfl
  have hrest : ("        cc 7b 13 ff cd 2d dd 51\n    )\n" : Text)
      = "        cc 7b 13 ff cd 2d dd 51\n" ++ "    )\n" := Text.ofLiteral_eq_append rfl
  refine .append (.append (.append (.append (.write ?_) (.block (fun _ h ↦ h) 0 (.write ?_)))
    (.write ?_)) (.block (fun _ h ↦ h) 0 (.write ?_))) (.write wholeLines_newline)
  · exact wholeLines_plainLine (.literal (by decide) (by decide)) (.literal (by decide))
      (.literal (by decide))
  · rw [hhead, hrest]
    refine .append (.append ?_ (.append ?_ ?_)) ?_
    all_goals
      exact wholeLines_plainLine (.literal (by decide) (by decide)) (.literal (by decide))
        (.literal (by decide))
  · exact wholeLines_plainLine (.literal (by decide) (by decide)) (.literal (by decide))
      (.literal (by decide))
  · exact wholeLines_plainLine (.literal (by decide) (by decide)) (.literal (by decide))
      (.literal (by decide))

theorem wholeLines_identity {h : Header} (hh : h.AllTexts Text.OneLine) :
    (identity h).WholeLines PlainLine := by
  have hplain : ∀ line, PlainLine line → PlainLine line := fun _ h ↦ h
  have hassembly : Text.OneLine ".assembly " := .literal (by decide)
  have hversion : Text.OneLine "    .ver " := .literal (by decide)
  have hmodule : Text.OneLine ".module " := .literal (by decide)
  refine .append (.append (.write ?_) (.block hplain 0 (.write ?_))) (.write ?_)
  · refine .line (hassembly.append hh.name) (.literal (by decide) (by decide)) ?_
    exact plainLine_of_start ".assembly " (by simp) (.literal (by decide)) (.literal (by decide))
  · refine .line (hversion.append hh.version) Text.endsLine_newline ?_
    exact plainLine_of_start "    .ver " (by simp) (.literal (by decide)) (.literal (by decide))
  · have hlines : ("\n.module " : Text) ++ h.name ++ ".winmd\n"
          ++ ".imagebase 0x00400000\n"
          ++ ".file alignment 0x00000200\n"
          ++ ".stackreserve 0x00100000\n"
          ++ ".subsystem 0x0003 // WindowsCui\n"
          ++ ".corflags 0x00000001 // ILOnly\n\n"
        = "\n" ++ (".module " ++ h.name ++ ".winmd\n")
          ++ ".imagebase 0x00400000\n"
          ++ ".file alignment 0x00000200\n"
          ++ ".stackreserve 0x00100000\n"
          ++ ".subsystem 0x0003 // WindowsCui\n"
          ++ (".corflags 0x00000001 // ILOnly\n" ++ "\n") := by
      rw [show ("\n.module " : Text) = "\n" ++ ".module " from Text.ofLiteral_eq_append rfl,
        show (".corflags 0x00000001 // ILOnly\n\n" : Text)
          = ".corflags 0x00000001 // ILOnly\n" ++ "\n" from Text.ofLiteral_eq_append rfl]
      simp only [List.append_assoc]
    rw [hlines]
    refine .append (.append (.append (.append (.append (.append wholeLines_newline ?_) ?_) ?_) ?_)
      ?_) (.append ?_ wholeLines_newline)
    · refine .line (hmodule.append hh.name) (.literal (by decide) (by decide)) ?_
      -- A header may be named so that this line begins as an import does, but it ends otherwise.
      exact plainLine_of_ending ".module " ".winmd\n" (by simp) (.literal (by decide))
        (List.suffix_append _ _) (by decide)
    all_goals
      exact wholeLines_plainLine (.literal (by decide) (by decide)) (.literal (by decide))
        (.literal (by decide))

namespace Model

variable {m : Model} {h : Header}

/-- The same model with no library imported. -/
def withoutDlls (m : Model) : Model := { m with dlls := [] }

/-- The libraries come first, and nothing behind them depends on them. -/
theorem text_render (hheader : m.header = some h) :
    m.render.text = importLines m.dlls ++ m.withoutDlls.render.text := by
  have hsame : m.SameTypes m.withoutDlls := sameTypes_of_names rfl rfl rfl
  have happis : m.withoutDlls.renderApis = m.renderApis := hsame.apis rfl rfl
  have hfree : m.withoutDlls.render = NativeApi.references ++ identity h
      ++ concat (m.functionPointers.map (FunctionPointer.render m)) ++ m.renderApis
      ++ concat (m.interfaces.map (Interface.render m))
      ++ concat (m.enumerations.map (Enumeration.render m))
      ++ concat (m.structs.map (Struct.render m)) := by
    rw [← happis, ← hsame.functionPointer, ← hsame.interface, ← hsame.enumeration, ← hsame.struct,
      render, show m.withoutDlls.header = some h from hheader]
    simp only [Rendering.append_assoc]
    exact Rendering.empty_append _
  rw [hfree, render, hheader]
  simp only [Rendering.append_assoc]
  exact Rendering.text_append _ _

/-- Without libraries, every line is one that the model has of its own. -/
theorem wholeLines_render (hm : m.AllTexts Text.OneLine) (hdlls : m.dlls = []) :
    m.render.WholeLines m.OwnLine := by
  have hplain : ∀ line, PlainLine line → m.OwnLine line := fun _ h ↦ h.ownLine m
  rw [render]
  split
  · exact .nil
  · rename_i header hheader
    refine .append
      (.append (.append (.append (.append (.append (.append ?_ ?_) ?_) ?_) ?_) ?_) ?_) ?_
    · rw [hdlls]
      exact .nil
    · exact wholeLines_references.mono hplain
    · exact (wholeLines_identity (hm.header header hheader)).mono hplain
    · exact .concat fun p hp ↦
        (FunctionPointer.wholeLines_render hm (hm.functionPointers p hp)).mono hplain
    · exact wholeLines_renderApis hm
    · exact .concat fun i hi ↦ (Interface.wholeLines_render hm (hm.interfaces i hi)).mono hplain
    · exact .concat fun e he ↦ (Enumeration.wholeLines_render hm (hm.enumerations e he)).mono hplain
    · exact .concat fun s hs ↦ (Struct.wholeLines_render hm (hm.structs s hs)).mono hplain

theorem lines_importLines_append {dlls : List Text} (h : ∀ dll ∈ dlls, dll.OneLine) (t : Text) :
    (importLines dlls ++ t).lines = dlls.map importLine ++ t.lines := by
  induction dlls with
  | nil => rfl
  | cons dll dlls ih =>
    obtain ⟨hdll, hdlls⟩ := List.forall_mem_cons.mp h
    have hstart : Text.OneLine ".module extern " := .literal (by decide)
    have hline : Text.WholeLines (fun _ ↦ True) (importLine dll) :=
      .line (hstart.append hdll.quoted) Text.endsLine_newline trivial
    have hone : (importLine dll).lines = [importLine dll] :=
      Text.lines_append_newline (hstart.append hdll.quoted) []
    rw [importLines, List.flatMap_cons, List.append_assoc, ← importLines,
      show ".module extern " ++ quoted dll ++ "\n" = importLine dll from rfl, hline.lines_append,
      ih hdlls, hone, List.map_cons]
    rfl

/-- **Lines of the text.** Where no text of a model has a line feed, the import lines are those of
its libraries, which come first, and a line that tells where the code of a function is is that of
one of its functions. -/
theorem lines_render (hm : m.AllTexts Text.OneLine) (hheader : m.header = some h) :
    ∃ own, m.render.text.lines = m.dlls.map importLine ++ own ∧ ∀ line ∈ own, m.OwnLine line := by
  have hfree : m.withoutDlls.AllTexts Text.OneLine :=
    { hm with dlls := fun _ hdll ↦ absurd hdll List.not_mem_nil }
  refine ⟨m.withoutDlls.render.text.lines, ?_, fun line hline ↦ ?_⟩
  · rw [text_render hheader, lines_importLines_append hm.dlls]
  · have hown := (wholeLines_render hfree rfl).forall_mem_lines line hline
    exact ⟨hown.not_import, hown.implementation⟩

end Model

end NativeApi

import NativeApi.Proofs.Brackets
import NativeApi.Proofs.Encodable
import NativeApi.Proofs.OneLine

/-!
# Brackets in assembly text

Assembly text has braces around blocks and parentheses around argument lists, blobs and literals.
The two brackets of a pair are written by different pieces of text, with lists of any length between
them. Where no text of a model has a bracket of its own, a rendering that comes to its end has
closed whatever it has opened, at each level: attributes and argument lists, methods, classes and
the whole text (`Model.nested_render`).

A rendering that ends early stops inside blocks, so nothing is said of it.
-/

namespace NativeApi

open Text (Nested Leaves blank)
open Rendering (write stop concat block indent)

/-! ## Texts without brackets -/

namespace Text

variable {t u : Text}

/-- A text without braces and parentheses. -/
def NoBrackets (t : Text) : Prop := ∀ b ∈ t, IsPlain b

instance (t : Text) : Decidable t.NoBrackets := List.decidableBAll IsPlain t

theorem compositional_noBrackets : Compositional NoBrackets where
  nil := fun _ hb ↦ absurd hb List.not_mem_nil
  append _ _ ht hu := List.forall_mem_append.mpr ⟨ht, hu⟩

theorem NoBrackets.nested (h : t.NoBrackets) : t.Nested := by
  induction t with
  | nil => exact .nil
  | cons b t ih =>
    obtain ⟨hb, ht⟩ := List.forall_mem_cons.mp h
    exact .plain hb (ih ht)

/-- Of a literal it is decided by its characters. -/
theorem Leaves.literal {cs : List Char} {due left : List Bracket}
    (h : Leaves due (cs.map Char.toUInt8) left) :
    Leaves due (ofLiteral (String.ofList cs)) left := by
  rwa [ofLiteral_ofList]

theorem Nested.literal {cs : List Char} (h : Nested (cs.map Char.toUInt8)) :
    Nested (ofLiteral (String.ofList cs)) := by
  rwa [ofLiteral_ofList]

theorem Nested.quoted (h : t.Nested) : (Text.quoted t).Nested :=
  .append (.append (by decide) h) (by decide)

theorem compositional_nested : Compositional Nested := ⟨.nil, fun _ _ ht hu ↦ ht.append hu⟩

theorem Nested.showIf (h : t.Nested) (flag : Bool) : (Text.showIf flag t).Nested :=
  compositional_nested.showIf h flag

theorem Nested.flatMap {α : Type} {f : α → Text} {as : List α} (h : ∀ a ∈ as, (f a).Nested) :
    Nested (as.flatMap f) := compositional_nested.flatMap h

/-- Behind more nested text, the same brackets are to be closed. -/
theorem Leaves.skip {due left : List Bracket} (h : Leaves due t left) (hu : u.Nested) :
    Leaves due (t ++ u) left := h.append (hu.leaves left)

theorem nested_decimal (n : Nat) : (decimal n).Nested := by
  refine NoBrackets.nested fun b hb ↦ ?_
  have hdigit := isDigit_of_mem_decimal hb
  rcases isPlain_or b with hplain | ⟨k, rfl⟩ | ⟨k, rfl⟩
  · exact hplain
  · cases k <;> cases hdigit
  · cases k <;> cases hdigit

end Text

theorem Hex.nested_dump (b : Blob) : (dump b).Nested :=
  Text.NoBrackets.nested (forall_mem_dump (by decide) (by decide) b)

theorem Guid.nested_text (g : Guid) : g.text.Nested :=
  Text.NoBrackets.nested (forall_mem_text (by decide) (by decide) g)

theorem IntegerLiteral.nested_text (l : IntegerLiteral) : l.text.Nested := by
  rw [text]
  split
  · exact .append (by decide) (Text.nested_decimal _)
  · exact Text.nested_decimal _

theorem nested_indent (level : Nat) : (indent level).Nested := by
  refine Text.NoBrackets.nested fun b hb ↦ ?_
  rw [List.eq_of_mem_replicate hb]
  decide

/-! ## Renderings -/

namespace Rendering

variable {r s : Rendering} {due middle left : List Bracket}

/-- If the rendering comes to its end, its text leaves brackets to be closed as `Text.Leaves`
says. -/
def Leaves (due : List Bracket) (r : Rendering) (left : List Bracket) : Prop :=
  r.fault = none → Text.Leaves due r.text left

/-- If the rendering comes to its end, its brackets are nested. -/
def Nested (r : Rendering) : Prop := r.fault = none → r.text.Nested

theorem Nested.leaves (h : r.Nested) (due : List Bracket) : r.Leaves due due :=
  fun hfault ↦ (h hfault).leaves due

theorem Leaves.append (hr : Leaves due r middle) (hs : Leaves middle s left) :
    Leaves due (r ++ s) left := by
  intro hfault
  rw [fault_append, Option.or_eq_none_iff] at hfault
  rw [text_append, if_pos hfault.1]
  exact (hr hfault.1).append (hs hfault.2)

theorem Nested.append (hr : r.Nested) (hs : s.Nested) : (r ++ s).Nested :=
  fun hfault ↦ Text.nested_iff_leaves.mpr ((hr.leaves []).append (hs.leaves []) hfault)

theorem Nested.write {t : Text} (h : t.Nested) : (write t).Nested := fun _ ↦ h

theorem nested_empty : empty.Nested := .write .nil

/-- A rendering that ends early says nothing about its text. -/
theorem nested_stop (fault : Fault) : (stop fault).Nested :=
  fun hfault ↦ absurd hfault (Option.some_ne_none fault)

theorem Nested.concat {α : Type} {render : α → Rendering} {as : List α}
    (h : ∀ a ∈ as, (render a).Nested) : (concat (as.map render)).Nested :=
  concat_map_induction nested_empty (fun _ _ hr hs ↦ hr.append hs) h

theorem Nested.block {body : Rendering} (h : body.Nested) (level : Nat) :
    (block level body).Nested := by
  have hopen : Text.Leaves [] "\x7b\n" [.brace] := .literal (by decide)
  have hclose : Text.Leaves [.brace] "\x7d\n" [] := .literal (by decide)
  have hfirst : Leaves [] (Rendering.write (indent level ++ "\x7b\n")) [.brace] :=
    fun _ ↦ ((nested_indent level).leaves []).append hopen
  have hlast : Leaves [.brace] (Rendering.write (indent level ++ "\x7d\n")) [] :=
    fun _ ↦ ((nested_indent level).leaves _).append hclose
  exact fun hfault ↦
    Text.nested_iff_leaves.mpr (((hfirst.append (h.leaves _)).append hlast) hfault)

end Rendering

/-! ## Members -/

theorem nested_remark {comment : Text} (h : comment.Nested) : (remark comment).Nested :=
  .showIf (.append (by decide) h) _

theorem nested_customAttribute (level : Nat) {constructor comment : Text} (blob : Blob)
    (hconstructor : constructor.Nested) (hcomment : comment.Nested) :
    (customAttribute level constructor blob comment).Nested := by
  have hhead : Text.Nested ".custom instance void " := .literal (by decide)
  have hopen : Leaves [] " = (\n" [.parenthesis] := .literal (by decide)
  have hclose : Leaves [.parenthesis] ")\n" [] := .literal (by decide)
  have hfirst : Leaves [] (indent level ++ ".custom instance void " ++ constructor ++ " = (\n")
      [.parenthesis] :=
    ((((nested_indent level).append hhead).append hconstructor).leaves []).append hopen
  refine Text.nested_iff_leaves.mpr (.append ?_ hclose)
  exact ((((hfirst.skip (nested_indent _)).skip (Hex.nested_dump blob)).skip
    (nested_remark hcomment)).skip (by decide)).skip (nested_indent level)

theorem nested_platformAttribute {constructor : Text} (h : constructor.Nested) :
    (platformAttribute constructor).Nested := .append (.literal (by decide)) h

theorem nested_associatedEnum (level : Nat) {type : TypeReference}
    (htype : type.AllTexts Text.NoBrackets) : (associatedEnum level type.backingEnum).Nested := by
  have hconstructor : Text.Nested "AssociatedEnumAttribute::.ctor(string)" := .literal (by decide)
  cases hname : type.backingEnum with
  | none => exact Rendering.nested_empty
  | some name =>
    rw [associatedEnum]
    split
    · exact Rendering.nested_stop _
    · exact .write (nested_customAttribute level _ (nested_platformAttribute hconstructor)
        (htype.2 name hname).nested)

namespace Argument

theorem nested_markerAttribute (level : Nat) (flag : Bool) {constructor : Text}
    (h : constructor.Nested) : (markerAttribute level flag constructor).Nested :=
  .showIf (nested_customAttribute level _ (nested_platformAttribute h) .nil) flag

theorem nested_sizeAttribute (level : Nat) (function : Text) (a : Argument) :
    (a.sizeAttribute level function).Nested := by
  have hconstructor : Text.Nested "NativeArrayInfoAttribute::.ctor()" := .literal (by decide)
  have hcomment (size : ArraySize) : size.comment.Nested := by
    cases size with
    | inArgument index => exact .append (.literal (by decide)) (Text.nested_decimal index)
    | constant count => exact .append (.literal (by decide)) (Text.nested_decimal count)
  rw [sizeAttribute]
  split
  · exact Rendering.nested_empty
  · split
    · exact Rendering.nested_stop _
    · exact .write (nested_customAttribute level _ (nested_platformAttribute hconstructor)
        (hcomment _))

theorem nested_attributes (level : Nat) (function : Text) (position : Nat) {a : Argument}
    (ha : a.AllTexts Text.NoBrackets) : (a.attributes level function position).Nested := by
  rw [attributes]
  split
  · refine .append (.append (.write (.append (.append ?_ ?_) ?_)) ?_) ?_
    · exact .append (.append (.append (nested_indent level) (by decide)) (Text.nested_decimal _))
        (by decide)
    · exact nested_markerAttribute (level + 1) _ (.literal (by decide))
    · exact nested_markerAttribute (level + 1) _ (.literal (by decide))
    · exact nested_sizeAttribute (level + 1) function a
    · exact nested_associatedEnum (level + 1) ha.type
  · exact Rendering.nested_empty

end Argument

theorem nested_argumentAttributes (level : Nat) (function : Text) (position : Nat)
    {as : List Argument} (has : ∀ a ∈ as, a.AllTexts Text.NoBrackets) :
    (argumentAttributes level function position as).Nested := by
  induction as generalizing position with
  | nil => exact Rendering.nested_empty
  | cons a as ih =>
    obtain ⟨ha, has⟩ := List.forall_mem_cons.mp has
    exact .append (Argument.nested_attributes level function position ha) (ih (position + 1) has)

theorem nested_guidConstructor : guidConstructor.Nested := by
  have hopen : Leaves [] "GuidAttribute::.ctor(uint32, uint16, uint16, " [.parenthesis] :=
    .literal (by decide)
  have hclose :
      Leaves [.parenthesis] "uint8, uint8, uint8, uint8, uint8, uint8, uint8, uint8)" [] :=
    .literal (by decide)
  exact nested_platformAttribute (Text.nested_iff_leaves.mpr (hopen.append hclose))

theorem GuidConstant.nested_render {c : GuidConstant} (hc : c.AllTexts Text.NoBrackets) :
    c.render.Nested := by
  have hfield : Text.Nested "    .field public static valuetype [netstandard]System.Guid " :=
    .literal (by decide)
  exact .append (.append (.append hfield hc.name.nested.quoted) (by decide))
    (nested_customAttribute 1 _ nested_guidConstructor hc.display.nested)

/-! ## Classes without methods -/

theorem nested_classBlock {head base : Text} {members : Rendering} (hhead : head.Nested)
    (hbase : base.Nested) (hmembers : members.Nested) : (classBlock head base members).Nested := by
  refine .append (.append (.write ?_) (hmembers.block 0)) (.write (by decide))
  exact .append (.append (.append hhead (by decide)) hbase) (by decide)

theorem FunctionPointer.nested_constructor : constructor.Nested := by
  have hopen : Leaves [] "        instance void .ctor (\n" [.parenthesis] := .literal (by decide)
  have hclose : Leaves [.parenthesis] "        ) runtime managed\n" [] := .literal (by decide)
  have hfirst : Text.Nested "\n    .method public hidebysig specialname rtspecialname\n" :=
    .literal (by decide)
  have hobject : Text.Nested "            object 'object',\n" := .literal (by decide)
  have hmethod : Text.Nested "            native int 'method'\n" := .literal (by decide)
  refine .append (.append (.write (Text.nested_iff_leaves.mpr ?_)) (Rendering.nested_empty.block 1))
    (.write (by decide))
  exact ((((hfirst.leaves []).append hopen).skip hobject).skip hmethod).append hclose

section Model

variable {m : Model} (hm : m.AllTexts Text.NoBrackets)
include hm

theorem Model.nested_qualified {name : Text} (hname : name.NoBrackets) :
    (m.qualified name).Nested :=
  (hm.qualified Text.compositional_noBrackets (by decide) hname).nested

theorem Model.nested_ilType {type : TypeReference} (htype : type.AllTexts Text.NoBrackets) :
    (m.ilType type).Nested := by
  have hfixed : ∀ t ∈ Resolution.fixedTexts, t.NoBrackets := by decide
  exact (hm.ilType Text.compositional_noBrackets hfixed htype).nested

theorem Argument.nested_declaration {a : Argument} (ha : a.AllTexts Text.NoBrackets) :
    (a.declaration m).Nested := by
  have hin : Text.Nested "[in] " := .literal (by decide)
  have hout : Text.Nested "[out] " := .literal (by decide)
  have hopt : Text.Nested "[opt] " := .literal (by decide)
  exact .append (.append (.append (.append (.append (hin.showIf _) (hout.showIf _))
    (hopt.showIf _)) (Model.nested_ilType hm ha.type)) (by decide)) ha.name.nested.quoted

theorem nested_argumentLines (level : Nat) {as : List Argument}
    (has : ∀ a ∈ as, a.AllTexts Text.NoBrackets) : (argumentLines m level as).Nested := by
  induction as with
  | nil => exact .nil
  | cons a as ih =>
    obtain ⟨ha, has⟩ := List.forall_mem_cons.mp has
    have hline := (nested_indent level).append (Argument.nested_declaration hm ha)
    cases as with
    | nil => exact hline.append (by decide)
    | cons b as => exact (hline.append (by decide)).append (ih has)

/-- The parenthesis behind the name of a method is closed behind its arguments, and its body is a
block. -/
theorem nested_method {head name implementation : Text} (hhead : head.Nested) (hname : name.Nested)
    (himplementation : implementation.Nested) {s : Signature} (hs : s.AllTexts Text.NoBrackets) :
    (method m head name implementation s).Nested := by
  have hopen : Leaves [] " (\n" [.parenthesis] := .literal (by decide)
  have hclose : Leaves [.parenthesis] "        ) " [] := .literal (by decide)
  have hblank : Text.Nested " " := by decide
  have hmanaged : Text.Nested " managed\n" := .literal (by decide)
  have hfirst := ((hhead.append (Model.nested_ilType hm hs.returnType)).append hblank).append hname
  refine .append (.write (Text.nested_iff_leaves.mpr ?_))
    ((nested_argumentAttributes 2 s.name 1 hs.arguments).block 1)
  exact (((((hfirst.leaves []).append hopen).skip (nested_argumentLines hm 3 hs.arguments)).append
    hclose).skip himplementation).skip hmanaged

theorem FreeFunction.nested_render {f : FreeFunction} (hf : f.AllTexts Text.NoBrackets) :
    (f.render m).Nested := by
  have hopen : Leaves [] "    .method public hidebysig static pinvokeimpl(\"" [.parenthesis] :=
    .literal (by decide)
  have hclose : Leaves [.parenthesis] ")\n        " [] := .literal (by decide)
  have hconvention : Text.Nested "\" nomangle " := .literal (by decide)
  have hhead := (((hopen.skip hf.dll.nested).skip hconvention).skip hf.convention.nested).append
    hclose
  exact .append (nested_method hm (Text.nested_iff_leaves.mpr hhead) hf.signature.name.nested
    (.literal (by decide)) hf.signature) (.write (by decide))

theorem Interface.nested_renderMethod {s : Signature} (hs : s.AllTexts Text.NoBrackets) :
    (renderMethod m s).Nested :=
  nested_method hm (.literal (by decide)) hs.name.nested (.literal (by decide)) hs

theorem Field.nested_render {f : Field} (hf : f.AllTexts Text.NoBrackets) :
    (f.render m).Nested := by
  have hfield : Text.Nested "    .field public " := .literal (by decide)
  refine .append (.write ?_) (nested_associatedEnum 1 hf.type)
  exact .append (.append (.append (hfield.append (Model.nested_ilType hm hf.type)) (by decide))
    hf.name.nested.quoted) (by decide)

/-! ## Classes -/

theorem FunctionPointer.nested_render {p : FunctionPointer}
    (hp : p.signature.AllTexts Text.NoBrackets) : (p.render m).Nested := by
  have hclass : Text.Nested ".class public auto autochar sealed beforefieldinit " :=
    .literal (by decide)
  have hconvention : conventionConstructor.Nested := by
    have hopen : Leaves []
        "[netstandard]System.Runtime.InteropServices.UnmanagedFunctionPointerAttribute::.ctor("
        [.parenthesis] := .literal (by decide)
    have hclose : Leaves [.parenthesis]
        "valuetype [netstandard]System.Runtime.InteropServices.CallingConvention)" [] :=
      .literal (by decide)
    exact Text.nested_iff_leaves.mpr (hopen.append hclose)
  rw [render]
  split
  · exact Rendering.nested_stop _
  · refine nested_classBlock (hclass.append (Model.nested_qualified hm hp.name))
      (.literal (by decide)) (.append (.append (.write ?_) nested_constructor) ?_)
    · exact nested_customAttribute 1 _ hconvention .nil
    · exact nested_method hm (.literal (by decide)) (.literal (by decide)) (.literal (by decide)) hp

theorem Model.nested_renderApis : m.renderApis.Nested := by
  have hclass : Text.Nested ".class public auto autochar abstract sealed beforefieldinit " :=
    .literal (by decide)
  rw [renderApis]
  split
  · exact Rendering.nested_empty
  · refine nested_classBlock (hclass.append (nested_qualified hm (by decide)))
      (.literal (by decide)) (.append ?_ (.write ?_))
    · exact .concat fun f hf ↦ FreeFunction.nested_render hm (hm.functions f hf)
    · exact .flatMap fun c hc ↦ GuidConstant.nested_render (hm.guids c hc)

theorem Interface.nested_render {i : Interface} (hi : i.AllTexts Text.NoBrackets) :
    (i.render m).Nested := by
  have hclass : Text.Nested ".class interface public abstract auto ansi " := .literal (by decide)
  have hbase : Text.Nested "    implements " := .literal (by decide)
  refine nested_classBlock (hclass.append (Model.nested_qualified hm hi.name))
    (hbase.append (Model.nested_ilType hm hi.base)) (.append (.write ?_) (.concat fun s hs ↦ ?_))
  · exact nested_customAttribute 1 _ nested_guidConstructor (Guid.nested_text _)
  · exact nested_renderMethod hm (hi.methods s hs)

theorem Enumeration.nested_variantLine {e : Enumeration} (he : e.AllTexts Text.NoBrackets)
    {v : Variant} (hv : v.name.NoBrackets) : (e.variantLine m v).Nested := by
  have hopen : Leaves [] "(" [.parenthesis] := .literal (by decide)
  have hclose : Leaves [.parenthesis] ")\n" [] := .literal (by decide)
  have hliteral : Text.Nested "    .field public static literal valuetype " := .literal (by decide)
  have hblank : Text.Nested " " := by decide
  have hequals : Text.Nested " = " := by decide
  have hname := ((hliteral.append (Model.nested_qualified hm he.name)).append hblank).append
    hv.nested
  have hvalue := (hname.append hequals).append (Model.nested_ilType hm he.base)
  exact Text.nested_iff_leaves.mpr
    ((((hvalue.leaves []).append hopen).skip v.value.nested_text).append hclose)

theorem Enumeration.nested_render {e : Enumeration} (he : e.AllTexts Text.NoBrackets) :
    (e.render m).Nested := by
  have hclass : Text.Nested ".class public auto ansi sealed " := .literal (by decide)
  have hfield : Text.Nested "    .field public specialname rtspecialname " := .literal (by decide)
  have hmark : e.flagsMark.Nested := by
    have hopen : Leaves []
        "    .custom instance void [netstandard]System.FlagsAttribute::.ctor() = ( "
        [.parenthesis] := .literal (by decide)
    have hclose : Leaves [.parenthesis] " )\n" [] := .literal (by decide)
    exact .showIf (Text.nested_iff_leaves.mpr ((hopen.skip (Hex.nested_dump _)).append hclose)) _
  have hvalue := (hmark.append hfield).append (Model.nested_ilType hm he.base)
  refine nested_classBlock (hclass.append (Model.nested_qualified hm he.name))
    (.literal (by decide)) (.write (.append (hvalue.append (.literal (by decide))) ?_))
  exact .flatMap fun v hv ↦ nested_variantLine hm he (he.variants v hv)

theorem Struct.nested_render {s : Struct} (hs : s.AllTexts Text.NoBrackets) :
    (s.render m).Nested := by
  have hclass : Text.Nested ".class public sequential ansi sealed beforefieldinit " :=
    .literal (by decide)
  exact nested_classBlock (hclass.append (Model.nested_qualified hm hs.name))
    (.literal (by decide)) (.concat fun f hf ↦ Field.nested_render hm (hs.fields f hf))

end Model

/-! ## The whole text -/

theorem nested_importLines {dlls : List Text} (h : ∀ dll ∈ dlls, dll.NoBrackets) :
    (importLines dlls).Nested := by
  have himport : Text.Nested ".module extern " := .literal (by decide)
  have hend : Text.Nested "\n" := by decide
  exact .flatMap fun dll hdll ↦ (himport.append (h dll hdll).nested.quoted).append hend

theorem nested_references : references.Nested := by
  refine .append (.append (.append (.append (.write ?_) (.block (.write ?_) 0)) (.write ?_))
    (.block (.write ?_) 0)) (.write (by decide))
  · exact .literal (by decide)
  · exact .append (.literal (by decide)) (.literal (by decide))
  · exact .literal (by decide)
  · exact .literal (by decide)

theorem nested_identity {h : Header} (hh : h.AllTexts Text.NoBrackets) : (identity h).Nested := by
  have hassembly : Text.Nested ".assembly " := .literal (by decide)
  have hversion : Text.Nested "    .ver " := .literal (by decide)
  have hmodule : Text.Nested "\n.module " := .literal (by decide)
  refine .append (.append (.write ?_) (.block (.write ?_) 0)) (.write ?_)
  · exact .append (hassembly.append hh.name.nested) (.literal (by decide))
  · exact .append (hversion.append hh.version.nested) (by decide)
  · refine .append (.append (.append (.append (.append (.append (hmodule.append hh.name.nested) ?_)
      ?_) ?_) ?_) ?_) ?_
    all_goals exact .literal (by decide)

theorem Model.nested_render {m : Model} (hm : m.AllTexts Text.NoBrackets) : m.render.Nested := by
  rw [render]
  split
  · exact Rendering.nested_stop _
  · rename_i header hheader
    refine .append
      (.append (.append (.append (.append (.append (.append ?_ ?_) ?_) ?_) ?_) ?_) ?_) ?_
    · exact .write (nested_importLines hm.dlls)
    · exact nested_references
    · exact nested_identity (hm.header header hheader)
    · exact .concat fun p hp ↦ FunctionPointer.nested_render hm (hm.functionPointers p hp)
    · exact nested_renderApis hm
    · exact .concat fun i hi ↦ Interface.nested_render hm (hm.interfaces i hi)
    · exact .concat fun e he ↦ Enumeration.nested_render hm (hm.enumerations e he)
    · exact .concat fun s hs ↦ Struct.nested_render hm (hm.structs s hs)

/-- **Brackets are nested.** Where no text of a model has a brace or a parenthesis, the brackets of
the whole text are nested: each that is opened, by a class or a method or within a line, is closed
behind a nested text, each that is closed has been opened before, and no beginning of the text
closes more than it opens. -/
theorem rendered_text_is_nested {m : Model} (hm : m.AllTexts Text.NoBrackets)
    (h : m.render.fault = none) :
    m.render.text.Nested ∧
      ∀ (k : Bracket) (before : Text),
        (∀ rest, m.render.text = before ++ k.opening :: rest →
          ∃ body after, rest = body ++ k.closing :: after ∧ Nested body) ∧
        (∀ rest, m.render.text = before ++ k.closing :: rest →
          ∃ outer body, before = outer ++ k.opening :: body ∧ Nested body) ∧
        (before <+: m.render.text → before.count k.closing ≤ before.count k.opening) := by
  have hnested : m.render.text.Nested := m.nested_render hm h
  exact ⟨hnested, fun k before ↦ ⟨fun _ htext ↦ hnested.exists_close htext,
    fun _ htext ↦ hnested.exists_open htext, fun hbefore ↦ hnested.count_closing_le hbefore k⟩⟩

/-- A model with a declaration of each kind, and attributes of each kind behind arguments. -/
def everyKindModel : Model :=
  let call := Call.source (fun _ ↦ none)
    ⟨"kinds", ["meta\tApi\t1.0.0.0", "flags\tMode\tDWORD", "variant\tRead\t1",
      "variant\tWrite\t-2", "fptr\tNotify\tvoid\t0", "arg\tin\tmode\tMode\t0", "dll\ta.dll",
      "fn\tOpen\tBOOL\t0\tcdecl", "arg\tin\tdata\tBYTE\t1\tconst ca1",
      "optarg\tout\tsize\tUINT32\t1", "iface\tIView\t1\t2\tIUnknown", "meth\tShow\tvoid\t0",
      "arg\tout\tview\tIView\t2\tcom_out cc4", "struct\tPoint", "field\tx\tINT32\t0",
      "field\tmode\tMode\t0", "guid\tId\t23170f69-40c1-278a-0000-000100020000"]⟩
  (call.perform Session.initial).session.state.model

theorem rendered_text_is_nested_of_every_kind :
    everyKindModel.AllTexts Text.NoBrackets ∧ everyKindModel.render.fault = none ∧
      everyKindModel.guids.length = 1 ∧ everyKindModel.render.text.Nested := by
  have htexts : everyKindModel.AllTexts Text.NoBrackets := by decide +kernel
  have hfault : everyKindModel.render.fault = none := by decide +kernel
  have hlength : everyKindModel.guids.length = 1 := by decide +kernel
  exact ⟨htexts, hfault, hlength, (rendered_text_is_nested htexts hfault).1⟩

end NativeApi

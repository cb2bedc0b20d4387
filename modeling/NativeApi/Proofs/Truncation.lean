import Mathlib.Data.List.Forall2
import NativeApi.Compilation
import NativeApi.Proofs.Association
import NativeApi.Proofs.RenderFault

/-!
# Texts that end early

Where rendering stops, what has been written by then is right as far as it goes. This is said by
comparing two runs: one on a model with array sizes out of their bounds, one on the same model with
such sizes mended. The first text is a beginning of the second (`Rendering.Cut`), because both runs
do the same until the first of them meets a size that it cannot encode, and then it ends.

With what stops a rendering and with the bounds at which nothing does, this is all that printing a
model can come to (`printing_fails_exactly_if_it_must`).
-/

namespace NativeApi

/-! ## Renderings cut off -/

namespace Rendering

/-- The first rendering is the second one, or it has ended early with a beginning of its text. -/
def Cut (r s : Rendering) : Prop := r.text <+: s.text ∧ (r.fault = none → r = s)

variable {r s t : Rendering}

namespace Cut

theorem refl (r : Rendering) : r.Cut r := ⟨List.prefix_refl _, fun _ ↦ rfl⟩

theorem stop (fault : Fault) (r : Rendering) : (stop fault).Cut r :=
  ⟨List.nil_prefix, fun h ↦ absurd h (Option.some_ne_none fault)⟩

theorem trans (h : r.Cut s) (h' : s.Cut t) : r.Cut t := by
  refine ⟨h.1.trans h'.1, fun hr ↦ ?_⟩
  have hrs := h.2 hr
  rw [hrs] at hr
  exact hrs.trans (h'.2 hr)

end Cut

theorem stable_cut : Stable Cut where
  append_left q r s h := by
    refine ⟨?_, fun hfault ↦ ?_⟩
    · rw [text_append, text_append]
      refine (List.prefix_append_right_inj _).mpr ?_
      split
      · exact h.1
      · exact List.prefix_refl _
    · rw [fault_append, Option.or_eq_none_iff] at hfault
      rw [h.2 hfault.2]
  append_right q r s h := by
    by_cases hr : r.fault = none
    · rw [h.2 hr]
      exact .refl _
    · refine ⟨?_, fun hfault ↦ ?_⟩
      · rw [text_append, if_neg hr, List.append_nil, text_append]
        exact h.1.trans (List.prefix_append _ _)
      · rw [fault_append, Option.or_eq_none_iff] at hfault
        exact absurd hfault.1 hr

namespace Cut

theorem append {r' s' : Rendering} (h : r.Cut r') (h' : s.Cut s') : (r ++ s).Cut (r' ++ s') :=
  (stable_cut.append_right s _ _ h).trans (stable_cut.append_left r' _ _ h')

theorem concat {α : Type} {render : α → Rendering} {R : α → α → Prop} {as bs : List α}
    (h : List.Forall₂ R as bs) (hR : ∀ a b, R a b → (render a).Cut (render b)) :
    (concat (as.map render)).Cut (concat (bs.map render)) := by
  induction h with
  | nil => exact .refl _
  | cons hab _ ih => exact (hR _ _ hab).append ih

end Cut

end Rendering

open Rendering (Cut stable_cut)

/-! ## Mended models

A model is mended by giving every array size that is out of its bound another value, of the same
form and within the bound. Nothing else changes, so all names are kept and all types have the same
text. -/

/-- What has the same texts in two lists, element by element. -/
theorem map_eq_map_of_forall₂ {α β : Type} {R : α → α → Prop} {f : α → β} {as bs : List α}
    (h : List.Forall₂ R as bs) (hR : ∀ a b, R a b → f b = f a) : bs.map f = as.map f := by
  induction h with
  | nil => rfl
  | cons hab _ ih => rw [List.map_cons, List.map_cons, hR _ _ hab, ih]

/-- A size that fits stays as it is, another one becomes one that fits, of the same form. -/
inductive ArraySize.MendsTo : ArraySize → ArraySize → Prop
  | same {size : ArraySize} (h : size.Fits) : MendsTo size size
  | inArgument {i j : Nat} (hi : ¬(inArgument i).Fits) (hj : (inArgument j).Fits) :
      MendsTo (inArgument i) (inArgument j)
  | constant {i j : Nat} (hi : ¬(constant i).Fits) (hj : (constant j).Fits) :
      MendsTo (constant i) (constant j)

namespace Argument

/-- The array size is mended, if there is one. -/
def MendsTo (a b : Argument) : Prop :=
  ∃ size, Option.Rel ArraySize.MendsTo a.size size ∧ b = { a with size := size }

theorem MendsTo.declaration {a b : Argument} (h : a.MendsTo b) (m : Model) :
    b.declaration m = a.declaration m := by
  obtain ⟨size, -, rfl⟩ := h
  rfl

theorem cut_sizeAttribute {a b : Argument} (h : a.MendsTo b) (level : Nat) (function : Text) :
    (a.sizeAttribute level function).Cut (b.sizeAttribute level function) := by
  obtain ⟨size, hsize, rfl⟩ := h
  rw [sizeAttribute]
  generalize a.size = old at hsize ⊢
  cases hsize with
  | none => exact .refl _
  | some hmends =>
    -- Where the size does not fit, the first rendering ends.
    have hstop {old : ArraySize} (hold : ¬old.Fits) : old.blob? = none := by
      rw [← Option.not_isSome_iff_eq_none, ArraySize.isSome_blob?_iff]
      exact hold
    cases hmends with
    | same _ => exact .refl _
    | inArgument hi _ =>
      simp only [hstop hi]
      exact .stop _ _
    | constant hi _ =>
      simp only [hstop hi]
      exact .stop _ _

theorem cut_attributes {a b : Argument} (h : a.MendsTo b) (level : Nat) (function : Text)
    (position : Nat) :
    (a.attributes level function position).Cut (b.attributes level function position) := by
  have hsize := cut_sizeAttribute h (level + 1) function
  obtain ⟨size, hrel, rfl⟩ := h
  have hpayload : hasPayload { a with size := size } = a.hasPayload := by
    have hsome : size.isSome = a.size.isSome := by
      generalize a.size = old at hrel ⊢
      cases hrel <;> rfl
    simp only [hasPayload, hsome]
  rw [attributes, attributes, hpayload]
  split
  · exact ((Cut.refl _).append hsize).append (.refl _)
  · exact .refl _

end Argument

namespace Signature

/-- The arguments are mended. -/
def MendsTo (s t : Signature) : Prop :=
  ∃ arguments, List.Forall₂ Argument.MendsTo s.arguments arguments ∧
    t = { s with arguments := arguments }

theorem MendsTo.name {s t : Signature} (h : s.MendsTo t) : t.name = s.name := by
  obtain ⟨arguments, -, rfl⟩ := h
  rfl

end Signature

theorem cut_argumentAttributes {as bs : List Argument} (h : List.Forall₂ Argument.MendsTo as bs)
    (level : Nat) (function : Text) (position : Nat) :
    (argumentAttributes level function position as).Cut
      (argumentAttributes level function position bs) := by
  induction h generalizing position with
  | nil => exact .refl _
  | cons hab _ ih => exact (Argument.cut_attributes hab _ _ _).append (ih (position + 1))

theorem cut_method {s t : Signature} (h : s.MendsTo t) (m : Model)
    (head name implementation : Text) :
    (method m head name implementation s).Cut (method m head name implementation t) := by
  obtain ⟨arguments, harguments, rfl⟩ := h
  have hlines : argumentLines m 3 arguments = argumentLines m 3 s.arguments :=
    argumentLines_congr (map_eq_map_of_forall₂ harguments fun a b hab ↦ hab.declaration m)
  simp only [method, hlines]
  exact stable_cut.append_left _ _ _ (stable_cut.block 1 (cut_argumentAttributes harguments 2 _ 1))

/-- The signature is mended. -/
def FreeFunction.MendsTo (f g : FreeFunction) : Prop :=
  ∃ signature, f.signature.MendsTo signature ∧ g = { f with signature := signature }

theorem FreeFunction.cut_render {f g : FreeFunction} (h : f.MendsTo g) (m : Model) :
    (f.render m).Cut (g.render m) := by
  obtain ⟨signature, hsignature, rfl⟩ := h
  rw [render, render, hsignature.name]
  exact stable_cut.append_right _ _ _ (cut_method hsignature m _ _ _)

/-- The signature is mended. -/
def FunctionPointer.MendsTo (p q : FunctionPointer) : Prop :=
  ∃ signature, p.signature.MendsTo signature ∧ q = { p with signature := signature }

theorem FunctionPointer.MendsTo.name {p q : FunctionPointer} (h : p.MendsTo q) :
    q.signature.name = p.signature.name := by
  obtain ⟨signature, hsignature, rfl⟩ := h
  exact hsignature.name

theorem FunctionPointer.cut_render {p q : FunctionPointer} (h : p.MendsTo q) (m : Model) :
    (p.render m).Cut (q.render m) := by
  obtain ⟨signature, hsignature, rfl⟩ := h
  obtain ⟨blob, hblob⟩ := Option.isSome_iff_exists.mp (Attribute.isSome_functionPointer? p.code)
  simp only [render, hblob, hsignature.name]
  exact stable_cut.classBlock _ _
    (stable_cut.append_left _ _ _ (cut_method hsignature m _ _ _))

/-- The methods are mended. -/
def Interface.MendsTo (i j : Interface) : Prop :=
  ∃ methods, List.Forall₂ Signature.MendsTo i.methods methods ∧ j = { i with methods := methods }

theorem Interface.cut_render {i j : Interface} (h : i.MendsTo j) (m : Model) :
    (i.render m).Cut (j.render m) := by
  obtain ⟨methods, hmethods, rfl⟩ := h
  refine stable_cut.classBlock _ _ (stable_cut.append_left _ _ _ (Cut.concat hmethods ?_))
  intro s t hst
  rw [renderMethod, renderMethod, hst.name]
  exact cut_method hst m _ _ _

namespace Model

/-- The signatures of functions, function pointers and methods are mended. -/
structure MendsTo (m n : Model) : Prop where
  functions : List.Forall₂ FreeFunction.MendsTo m.functions n.functions
  functionPointers : List.Forall₂ FunctionPointer.MendsTo m.functionPointers n.functionPointers
  interfaces : List.Forall₂ Interface.MendsTo m.interfaces n.interfaces
  others : n = { m with
    functions := n.functions
    functionPointers := n.functionPointers
    interfaces := n.interfaces }

variable {m n : Model}

theorem MendsTo.sameTypes (h : m.MendsTo n) : m.SameTypes n := by
  refine sameTypes_of_names ?_ ?_ ?_
  · rw [h.others]
  · exact map_eq_map_of_forall₂ h.functionPointers fun _ _ hpq ↦ hpq.name
  · rw [h.others]

theorem MendsTo.cut_renderApis (h : m.MendsTo n) : m.renderApis.Cut n.renderApis := by
  have hguids : n.guids = m.guids := by rw [h.others]
  have hempty : n.functions.isEmpty = m.functions.isEmpty := by
    rw [Bool.eq_iff_iff, List.isEmpty_iff_length_eq_zero, List.isEmpty_iff_length_eq_zero,
      h.functions.length_eq]
  rw [renderApis, renderApis, hguids, hempty, h.sameTypes.function, h.sameTypes.qualified]
  split
  · exact .refl _
  · exact stable_cut.classBlock _ _ (stable_cut.append_right _ _ _
      (Cut.concat h.functions fun _ _ hfg ↦ FreeFunction.cut_render hfg m))

/-- **What is written is right.** The text of a model is that of any mended one, or it ends early
and is a beginning of it. -/
theorem MendsTo.cut_render (h : m.MendsTo n) : m.render.Cut n.render := by
  have htypes := h.sameTypes
  have hheader : n.header = m.header := by rw [h.others]
  have hdlls : n.dlls = m.dlls := by rw [h.others]
  have henumerations : n.enumerations = m.enumerations := by rw [h.others]
  have hstructs : n.structs = m.structs := by rw [h.others]
  rw [render, render, hheader, hdlls, henumerations, hstructs, htypes.functionPointer,
    htypes.interface, htypes.enumeration, htypes.struct]
  split
  · exact .refl _
  · refine ((((Cut.refl _).append ?_).append h.cut_renderApis).append ?_).append (.refl _)
      |>.append (.refl _)
    · exact Cut.concat h.functionPointers fun _ _ hpq ↦ FunctionPointer.cut_render hpq m
    · exact Cut.concat h.interfaces fun _ _ hij ↦ Interface.cut_render hij m

/-! ### Every model can be mended -/

end Model

theorem exists_forall₂ {α : Type} {R : α → α → Prop} (h : ∀ a, ∃ b, R a b) (as : List α) :
    ∃ bs, List.Forall₂ R as bs := by
  induction as with
  | nil => exact ⟨[], .nil⟩
  | cons a as ih =>
    obtain ⟨b, hb⟩ := h a
    obtain ⟨bs, hbs⟩ := ih
    exact ⟨b :: bs, .cons hb hbs⟩

theorem ArraySize.exists_mendsTo (size : ArraySize) : ∃ mended, size.MendsTo mended := by
  by_cases h : size.Fits
  · exact ⟨size, .same h⟩
  · cases size with
    | inArgument i => exact ⟨.inArgument 0, .inArgument h (Nat.zero_lt_succ _)⟩
    | constant i => exact ⟨.constant 0, .constant h (Nat.zero_lt_succ _)⟩

theorem Argument.exists_mendsTo (a : Argument) : ∃ b, a.MendsTo b := by
  cases hsize : a.size with
  | none => exact ⟨_, none, by rw [hsize]; exact .none, rfl⟩
  | some size =>
    obtain ⟨mended, hmends⟩ := size.exists_mendsTo
    exact ⟨_, some mended, by rw [hsize]; exact .some hmends, rfl⟩

theorem Signature.exists_mendsTo (s : Signature) : ∃ t, s.MendsTo t := by
  obtain ⟨arguments, h⟩ := exists_forall₂ Argument.exists_mendsTo s.arguments
  exact ⟨_, arguments, h, rfl⟩

theorem FreeFunction.exists_mendsTo (f : FreeFunction) : ∃ g, f.MendsTo g := by
  obtain ⟨signature, h⟩ := f.signature.exists_mendsTo
  exact ⟨_, signature, h, rfl⟩

theorem FunctionPointer.exists_mendsTo (p : FunctionPointer) : ∃ q, p.MendsTo q := by
  obtain ⟨signature, h⟩ := p.signature.exists_mendsTo
  exact ⟨_, signature, h, rfl⟩

theorem Interface.exists_mendsTo (i : Interface) : ∃ j, i.MendsTo j := by
  obtain ⟨methods, h⟩ := exists_forall₂ Signature.exists_mendsTo i.methods
  exact ⟨_, methods, h, rfl⟩

namespace Model

theorem exists_mendsTo (m : Model) : ∃ n, m.MendsTo n := by
  obtain ⟨functions, hfunctions⟩ := exists_forall₂ FreeFunction.exists_mendsTo m.functions
  obtain ⟨pointers, hpointers⟩ :=
    exists_forall₂ FunctionPointer.exists_mendsTo m.functionPointers
  obtain ⟨interfaces, hinterfaces⟩ := exists_forall₂ Interface.exists_mendsTo m.interfaces
  exact ⟨{ m with functions := functions, functionPointers := pointers, interfaces := interfaces },
    hfunctions, hpointers, hinterfaces, rfl⟩

end Model

/-! ## Printing -/

/-- What has come of a model that was to be written. -/
structure Printed where
  success : Bool
  text : Text
  diagnostics : List Diagnostic
  deriving DecidableEq, Repr

/-- Writes a model. If that ends early, its fault is reported behind the earlier diagnostics,
without a file and a line. -/
def Model.print (m : Model) (earlier : List Diagnostic) : Printed where
  success := m.render.fault.isNone
  text := m.render.text
  diagnostics := earlier ++ m.render.fault.toList.map fun fault ↦ ⟨fault, [], 0⟩

/-- A run of the program writes the text of its model, or reports what printing it reports. -/
theorem Job.ofOutcome_of_success {outcome : Outcome} (h : outcome.success = true) (o : Options) :
    Job.ofOutcome o outcome =
      let m := outcome.session.state.model
      let notices := startNotice o ++ collectionNotice m
      if (m.print []).success then .ok ⟨o.output, (m.print []).text, notices⟩
      else .error ⟨1, notices, (m.print []).diagnostics.flatMap diagnosticLine ++ haltNotice⟩ := by
  cases hfault : outcome.session.state.model.render.fault <;>
    simp [ofOutcome, Model.print, h, hfault]

/-- The bounds as numbers. -/
theorem Argument.encodes_iff {a : Argument} :
    a.Encodes ↔
      (∀ index, a.size = some (.inArgument index) → index < 0x10000) ∧
        (∀ count, a.size = some (.constant count) → count < 0x100000000) ∧
        ∀ name, a.type.backingEnum = some name → name.length ≤ 0x1FFFFFFF := by
  constructor
  · rintro ⟨hsize, htype⟩
    exact ⟨fun index h ↦ hsize _ h, fun count h ↦ hsize _ h, htype⟩
  · rintro ⟨hindex, hcount, htype⟩
    refine ⟨fun size h ↦ ?_, htype⟩
    cases size with
    | inArgument index => exact hindex index h
    | constant count => exact hcount count h

/-- **Printing fails exactly if it must, and what it has written by then is right.** A model is
printed to its end exactly if it has a header, its array sizes are within the bounds of their forms
and the enumerations behind its arguments and fields have names that are not too long. Then nothing
is reported; otherwise one diagnostic is, and it is about something that the model has. The text of
a model is a beginning of that of the model with its array sizes mended, whatever the mended sizes
are, and it is empty if there is no header. -/
theorem printing_fails_exactly_if_it_must (m : Model) (earlier : List Diagnostic) :
    ((m.print earlier).success = true ↔
      m.header.isSome ∧
        (∀ a ∈ m.arguments,
          (∀ index, a.size = some (.inArgument index) → index < 0x10000) ∧
            (∀ count, a.size = some (.constant count) → count < 0x100000000) ∧
            ∀ name, a.type.backingEnum = some name → name.length ≤ 0x1FFFFFFF) ∧
        ∀ f ∈ m.fields, ∀ name, f.type.backingEnum = some name → name.length ≤ 0x1FFFFFFF) ∧
      ((m.print earlier).success = true → (m.print earlier).diagnostics = earlier) ∧
      ((m.print earlier).success = false →
        ∃ fault, (m.print earlier).diagnostics = earlier ++ [⟨fault, [], 0⟩] ∧
          fault.kind = .render ∧ m.Breaks fault) ∧
      ((∃ n, m.MendsTo n) ∧
        ∀ n others, m.MendsTo n → (m.print earlier).text <+: (n.print others).text) ∧
      (m.header = none → (m.print earlier).text = []) := by
  have hsuccess : (m.print earlier).success = true ↔ m.render.fault = none :=
    Option.isNone_iff_eq_none
  refine ⟨?_, fun h ↦ ?_, fun h ↦ ?_, ⟨m.exists_mendsTo, fun n _ hn ↦ hn.cut_render.1⟩, fun h ↦ ?_⟩
  · rw [hsuccess, Model.fault_render_eq_none_iff]
    simp only [Argument.encodes_iff]
    rfl
  · simp only [Model.print, hsuccess.mp h, Option.toList_none, List.map_nil, List.append_nil]
  · cases hfault : m.render.fault with
    | none => exact absurd (hsuccess.mpr hfault) (by rw [h]; exact Bool.false_ne_true)
    | some fault =>
      have hbreaks : m.Breaks fault := m.faultsIn_render fault hfault
      refine ⟨fault, ?_, hbreaks.kind, hbreaks⟩
      simp only [Model.print, hfault, Option.toList_some, List.map_cons, List.map_nil]
  · simp only [Model.print, Model.render, h]
    rfl

/-- A model with a function that fills two arrays, the second of the given length. -/
def fillModel (count : Nat) : Model :=
  let array (name : Text) (count : Nat) : Argument :=
    ⟨name, ⟨"BYTE", 1, none⟩, .output, false, true, false, some (.constant count)⟩
  { Model.empty with
    header := some ⟨"Api", "1.0.0.0"⟩
    functions := [⟨⟨"Fill", .named "void", [array "first" 8, array "second" count]⟩, "a.dll",
      "winapi"⟩] }

theorem printing_fails_at_second_array :
    (fillModel 0x100000000).MendsTo (fillModel 0xFFFFFFFF) ∧
      ((fillModel 0x100000000).print []).success = false ∧
      ((fillModel 0x100000000).print []).diagnostics
        = [⟨.arraySizeEncoding "second" "Fill", [], 0⟩] ∧
      ((fillModel 0x100000000).print []).text ≠ [] ∧
      ((fillModel 0x100000000).print []).text <+: ((fillModel 0xFFFFFFFF).print []).text := by
  have hmends : (fillModel 0x100000000).MendsTo (fillModel 0xFFFFFFFF) := by
    have hfirst : (ArraySize.constant 8).MendsTo (.constant 8) :=
      .same (show 8 < SizeForm.constant.bound by decide)
    have hsecond : (ArraySize.constant 0x100000000).MendsTo (.constant 0xFFFFFFFF) :=
      .constant (show ¬0x100000000 < SizeForm.constant.bound by decide)
        (show 0xFFFFFFFF < SizeForm.constant.bound by decide)
    refine ⟨.cons ⟨_, ⟨_, ?_, rfl⟩, rfl⟩ .nil, .nil, .nil, rfl⟩
    exact .cons ⟨_, .some hfirst, rfl⟩ (.cons ⟨_, .some hsecond, rfl⟩ .nil)
  have hprefix :=
    (printing_fails_exactly_if_it_must (fillModel 0x100000000) []).2.2.2.1.2 _ [] hmends
  exact ⟨hmends, by decide, by decide, by decide, hprefix⟩

end NativeApi

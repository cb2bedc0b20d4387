import NativeApi.Proofs.Encodable

/-!
# What stops a rendering

Rendering stops where it meets something without an encoding, below any number of blocks, and the
fault tells what that is. The fault always belongs to something that the model really has: an array
size out of its bound, with the name of its argument and of the function, or an enumeration whose
name is too long (`Model.faultsIn_render`). Only a model without a header stops for another reason.
-/

namespace NativeApi

open Rendering (write stop concat block)

/-! ## Renderings -/

/-- If the rendering ends early, its fault is one of those that `P` allows. -/
def Rendering.FaultsIn (P : Fault → Prop) (r : Rendering) : Prop := ∀ fault ∈ r.fault, P fault

namespace Rendering.FaultsIn

variable {P Q : Fault → Prop} {r s : Rendering}

theorem of_fault_eq_none (h : r.fault = none) : r.FaultsIn P := by
  intro fault hfault
  rw [h] at hfault
  cases hfault

theorem write (t : Text) : (Rendering.write t).FaultsIn P := of_fault_eq_none rfl

theorem stop {fault : Fault} (h : P fault) : (Rendering.stop fault).FaultsIn P := by
  intro other hother
  rw [← Option.mem_some_iff.mp hother]
  exact h

theorem mono (h : r.FaultsIn P) (hPQ : ∀ fault, P fault → Q fault) : r.FaultsIn Q :=
  fun fault hfault ↦ hPQ fault (h fault hfault)

theorem append (hr : r.FaultsIn P) (hs : s.FaultsIn P) : (r ++ s).FaultsIn P := by
  intro fault hfault
  rw [fault_append] at hfault
  rcases Option.or_eq_some_iff.mp (Option.mem_def.mp hfault) with h | ⟨-, h⟩
  · exact hr fault h
  · exact hs fault h

theorem concat {α : Type} {render : α → Rendering} {as : List α}
    (h : ∀ a ∈ as, (render a).FaultsIn P) : (concat (as.map render)).FaultsIn P :=
  concat_map_induction (of_fault_eq_none rfl) (fun _ _ hr hs ↦ hr.append hs) h

theorem block (h : r.FaultsIn P) (level : Nat) : (block level r).FaultsIn P :=
  ((write _).append h).append (write _)

theorem classBlock (h : r.FaultsIn P) (head base : Text) : (classBlock head base r).FaultsIn P :=
  ((write _).append (h.block 0)).append (write _)

end Rendering.FaultsIn

/-! ## Members -/

/-- The fault says that the name of the enumeration behind the type is too long. -/
def TypeReference.Breaks (type : TypeReference) (fault : Fault) : Prop :=
  ∃ name ∈ type.backingEnum,
    CountedString.longLimit < name.length ∧ fault = .enumNameEncoding name

/-- The fault says that the argument of the function has a size out of its bound, or it is one of
the argument's type. -/
def Argument.Breaks (a : Argument) (function : Text) (fault : Fault) : Prop :=
  (∃ size ∈ a.size, ¬size.Fits ∧ fault = .arraySizeEncoding a.name function) ∨ a.type.Breaks fault

/-- The fault is one of an argument. -/
def Signature.Breaks (s : Signature) (fault : Fault) : Prop :=
  ∃ a ∈ s.arguments, a.Breaks s.name fault

theorem faultsIn_associatedEnum (level : Nat) (type : TypeReference) :
    (associatedEnum level type.backingEnum).FaultsIn type.Breaks := by
  cases hname : type.backingEnum with
  | none => exact .of_fault_eq_none rfl
  | some name =>
    cases hblob : Attribute.associatedEnum? name with
    | none =>
      simp only [associatedEnum, hblob]
      refine .stop ⟨name, hname, Nat.lt_of_not_le fun hle ↦ ?_, rfl⟩
      have hsome := Attribute.isSome_associatedEnum?_iff.mpr hle
      rw [hblob] at hsome
      cases hsome
    | some blob =>
      simp only [associatedEnum, hblob]
      exact .write _

namespace Argument

theorem faultsIn_sizeAttribute (level : Nat) (function : Text) (a : Argument) :
    (a.sizeAttribute level function).FaultsIn (a.Breaks function) := by
  cases hsize : a.size with
  | none =>
    simp only [sizeAttribute, hsize]
    exact .of_fault_eq_none rfl
  | some size =>
    cases hblob : size.blob? with
    | none =>
      simp only [sizeAttribute, hsize, hblob]
      refine .stop (.inl ⟨size, hsize, fun hfits ↦ ?_, rfl⟩)
      have hsome := ArraySize.isSome_blob?_iff.mpr hfits
      rw [hblob] at hsome
      cases hsome
    | some blob =>
      simp only [sizeAttribute, hsize, hblob]
      exact .write _

theorem faultsIn_attributes (level : Nat) (function : Text) (position : Nat) (a : Argument) :
    (a.attributes level function position).FaultsIn (a.Breaks function) := by
  rw [attributes]
  split
  · exact ((Rendering.FaultsIn.write _).append (faultsIn_sizeAttribute _ function a)).append
      ((faultsIn_associatedEnum _ a.type).mono fun _ h ↦ .inr h)
  · exact .of_fault_eq_none rfl

end Argument

theorem faultsIn_argumentAttributes (level : Nat) (function : Text) (position : Nat)
    (as : List Argument) :
    (argumentAttributes level function position as).FaultsIn
      fun fault ↦ ∃ a ∈ as, a.Breaks function fault := by
  induction as generalizing position with
  | nil => exact .of_fault_eq_none rfl
  | cons a as ih =>
    refine .append ((a.faultsIn_attributes level function position).mono ?_)
      ((ih (position + 1)).mono ?_)
    · exact fun _ h ↦ ⟨a, List.mem_cons_self, h⟩
    · rintro fault ⟨b, hb, h⟩
      exact ⟨b, List.mem_cons_of_mem a hb, h⟩

theorem faultsIn_method (m : Model) (head name implementation : Text) (s : Signature) :
    (method m head name implementation s).FaultsIn s.Breaks :=
  (Rendering.FaultsIn.write _).append ((faultsIn_argumentAttributes 2 s.name 1 s.arguments).block 1)

/-! ## Classes -/

theorem FreeFunction.faultsIn_render (m : Model) (f : FreeFunction) :
    (f.render m).FaultsIn f.signature.Breaks :=
  (faultsIn_method m _ _ _ f.signature).append (.write _)

theorem FunctionPointer.faultsIn_render (m : Model) (p : FunctionPointer) :
    (p.render m).FaultsIn p.signature.Breaks := by
  obtain ⟨blob, hblob⟩ := Option.isSome_iff_exists.mp (Attribute.isSome_functionPointer? p.code)
  have hconstructor : constructor.FaultsIn p.signature.Breaks := .of_fault_eq_none rfl
  rw [render, hblob]
  refine (Rendering.FaultsIn.append ?_ ?_).classBlock _ _
  · exact (Rendering.FaultsIn.write _).append hconstructor
  · exact faultsIn_method m _ _ _ p.signature

theorem Interface.faultsIn_render (m : Model) (i : Interface) :
    (i.render m).FaultsIn fun fault ↦ ∃ s ∈ i.methods, s.Breaks fault := by
  refine ((Rendering.FaultsIn.write _).append (.concat fun s hs ↦ ?_)).classBlock _ _
  exact (faultsIn_method m _ _ _ s).mono fun _ h ↦ ⟨s, hs, h⟩

theorem Struct.faultsIn_render (m : Model) (s : Struct) :
    (s.render m).FaultsIn fun fault ↦ ∃ f ∈ s.fields, f.type.Breaks fault := by
  refine (Rendering.FaultsIn.concat fun f hf ↦ ?_).classBlock _ _
  exact (Rendering.FaultsIn.write _).append
    ((faultsIn_associatedEnum 1 f.type).mono fun _ h ↦ ⟨f, hf, h⟩)

/-! ## Models -/

namespace Model

variable {m : Model}

/-- The fault says that there is no header, or it is one of an argument or a field of the model. -/
def Breaks (m : Model) (fault : Fault) : Prop :=
  (m.header = none ∧ fault = .noHeader) ∨ (∃ s ∈ m.signatures, s.Breaks fault) ∨
    ∃ f ∈ m.fields, f.type.Breaks fault

theorem faultsIn_renderApis (m : Model) :
    m.renderApis.FaultsIn fun fault ↦ ∃ f ∈ m.functions, f.signature.Breaks fault := by
  rw [renderApis]
  split
  · exact .of_fault_eq_none rfl
  · refine (Rendering.FaultsIn.append (.concat fun f hf ↦ ?_) (.write _)).classBlock _ _
    exact (f.faultsIn_render m).mono fun _ h ↦ ⟨f, hf, h⟩

/-- **What stops a rendering** is a missing header, or something that the model has. -/
theorem faultsIn_render (m : Model) : m.render.FaultsIn m.Breaks := by
  have hsignature {s : Signature} (hs : s ∈ m.signatures) (fault : Fault) (h : s.Breaks fault) :
      m.Breaks fault := .inr (.inl ⟨s, hs, h⟩)
  have hpointer {p : FunctionPointer} (hp : p ∈ m.functionPointers) : p.signature ∈ m.signatures :=
    List.mem_append_left _ (List.mem_append_right _ (List.mem_map_of_mem hp))
  have hfunctions (fault : Fault) (h : ∃ f ∈ m.functions, f.signature.Breaks fault) :
      m.Breaks fault := by
    obtain ⟨f, hf, h⟩ := h
    have hmem : f.signature ∈ m.signatures :=
      List.mem_append_left _ (List.mem_append_left _ (List.mem_map_of_mem hf))
    exact hsignature hmem fault h
  have hmethods {i : Interface} (hi : i ∈ m.interfaces) (fault : Fault)
      (h : ∃ s ∈ i.methods, s.Breaks fault) : m.Breaks fault := by
    obtain ⟨s, hs, h⟩ := h
    exact hsignature (List.mem_append_right _ (List.mem_flatMap.mpr ⟨i, hi, hs⟩)) fault h
  have hfields {s : Struct} (hs : s ∈ m.structs) (fault : Fault)
      (h : ∃ f ∈ s.fields, f.type.Breaks fault) : m.Breaks fault := by
    obtain ⟨f, hf, h⟩ := h
    exact .inr (.inr ⟨f, List.mem_flatMap.mpr ⟨s, hs, hf⟩, h⟩)
  rw [render]
  split
  · rename_i hheader
    exact .stop (.inl ⟨hheader, rfl⟩)
  · refine .append (.append (.append (.append (.append (.append (.append ?_ ?_) ?_) ?_) ?_) ?_)
      ?_) ?_
    · exact .write _
    · exact .of_fault_eq_none fault_references
    · exact .of_fault_eq_none (fault_identity _)
    · exact .concat fun p hp ↦ (p.faultsIn_render m).mono (hsignature (hpointer hp))
    · exact m.faultsIn_renderApis.mono hfunctions
    · exact .concat fun i hi ↦ (i.faultsIn_render m).mono (hmethods hi)
    · exact .concat fun e _ ↦ .of_fault_eq_none (e.fault_render m)
    · exact .concat fun s hs ↦ (s.faultsIn_render m).mono (hfields hs)

theorem Breaks.kind {fault : Fault} (h : m.Breaks fault) : fault.kind = .render := by
  have htype {type : TypeReference} (h : type.Breaks fault) : fault.kind = .render := by
    obtain ⟨name, -, -, rfl⟩ := h
    rfl
  rcases h with ⟨-, rfl⟩ | ⟨s, -, a, -, ⟨size, -, -, rfl⟩ | h⟩ | ⟨f, -, h⟩
  · rfl
  · rfl
  · exact htype h
  · exact htype h

end Model

end NativeApi

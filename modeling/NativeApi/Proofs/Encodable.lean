import NativeApi.Assembly.Module
import NativeApi.Collection.AttributeWord

/-!
# Encodable models

Rendering ends early where something has no encoding: an array size that its field cannot hold, the
name of an enumeration that is too long for a counted string, or a calling convention. The last
cannot happen, since conventions are 32-bit words. So a model with a header is rendered to its end
exactly if the array sizes of its arguments are within their bounds and the names of enumerations
that stand behind its arguments and its fields are not too long
(`Model.fault_render_eq_none_iff`).
-/

namespace NativeApi

/-! ## Blobs -/

theorem LittleEndian.isSome_encode?_iff {n width : Nat} :
    (LittleEndian.encode? n width).isSome ↔ n < Nat.pow 256 width := by
  rw [LittleEndian.encode?]
  by_cases h : n < Nat.pow 256 width
  · rw [if_pos h]
    exact iff_of_true rfl h
  · rw [if_neg h]
    exact iff_of_false (by simp) h

theorem CountedString.isSome_encode?_iff {t : Text} :
    (CountedString.encode? t).isSome ↔ t.length ≤ CountedString.longLimit := by
  rw [CountedString.encode?, Option.isSome_map, CountedString.compressed?]
  split
  · rename_i h
    exact iff_of_true rfl (Nat.le_trans h (by decide))
  · split
    · rename_i h
      exact iff_of_true rfl (Nat.le_trans h (by decide))
    · split
      · rename_i h
        exact iff_of_true rfl h
      · rename_i h
        exact iff_of_false (by simp) h

namespace Attribute

/-- A named field whose name is short has a blob if its value fits. -/
theorem isSome_namedField?_iff {elementType : UInt8} {name : Text} {value width : Nat}
    (hname : name.length ≤ CountedString.shortLimit) :
    (namedField? elementType name value width).isSome ↔ value < Nat.pow 256 width := by
  rw [← LittleEndian.isSome_encode?_iff, namedField?, CountedString.short?, if_pos hname]
  cases LittleEndian.encode? value width <;> simp

theorem isSome_associatedEnum?_iff {name : Text} :
    (associatedEnum? name).isSome ↔ name.length ≤ CountedString.longLimit := by
  rw [associatedEnum?, Option.isSome_map, CountedString.isSome_encode?_iff]

/-- Every 32-bit word is the calling convention of some blob. -/
theorem isSome_functionPointer? (code : UInt32) : (functionPointer? code.toNat).isSome := by
  rw [functionPointer?, Option.isSome_map, LittleEndian.isSome_encode?_iff]
  exact code.toNat_lt

end Attribute

namespace ArraySize

/-- The size is within the bound of its form. -/
def Fits : ArraySize → Prop
  | inArgument index => index < SizeForm.inArgument.bound
  | constant count => count < SizeForm.constant.bound

theorem isSome_blob?_iff {size : ArraySize} : size.blob?.isSome ↔ size.Fits := by
  cases size with
  | inArgument index => exact Attribute.isSome_namedField?_iff (by decide)
  | constant count => exact Attribute.isSome_namedField?_iff (by decide)

end ArraySize

/-! ## Renderings -/

namespace Rendering

@[simp] theorem fault_write (t : Text) : (write t).fault = none := rfl

@[simp] theorem fault_block (level : Nat) (body : Rendering) :
    (block level body).fault = body.fault := by
  rw [block, fault_append, fault_append, fault_write, fault_write, Option.none_or, Option.or_none]

/-- What renderings keep when they are put one behind the other holds of a list of them. -/
theorem concat_map_induction {α : Type} {P : Rendering → Prop} (hempty : P empty)
    (happend : ∀ r s, P r → P s → P (r ++ s)) {render : α → Rendering} {as : List α}
    (h : ∀ a ∈ as, P (render a)) : P (concat (as.map render)) := by
  induction as with
  | nil => exact hempty
  | cons a as ih =>
    obtain ⟨ha, has⟩ := List.forall_mem_cons.mp h
    exact happend _ _ ha (ih has)

theorem fault_concat_eq_none_iff {rs : List Rendering} :
    (concat rs).fault = none ↔ ∀ r ∈ rs, r.fault = none := by
  induction rs with
  | nil => exact iff_of_true rfl fun r hr ↦ absurd hr List.not_mem_nil
  | cons r rs ih =>
    rw [concat, List.foldr_cons, fault_append, Option.or_eq_none_iff, List.forall_mem_cons, ← ih,
      concat]

/-- A list of things is rendered to its end if each of them is. -/
theorem fault_concat_map_eq_none_iff {α : Type} {render : α → Rendering} {as : List α} :
    (concat (as.map render)).fault = none ↔ ∀ a ∈ as, (render a).fault = none := by
  rw [fault_concat_eq_none_iff, List.forall_mem_map]

end Rendering

/-! ## Members -/

/-- The enumeration behind a type, if there is one, has a name that can be written. -/
def TypeReference.Encodes (type : TypeReference) : Prop :=
  ∀ name ∈ type.backingEnum, name.length ≤ CountedString.longLimit

theorem fault_associatedEnum_eq_none_iff {level : Nat} {type : TypeReference} :
    (associatedEnum level type.backingEnum).fault = none ↔ type.Encodes := by
  rw [TypeReference.Encodes]
  cases type.backingEnum with
  | none => exact iff_of_true rfl fun name hname ↦ absurd hname (Option.not_mem_none name)
  | some name =>
    simp only [Option.mem_some_iff, forall_eq', ← Attribute.isSome_associatedEnum?_iff]
    rw [associatedEnum]
    cases Attribute.associatedEnum? name <;> simp [Rendering.stop]

namespace Argument

/-- The array size and the enumeration behind the type of an argument can be written. -/
def Encodes (a : Argument) : Prop := (∀ size ∈ a.size, size.Fits) ∧ a.type.Encodes

theorem fault_sizeAttribute_eq_none_iff {level : Nat} {function : Text} {a : Argument} :
    (sizeAttribute level function a).fault = none ↔ ∀ size ∈ a.size, size.Fits := by
  rw [sizeAttribute]
  cases a.size with
  | none => exact iff_of_true rfl fun size hsize ↦ absurd hsize (Option.not_mem_none size)
  | some size =>
    simp only [Option.mem_some_iff, forall_eq', ← ArraySize.isSome_blob?_iff]
    cases size.blob? <;> simp [Rendering.stop]

/-- An argument without attributes has nothing to encode. -/
theorem encodes_of_not_hasPayload {a : Argument} (h : a.hasPayload = false) : a.Encodes := by
  simp only [hasPayload, Bool.or_eq_false_iff, Option.isSome_eq_false_iff,
    Option.isNone_iff_eq_none] at h
  obtain ⟨⟨-, hsize⟩, henum⟩ := h
  refine ⟨fun size hmem ↦ ?_, fun name hmem ↦ ?_⟩
  · rw [hsize] at hmem
    cases hmem
  · rw [henum] at hmem
    cases hmem

theorem fault_attributes_eq_none_iff {level : Nat} {function : Text} {position : Nat}
    {a : Argument} : (a.attributes level function position).fault = none ↔ a.Encodes := by
  rw [attributes]
  by_cases h : a.hasPayload
  · rw [if_pos h, Rendering.fault_append, Rendering.fault_append, Rendering.fault_write,
      Option.none_or, Option.or_eq_none_iff, fault_sizeAttribute_eq_none_iff,
      fault_associatedEnum_eq_none_iff, Encodes]
  · rw [if_neg h]
    exact iff_of_true rfl (encodes_of_not_hasPayload (by simpa using h))

end Argument

theorem fault_argumentAttributes_eq_none_iff {level : Nat} {function : Text} {position : Nat}
    {as : List Argument} :
    (argumentAttributes level function position as).fault = none ↔ ∀ a ∈ as, a.Encodes := by
  induction as generalizing position with
  | nil => exact iff_of_true rfl fun a ha ↦ absurd ha List.not_mem_nil
  | cons a as ih =>
    rw [argumentAttributes, Rendering.fault_append, Option.or_eq_none_iff,
      Argument.fault_attributes_eq_none_iff, ih, List.forall_mem_cons]

theorem fault_method_eq_none_iff {m : Model} {head name implementation : Text} {s : Signature} :
    (method m head name implementation s).fault = none ↔ ∀ a ∈ s.arguments, a.Encodes := by
  rw [method, Rendering.fault_append, Rendering.fault_write, Option.none_or,
    Rendering.fault_block, fault_argumentAttributes_eq_none_iff]

/-! ## Classes -/

@[simp] theorem fault_classBlock (head base : Text) (members : Rendering) :
    (classBlock head base members).fault = members.fault := by
  rw [classBlock, Rendering.fault_append, Rendering.fault_append, Rendering.fault_write,
    Rendering.fault_block, Rendering.fault_write, Option.none_or, Option.or_none]

theorem FreeFunction.fault_render_eq_none_iff {m : Model} {f : FreeFunction} :
    (f.render m).fault = none ↔ ∀ a ∈ f.signature.arguments, a.Encodes := by
  rw [FreeFunction.render, Rendering.fault_append, Rendering.fault_write, Option.or_none,
    fault_method_eq_none_iff]

theorem FunctionPointer.fault_render_eq_none_iff {m : Model} {p : FunctionPointer} :
    (p.render m).fault = none ↔ ∀ a ∈ p.signature.arguments, a.Encodes := by
  obtain ⟨blob, hblob⟩ := Option.isSome_iff_exists.mp (Attribute.isSome_functionPointer? p.code)
  have hconstructor : constructor.fault = none := by
    rw [constructor, Rendering.fault_append, Rendering.fault_append, Rendering.fault_block]
    rfl
  rw [FunctionPointer.render, hblob]
  simp only [fault_classBlock, Rendering.fault_append, Rendering.fault_write, hconstructor,
    Option.none_or, fault_method_eq_none_iff]

theorem Interface.fault_render_eq_none_iff {m : Model} {i : Interface} :
    (i.render m).fault = none ↔ ∀ s ∈ i.methods, ∀ a ∈ s.arguments, a.Encodes := by
  rw [Interface.render]
  simp only [fault_classBlock, Rendering.fault_append, Rendering.fault_write, Option.none_or,
    Rendering.fault_concat_map_eq_none_iff, Interface.renderMethod, fault_method_eq_none_iff]

theorem Enumeration.fault_render (m : Model) (e : Enumeration) : (e.render m).fault = none := by
  rw [Enumeration.render, fault_classBlock, Rendering.fault_write]

theorem Field.fault_render_eq_none_iff {m : Model} {f : Field} :
    (f.render m).fault = none ↔ f.type.Encodes := by
  rw [Field.render, Rendering.fault_append, Rendering.fault_write, Option.none_or,
    fault_associatedEnum_eq_none_iff]

theorem Struct.fault_render_eq_none_iff {m : Model} {s : Struct} :
    (s.render m).fault = none ↔ ∀ f ∈ s.fields, f.type.Encodes := by
  rw [Struct.render, fault_classBlock, Rendering.fault_concat_map_eq_none_iff]
  simp only [Field.fault_render_eq_none_iff]

/-! ## Models -/

namespace Model

/-- All signatures of a model: of functions, function pointers and methods. -/
def signatures (m : Model) : List Signature :=
  m.functions.map (·.signature) ++ m.functionPointers.map (·.signature)
    ++ m.interfaces.flatMap (·.methods)

/-- All arguments of a model. -/
def arguments (m : Model) : List Argument := m.signatures.flatMap (·.arguments)

/-- All fields of a model. -/
def fields (m : Model) : List Field := m.structs.flatMap (·.fields)

theorem forall_mem_arguments {m : Model} {P : Argument → Prop} :
    (∀ a ∈ m.arguments, P a) ↔
      (∀ f ∈ m.functions, ∀ a ∈ f.signature.arguments, P a) ∧
        (∀ p ∈ m.functionPointers, ∀ a ∈ p.signature.arguments, P a) ∧
        ∀ i ∈ m.interfaces, ∀ s ∈ i.methods, ∀ a ∈ s.arguments, P a := by
  simp only [arguments, signatures, List.forall_mem_flatMap, List.forall_mem_append,
    List.forall_mem_map, and_assoc]

theorem forall_mem_fields {m : Model} {P : Field → Prop} :
    (∀ f ∈ m.fields, P f) ↔ ∀ s ∈ m.structs, ∀ f ∈ s.fields, P f := List.forall_mem_flatMap

theorem fault_references : references.fault = none := rfl

theorem fault_identity (h : Header) : (identity h).fault = none := by
  simp [identity]

theorem fault_renderApis_eq_none_iff {m : Model} :
    m.renderApis.fault = none ↔ ∀ f ∈ m.functions, ∀ a ∈ f.signature.arguments, a.Encodes := by
  rw [renderApis]
  split
  · rename_i h
    -- Without functions there is no argument to encode.
    rw [Bool.and_eq_true, List.isEmpty_iff] at h
    rw [h.1]
    exact iff_of_true rfl fun f hf ↦ absurd hf List.not_mem_nil
  · rw [fault_classBlock, Rendering.fault_append, Rendering.fault_write, Option.or_none,
      Rendering.fault_concat_map_eq_none_iff]
    simp only [FreeFunction.fault_render_eq_none_iff]

/-- A model is rendered to its end exactly if it has a header and everything in it has an
encoding. -/
theorem fault_render_eq_none_iff {m : Model} :
    m.render.fault = none ↔
      m.header.isSome ∧ (∀ a ∈ m.arguments, a.Encodes) ∧ ∀ f ∈ m.fields, f.type.Encodes := by
  rw [render]
  cases hheader : m.header with
  | none => simp [Rendering.stop]
  | some h =>
    simp only [Rendering.fault_append, Rendering.fault_write, fault_references, fault_identity,
      Option.none_or, Option.or_eq_none_iff, Rendering.fault_concat_map_eq_none_iff,
      FunctionPointer.fault_render_eq_none_iff, fault_renderApis_eq_none_iff,
      Interface.fault_render_eq_none_iff, Enumeration.fault_render,
      Struct.fault_render_eq_none_iff, forall_mem_arguments, forall_mem_fields]
    constructor
    · rintro ⟨⟨⟨⟨hpointers, hfunctions⟩, hinterfaces⟩, -⟩, hstructs⟩
      exact ⟨rfl, ⟨hfunctions, hpointers, hinterfaces⟩, hstructs⟩
    · rintro ⟨-, ⟨hfunctions, hpointers, hinterfaces⟩, hstructs⟩
      exact ⟨⟨⟨⟨hpointers, hfunctions⟩, hinterfaces⟩, fun _ _ ↦ trivial⟩, hstructs⟩

end Model

end NativeApi

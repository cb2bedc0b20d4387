import NativeApi.Proofs.Slots

/-!
# Associations in the text

An integer that stands for a value of an enumeration remembers the enumeration. Since the name of
the enumeration has been replaced by that of its base type, what the integer remembers is all that
tells it from a plain one. Two models that differ in one such association, at one place, are
rendered alike around that place; what the place itself shows depends on its kind.

* For an argument or a field, an attribute that names the enumeration is put into the text, so the
  association is not lost (`Model.DifferAt.inserts`).
* A return type has no attributes: arguments are numbered from one, because zero is the return
  value, and nothing is written for zero. The texts are equal (`Model.DifferAt.render_eq`).

Both follow in the same way, from what rendering keeps around a change (`Rendering.Stable`).
-/

namespace NativeApi

open Rendering (write concat indent)

/-! ## Around a change -/

namespace Rendering

/-- A relation of renderings that is kept by what stands before and behind them. -/
structure Stable (R : Rendering → Rendering → Prop) : Prop where
  append_left : ∀ q r s, R r s → R (q ++ r) (q ++ s)
  append_right : ∀ q r s, R r s → R (r ++ q) (s ++ q)

/-- If both are written to their end, the text of the second is that of the first with `t` put into
it at one place. -/
def Inserts (t : Text) (r s : Rendering) : Prop :=
  r.fault = none → s.fault = none →
    ∃ before after, r.text = before ++ after ∧ s.text = before ++ t ++ after

theorem stable_eq : Stable (· = ·) where
  append_left q r s h := by rw [h]
  append_right q r s h := by rw [h]

theorem stable_inserts (t : Text) : Stable (Inserts t) where
  append_left q r s h hr hs := by
    rw [fault_append, Option.or_eq_none_iff] at hr hs
    obtain ⟨before, after, hfirst, hsecond⟩ := h hr.2 hs.2
    refine ⟨q.text ++ before, after, ?_, ?_⟩
    · rw [text_append, if_pos hr.1, hfirst, List.append_assoc]
    · rw [text_append, if_pos hr.1, hsecond]
      simp only [List.append_assoc]
  append_right q r s h hr hs := by
    rw [fault_append, Option.or_eq_none_iff] at hr hs
    obtain ⟨before, after, hfirst, hsecond⟩ := h hr.1 hs.1
    refine ⟨before, after ++ q.text, ?_, ?_⟩
    · rw [text_append, if_pos hr.1, hfirst, List.append_assoc]
    · rw [text_append, if_pos hs.1, hsecond]
      simp only [List.append_assoc]

theorem Inserts.text_ne {t : Text} {r s : Rendering} (h : Inserts t r s) (ht : t ≠ [])
    (hr : r.fault = none) (hs : s.fault = none) : s.text ≠ r.text := by
  obtain ⟨before, after, hfirst, hsecond⟩ := h hr hs
  intro heq
  rw [hfirst, hsecond, List.append_assoc] at heq
  have hafter : t ++ after = after := List.append_cancel_left heq
  exact ht (List.append_left_eq_self.mp hafter)

/-- Where nothing is written at first, what is put in may start with any text. -/
theorem Inserts.write_append {t : Text} {r : Rendering} (h : Inserts t empty r) (u : Text) :
    Inserts (u ++ t) empty (write u ++ r) := by
  intro hempty hr
  rw [fault_append, fault_write, Option.none_or] at hr
  obtain ⟨before, after, hnil, htext⟩ := h hempty hr
  obtain ⟨rfl, rfl⟩ := List.append_eq_nil_iff.mp hnil.symm
  refine ⟨[], [], rfl, ?_⟩
  simp only [List.nil_append, List.append_nil] at htext ⊢
  rw [text_append, if_pos (fault_write u), htext]
  rfl

variable {R : Rendering → Rendering → Prop} {r s : Rendering}

theorem Stable.block (hR : Stable R) (level : Nat) (h : R r s) :
    R (block level r) (block level s) :=
  hR.append_right _ _ _ (hR.append_left _ _ _ h)

theorem Stable.classBlock (hR : Stable R) (head base : Text) (h : R r s) :
    R (classBlock head base r) (classBlock head base s) :=
  hR.append_right _ _ _ (hR.append_left _ _ _ (hR.block 0 h))

/-- Of a list of things, only the one that is changed matters. -/
theorem Stable.concat_modify {α : Type} (hR : Stable R) {render : α → Rendering} {f : α → α}
    {l : List α} {i : Nat} {a : α} (ha : l[i]? = some a) (h : R (render a) (render (f a))) :
    R (concat (l.map render)) (concat ((l.modify i f).map render)) := by
  induction l generalizing i with
  | nil => cases ha
  | cons b l ih =>
    cases i with
    | zero =>
      obtain rfl : b = a := Option.some.inj ha
      exact hR.append_right _ _ _ h
    | succ i => exact hR.append_left _ _ _ (ih ha)

end Rendering

/-! ## Models with the same types -/

/-- The text of an argument list depends on those of its arguments only. -/
theorem argumentLines_congr {m n : Model} {level : Nat} {as bs : List Argument}
    (h : as.map (Argument.declaration m) = bs.map (Argument.declaration n)) :
    argumentLines m level as = argumentLines n level bs := by
  induction as generalizing bs with
  | nil => rw [List.map_eq_nil_iff.mp h.symm]; rfl
  | cons a as ih =>
    obtain ⟨b, bs, rfl, hb, hbs⟩ := List.map_eq_cons_iff.mp h.symm
    have htail := ih hbs.symm
    cases as with
    | nil =>
      obtain rfl : bs = [] := List.map_eq_nil_iff.mp hbs
      simp only [argumentLines, hb]
    | cons c as =>
      obtain ⟨d, bs, rfl, -, -⟩ := List.map_eq_cons_iff.mp hbs
      show indent level ++ a.declaration m ++ ",\n" ++ argumentLines m level (c :: as)
        = indent level ++ b.declaration n ++ ",\n" ++ argumentLines n level (d :: bs)
      rw [htail, hb]

namespace Model

/-- Types have the same text in both models, and so have the names that they declare. -/
structure SameTypes (m n : Model) : Prop where
  ilType : n.ilType = m.ilType
  qualified : n.qualified = m.qualified

variable {m n : Model}

/-- The text of a type depends on the header and on the names of function pointers and structs. -/
theorem sameTypes_of_names (hheader : n.header = m.header)
    (hpointers : n.functionPointers.map (·.signature.name)
      = m.functionPointers.map (·.signature.name))
    (hstructs : n.structs.map (·.name) = m.structs.map (·.name)) : m.SameTypes n := by
  have hqualified : n.qualified = m.qualified := by
    funext name
    rw [qualified, qualified, Model.name, Model.name, hheader]
  have hpointer (name : Text) :
      n.declaresFunctionPointer name = m.declaresFunctionPointer name := by
    have h := congrArg (List.any · (· == name)) hpointers
    rwa [List.any_map, List.any_map] at h
  have hstruct (name : Text) : n.declaresStruct name = m.declaresStruct name := by
    have h := congrArg (List.any · (· == name)) hstructs
    rwa [List.any_map, List.any_map] at h
  refine ⟨?_, hqualified⟩
  funext type
  simp only [ilType, baseIlType, resolution, hpointer, hstruct, hqualified]

namespace SameTypes

variable (h : m.SameTypes n)
include h

theorem method : method n = method m := by
  have hdeclaration : Argument.declaration n = Argument.declaration m := by
    funext a
    simp only [Argument.declaration, h.ilType]
  have hlines (as : List Argument) : argumentLines n 3 as = argumentLines m 3 as :=
    argumentLines_congr (by rw [hdeclaration])
  funext head name implementation s
  simp only [NativeApi.method, h.ilType, hlines]

theorem function : FreeFunction.render n = FreeFunction.render m := by
  funext f
  simp only [FreeFunction.render, h.method]

theorem functionPointer : FunctionPointer.render n = FunctionPointer.render m := by
  funext p
  simp only [FunctionPointer.render, h.method, h.qualified]

theorem apis (hfunctions : n.functions = m.functions) (hguids : n.guids = m.guids) :
    n.renderApis = m.renderApis := by
  rw [renderApis, renderApis, h.function, h.qualified, hfunctions, hguids]

theorem interface : Interface.render n = Interface.render m := by
  have hmethod : Interface.renderMethod n = Interface.renderMethod m := by
    funext s
    simp only [Interface.renderMethod, h.method]
  funext i
  simp only [Interface.render, hmethod, h.ilType, h.qualified]

theorem enumeration : Enumeration.render n = Enumeration.render m := by
  have hvariant (e : Enumeration) : e.variantLine n = e.variantLine m := by
    funext v
    simp only [Enumeration.variantLine, h.ilType, h.qualified]
  funext e
  simp only [Enumeration.render, hvariant, h.ilType, h.qualified]

theorem struct : Struct.render n = Struct.render m := by
  have hfield : Field.render n = Field.render m := by
    funext f
    simp only [Field.render, h.ilType]
  funext s
  simp only [Struct.render, hfield, h.qualified]

end SameTypes

end Model

/-! ## Places of type references -/

/-- Where a model keeps a type that may stand for values of an enumeration. -/
inductive TypePlace
  | returned (slot : CallableSlot)
  | argument (slot : CallableSlot) (position : Nat)
  | field (struct position : Nat)
  deriving DecidableEq, Repr

namespace TypePlace

def isReturned : TypePlace → Bool
  | returned _ => true
  | _ => false

end TypePlace

namespace TypeReference

/-- The same type, as one that stands for values of an enumeration. -/
def associate (name : Text) (type : TypeReference) : TypeReference :=
  { type with backingEnum := some name }

end TypeReference

namespace Argument

def associate (name : Text) (a : Argument) : Argument := { a with type := a.type.associate name }

end Argument

namespace Field

def associate (name : Text) (f : Field) : Field := { f with type := f.type.associate name }

end Field

namespace Signature

def associateReturned (name : Text) (s : Signature) : Signature :=
  { s with returnType := s.returnType.associate name }

def associateArgument (position : Nat) (name : Text) (s : Signature) : Signature :=
  { s with arguments := s.arguments.modify position (Argument.associate name) }

end Signature

namespace Struct

def associateField (position : Nat) (name : Text) (s : Struct) : Struct :=
  { s with fields := s.fields.modify position (Field.associate name) }

end Struct

namespace FreeFunction

def mapSignature (f : Signature → Signature) (g : FreeFunction) : FreeFunction :=
  { g with signature := f g.signature }

end FreeFunction

namespace FunctionPointer

def mapSignature (f : Signature → Signature) (p : FunctionPointer) : FunctionPointer :=
  { p with signature := f p.signature }

end FunctionPointer

namespace Interface

def modifyMethod (index : Nat) (f : Signature → Signature) (i : Interface) : Interface :=
  { i with methods := i.methods.modify index f }

end Interface

namespace Model

/-- Changes the signature in a slot. -/
def modifySignature (m : Model) (f : Signature → Signature) : CallableSlot → Model
  | .function index =>
    { m with functions := m.functions.modify index (FreeFunction.mapSignature f) }
  | .functionPointer index =>
    { m with functionPointers := m.functionPointers.modify index (FunctionPointer.mapSignature f) }
  | .method interface index =>
    { m with interfaces := m.interfaces.modify interface (Interface.modifyMethod index f) }

/-- The type at a place. -/
def typeAt? (m : Model) : TypePlace → Option TypeReference
  | .returned slot => (m.signature? slot).map (·.returnType)
  | .argument slot position => (m.signature? slot).bind fun s ↦ s.arguments[position]?.map (·.type)
  | .field struct position => m.structs[struct]?.bind fun s ↦ s.fields[position]?.map (·.type)

/-- Puts an enumeration behind the type at a place. -/
def associate (m : Model) (name : Text) : TypePlace → Model
  | .returned slot => m.modifySignature (Signature.associateReturned name) slot
  | .argument slot position => m.modifySignature (Signature.associateArgument position name) slot
  | .field struct position =>
    { m with structs := m.structs.modify struct (Struct.associateField position name) }

/-- The models are equal, except that the type at one place has nothing behind it in the first and
an enumeration in the second. -/
structure DifferAt (m n : Model) (place : TypePlace) (name : Text) : Prop where
  plain : ∃ type, m.typeAt? place = some type ∧ type.backingEnum = none
  eq : n = m.associate name place

end Model

/-! ## Rendering with one change -/

theorem Model.sameTypes_modifySignature {f : Signature → Signature}
    (hname : ∀ s, (f s).name = s.name) (m : Model) (slot : CallableSlot) :
    m.SameTypes (m.modifySignature f slot) := by
  refine sameTypes_of_names ?_ ?_ ?_
  · cases slot <;> rfl
  · cases slot with
    | functionPointer index =>
      exact map_modify_of_eq (FunctionPointer.mapSignature f) (·.signature.name)
        (fun p ↦ hname p.signature) index
    | _ => rfl
  · cases slot <;> rfl

namespace Rendering.Stable

variable {R : Rendering → Rendering → Prop} (hR : Stable R) {m : Model}
include hR

section Signature

variable {f : Signature → Signature} {s : Signature} (hname : ∀ s, (f s).name = s.name)
  (h : ∀ head name implementation,
    R (method m head name implementation s) (method m head name implementation (f s)))
include hname h

theorem function {g : FreeFunction} (hg : g.signature = s) :
    R (g.render m) ((g.mapSignature f).render m) := by
  subst hg
  rw [FreeFunction.render, FreeFunction.render, FreeFunction.mapSignature, hname]
  exact hR.append_right _ _ _ (h _ _ _)

theorem functionPointer {p : FunctionPointer} (hp : p.signature = s) :
    R (p.render m) ((p.mapSignature f).render m) := by
  subst hp
  obtain ⟨blob, hblob⟩ := Option.isSome_iff_exists.mp (Attribute.isSome_functionPointer? p.code)
  simp only [FunctionPointer.render, FunctionPointer.mapSignature, hblob, hname]
  exact hR.classBlock _ _ (hR.append_left _ _ _ (h _ _ _))

theorem interface {i : Interface} {index : Nat} (hi : i.methods[index]? = some s) :
    R (i.render m) ((i.modifyMethod index f).render m) := by
  have hmethod : R (Interface.renderMethod m s) (Interface.renderMethod m (f s)) := by
    rw [Interface.renderMethod, Interface.renderMethod, hname]
    exact h _ _ _
  exact hR.classBlock _ _ (hR.append_left _ _ _ (hR.concat_modify hi hmethod))

theorem renderApis {g : FreeFunction} {index : Nat} (hg : m.functions[index]? = some g)
    (hs : g.signature = s) :
    R m.renderApis (m.modifySignature f (.function index)).renderApis := by
  have htypes := m.sameTypes_modifySignature hname (.function index)
  have hempty : m.functions.isEmpty = false := by
    rw [List.isEmpty_eq_false_iff]
    exact List.ne_nil_of_mem (List.mem_of_getElem? hg)
  have hempty' : (m.modifySignature f (.function index)).functions.isEmpty = false := by
    rw [List.isEmpty_eq_false_iff, ← List.length_pos_iff] at hempty ⊢
    exact (List.length_modify _ _ _).symm ▸ hempty
  rw [Model.renderApis, Model.renderApis, hempty, hempty', htypes.function, htypes.qualified]
  exact hR.classBlock _ _ (hR.append_right _ _ _
    (hR.concat_modify hg (hR.function hname h hs)))

/-- A change of one signature matters to the text of the model as it matters to the method that the
signature is rendered as, whichever kind of callable it belongs to. -/
theorem render_modifySignature {slot : CallableSlot} (hs : m.signature? slot = some s)
    (hheader : m.header.isSome) : R m.render (m.modifySignature f slot).render := by
  obtain ⟨header, hheader⟩ := Option.isSome_iff_exists.mp hheader
  have htypes := m.sameTypes_modifySignature hname slot
  have hheader' : (m.modifySignature f slot).header = some header := by
    rw [← hheader]
    cases slot <;> rfl
  rw [Model.render, Model.render, hheader, hheader']
  simp only [htypes.functionPointer, htypes.interface, htypes.enumeration, htypes.struct]
  -- All parts of the text but one are now the same on both sides. Those behind the changed part are
  -- taken off one by one, then those before it at once.
  cases slot with
  | function index =>
    obtain ⟨g, hg, hs⟩ := Option.map_eq_some_iff.mp hs
    have hapis := hR.renderApis hname h hg hs
    exact hR.append_right _ _ _ (hR.append_right _ _ _ (hR.append_right _ _ _
      (hR.append_left _ _ _ hapis)))
  | functionPointer index =>
    obtain ⟨p, hp, hs⟩ := Option.map_eq_some_iff.mp hs
    have hpointers := hR.concat_modify hp (hR.functionPointer hname h hs)
    rw [htypes.apis rfl rfl]
    exact hR.append_right _ _ _ (hR.append_right _ _ _ (hR.append_right _ _ _
      (hR.append_right _ _ _ (hR.append_left _ _ _ hpointers))))
  | method interface index =>
    obtain ⟨i, hi, hs⟩ := Option.bind_eq_some_iff.mp hs
    have hinterfaces := hR.concat_modify hi (hR.interface hname h hs)
    rw [htypes.apis rfl rfl]
    exact hR.append_right _ _ _ (hR.append_right _ _ _ (hR.append_left _ _ _ hinterfaces))

end Signature

/-- The attributes of an argument matter to those of all arguments. -/
theorem argumentAttributes_modify {level : Nat} {function : Text} {f : Argument → Argument}
    {as : List Argument} {a : Argument} {k start : Nat} (ha : as[k]? = some a)
    (h : R (a.attributes level function (start + k))
      ((f a).attributes level function (start + k))) :
    R (argumentAttributes level function start as)
      (argumentAttributes level function start (as.modify k f)) := by
  induction as generalizing k start with
  | nil => cases ha
  | cons b as ih =>
    cases k with
    | zero =>
      obtain rfl : b = a := Option.some.inj ha
      exact hR.append_right _ _ _ h
    | succ k =>
      rw [← Nat.succ_add_eq_add_succ] at h
      exact hR.append_left _ _ _ (ih ha h)

theorem method_associateArgument {s : Signature} {a : Argument} {position : Nat} {name : Text}
    (ha : s.arguments[position]? = some a)
    (h : R (a.attributes 2 s.name (1 + position))
      ((a.associate name).attributes 2 s.name (1 + position)))
    (head inClass implementation : Text) :
    R (method m head inClass implementation s)
      (method m head inClass implementation (s.associateArgument position name)) := by
  have hlines : argumentLines m 3 (s.associateArgument position name).arguments
      = argumentLines m 3 s.arguments :=
    argumentLines_congr (map_modify_of_eq (Argument.associate name) _ (fun _ ↦ rfl) position)
  rw [method, method, hlines]
  exact hR.append_left _ _ _ (hR.block 1 (hR.argumentAttributes_modify ha h))

/-- A change of one field matters to the text of the model as the field does. -/
theorem render_associateField {s : Struct} {f : Field} {struct position : Nat} {name : Text}
    (hs : m.structs[struct]? = some s) (hf : s.fields[position]? = some f)
    (h : R (f.render m) ((f.associate name).render m)) (hheader : m.header.isSome) :
    R m.render (m.associate name (.field struct position)).render := by
  obtain ⟨header, hheader⟩ := Option.isSome_iff_exists.mp hheader
  have hheader' : (m.associate name (.field struct position)).header = some header := hheader
  have htypes : m.SameTypes (m.associate name (.field struct position)) :=
    Model.sameTypes_of_names rfl rfl
      (map_modify_of_eq (Struct.associateField position name) (·.name) (fun _ ↦ rfl) struct)
  have hstruct : R (s.render m) ((s.associateField position name).render m) :=
    hR.classBlock _ _ (hR.concat_modify hf h)
  rw [Model.render, Model.render, hheader, hheader', htypes.apis rfl rfl]
  simp only [htypes.functionPointer, htypes.interface, htypes.enumeration, htypes.struct]
  exact hR.append_left _ _ _ (hR.concat_modify hs hstruct)

end Rendering.Stable

/-! ## What an association shows -/

/-- The attribute that names an enumeration. -/
def associationAttribute (level : Nat) (name : Text) : Text :=
  customAttribute level (platformAttribute "AssociatedEnumAttribute::.ctor(string)")
    ((Attribute.associatedEnum? name).getD []) name

theorem inserts_associatedEnum (level : Nat) (name : Text) :
    (associatedEnum level none).Inserts (associationAttribute level name)
      (associatedEnum level (some name)) := by
  intro _ hfault
  refine ⟨[], [], rfl, ?_⟩
  rw [associatedEnum] at hfault ⊢
  rw [associationAttribute]
  cases hblob : Attribute.associatedEnum? name with
  | none =>
    rw [hblob] at hfault
    cases hfault
  | some blob => simp [write]

/-- An association shows itself in the argument by its attribute. If the argument has no other
attribute, the line above the attributes of an argument comes with it. -/
def Argument.associationText (level position : Nat) (a : Argument) (name : Text) : Text :=
  Text.showIf (!a.hasPayload) (indent level ++ ".param [" ++ Text.decimal position ++ "]\n")
    ++ associationAttribute (level + 1) name

theorem Argument.inserts_attributes {a : Argument} (ha : a.type.backingEnum = none)
    (level position : Nat) (function name : Text) :
    (a.attributes level function position).Inserts (a.associationText level position name)
      ((a.associate name).attributes level function position) := by
  have hpayload : (a.associate name).hasPayload = true := by
    simp [Argument.hasPayload, associate, TypeReference.associate]
  have hattribute := inserts_associatedEnum (level + 1) name
  rw [attributes, attributes, if_pos hpayload, associationText]
  cases h : a.hasPayload with
  | true =>
    rw [if_pos rfl, ha]
    exact (Rendering.stable_inserts _).append_left _ _ _ hattribute
  | false =>
    simp only [hasPayload, Bool.or_eq_false_iff, Option.isSome_eq_false_iff,
      Option.isNone_iff_eq_none] at h
    obtain ⟨⟨⟨hconst, hcomOut⟩, hsize⟩, -⟩ := h
    have hshort := hattribute.write_append
      (indent level ++ ".param [" ++ Text.decimal position ++ "]\n")
    simpa [associate, TypeReference.associate, sizeAttribute, markerAttribute, Text.showIf, hconst,
      hcomOut, hsize] using hshort

theorem Field.inserts_render {m : Model} {f : Field} (hf : f.type.backingEnum = none)
    (name : Text) :
    (f.render m).Inserts (associationAttribute 1 name) ((f.associate name).render m) := by
  rw [render, render, hf]
  exact (Rendering.stable_inserts _).append_left _ _ _ (inserts_associatedEnum 1 name)

theorem associationAttribute_ne_nil (level : Nat) (name : Text) :
    associationAttribute level name ≠ [] :=
  List.append_ne_nil_of_right_ne_nil _ (by decide)

namespace Model

variable {m n : Model} {place : TypePlace} {name : Text}

/-- A return type is rendered alike with and without an enumeration behind it. -/
theorem DifferAt.render_eq (h : m.DifferAt n place name) (hplace : place.isReturned = true)
    (hheader : m.header.isSome) : n.render = m.render := by
  obtain ⟨⟨type, htype, -⟩, rfl⟩ := h
  cases place with
  | returned slot =>
    obtain ⟨s, hs, -⟩ := Option.map_eq_some_iff.mp htype
    exact (Rendering.stable_eq.render_modifySignature (f := Signature.associateReturned name)
      (fun _ ↦ rfl) (fun _ _ _ ↦ rfl) hs hheader).symm
  | argument slot position => cases hplace
  | field struct position => cases hplace

/-- **Associations are put into the text.** The text of a model with an enumeration behind an
argument or a field is the text without it and, at one place, something that ends with the attribute
that names the enumeration. -/
theorem DifferAt.inserts (h : m.DifferAt n place name) (hplace : place.isReturned = false)
    (hheader : m.header.isSome) :
    ∃ level t, m.render.Inserts (t ++ associationAttribute level name) n.render := by
  obtain ⟨⟨type, htype, hplain⟩, rfl⟩ := h
  cases place with
  | returned slot => cases hplace
  | argument slot position =>
    obtain ⟨s, hs, htype⟩ := Option.bind_eq_some_iff.mp htype
    obtain ⟨a, ha, rfl⟩ := Option.map_eq_some_iff.mp htype
    have hstable := Rendering.stable_inserts (a.associationText 2 (1 + position) name)
    have hattributes := Argument.inserts_attributes hplain 2 (1 + position) s.name name
    have hmethod := hstable.method_associateArgument (m := m) ha hattributes
    have hrender := hstable.render_modifySignature (f := Signature.associateArgument position name)
      (fun _ ↦ rfl) hmethod hs hheader
    exact ⟨3, _, hrender⟩
  | field struct position =>
    obtain ⟨s, hs, htype⟩ := Option.bind_eq_some_iff.mp htype
    obtain ⟨f, hf, rfl⟩ := Option.map_eq_some_iff.mp htype
    have hstable := Rendering.stable_inserts (associationAttribute 1 name)
    have hfield := Field.inserts_render (m := m) hplain name
    exact ⟨1, [], hstable.render_associateField hs hf hfield hheader⟩

end Model

/-- **Associations of arguments and fields are not lost.** Two models differ in one association, and
both are rendered to their end. If an argument or a field has it, the texts differ. If a return type
has it, the texts are equal: nothing is written about the enumeration behind a return type. -/
theorem association_in_text {m n : Model} {place : TypePlace} {name : Text}
    (h : m.DifferAt n place name) (hm : m.render.fault = none) (hn : n.render.fault = none) :
    (place.isReturned = false → n.render.text ≠ m.render.text) ∧
      (place.isReturned = true → n.render.text = m.render.text) := by
  have hheader : m.header.isSome := (Model.fault_render_eq_none_iff.mp hm).1
  constructor
  · intro hplace
    obtain ⟨level, t, hinserts⟩ := h.inserts hplace hheader
    have hne : t ++ associationAttribute level name ≠ [] :=
      List.append_ne_nil_of_right_ne_nil _ (associationAttribute_ne_nil level name)
    exact hinserts.text_ne hne hm hn
  · intro hplace
    rw [h.render_eq hplace hheader]

/-- A model with an enumeration and a method, whose return type and argument are chosen. -/
def showModel (returned argument : Text) : Model :=
  let call := Call.source (fun _ ↦ none)
    ⟨"show", ["meta\tApi\t1.0.0.0", "enum\tMode\tDWORD", "iface\tIView\t1\t2\tIUnknown",
      "meth\tShow\t" ++ returned ++ "\t0", "arg\tin\tmode\t" ++ argument ++ "\t0",
      "struct\tMode", "guid\tId\t23170f69-40c1-278a-0000-000100020000"]⟩
  (call.perform Session.initial).session.state.model

theorem association_in_text_of_method_argument :
    (showModel "DWORD" "DWORD").DifferAt (showModel "DWORD" "Mode")
        (.argument (.method 0 0) 0) "Mode" ∧
      (showModel "DWORD" "DWORD").render.fault = none ∧
      (showModel "DWORD" "Mode").render.fault = none ∧
      (showModel "DWORD" "Mode").render.text ≠ (showModel "DWORD" "DWORD").render.text := by
  have hdiffer : (showModel "DWORD" "DWORD").DifferAt (showModel "DWORD" "Mode")
      (.argument (.method 0 0) 0) "Mode" :=
    ⟨⟨.named "DWORD", by decide +kernel, rfl⟩, by decide +kernel⟩
  have hplain : (showModel "DWORD" "DWORD").render.fault = none := by decide +kernel
  have hbacked : (showModel "DWORD" "Mode").render.fault = none := by decide +kernel
  exact ⟨hdiffer, hplain, hbacked, (association_in_text hdiffer hplain hbacked).1 rfl⟩

/-- The enumeration behind a return type leaves no trace in the text. -/
theorem association_lost_in_return_type :
    ¬∀ (m n : Model) (place : TypePlace) (name : Text), m.DifferAt n place name →
      m.render.fault = none → n.render.fault = none → n.render.text ≠ m.render.text := by
  intro h
  have hdiffer : (showModel "DWORD" "DWORD").DifferAt (showModel "Mode" "DWORD")
      (.returned (.method 0 0)) "Mode" :=
    ⟨⟨.named "DWORD", by decide +kernel, rfl⟩, by decide +kernel⟩
  have hplain : (showModel "DWORD" "DWORD").render.fault = none := by decide +kernel
  have hequal : (showModel "Mode" "DWORD").render = (showModel "DWORD" "DWORD").render :=
    hdiffer.render_eq rfl (Model.fault_render_eq_none_iff.mp hplain).1
  have hbacked : (showModel "Mode" "DWORD").render.fault = none := by
    rw [hequal]
    exact hplain
  exact h _ _ _ _ hdiffer hplain hbacked (congrArg Rendering.text hequal)

end NativeApi

import NativeApi.Proofs.Growth
import NativeApi.Proofs.Position

/-!
# Texts of a model

A model holds texts at many places: names of declarations, of types and of libraries, versions and
conventions. `Model.AllTexts` says of all of them at once that they have a property. A text comes
into a model with an entry, so if the texts of entries have the property, so has everything that has
been declared (`State.AllTexts.add`).
-/

namespace NativeApi

variable {P : Text → Prop}

/-! ## Texts with a property -/

/-- What holds of all elements, and of what a change makes of an element, holds of all after it. -/
theorem forall_mem_modify {α : Type} {Q : α → Prop} {f : α → α} {l : List α} {i : Nat}
    (h : ∀ a ∈ l, Q a) (hf : ∀ a, Q a → Q (f a)) : ∀ a ∈ l.modify i f, Q a := by
  intro a ha
  rcases mem_modify ha with ha | ⟨b, hb, rfl⟩
  · exact h a ha
  · exact hf b (h b hb)

theorem forall_mem_append_singleton {α : Type} {Q : α → Prop} {l : List α} {a : α}
    (h : ∀ b ∈ l, Q b) (ha : Q a) : ∀ b ∈ l ++ [a], Q b :=
  List.forall_mem_append.mpr ⟨h, List.forall_mem_singleton.mpr ha⟩

namespace TypeReference

/-- The texts of a mention are the name of the type and that of the enumeration behind it. -/
def AllTexts (P : Text → Prop) (type : TypeReference) : Prop :=
  P type.name ∧ ∀ name ∈ type.backingEnum, P name

theorem allTexts_named {name : Text} (h : P name) : (named name).AllTexts P :=
  ⟨h, fun _ hname ↦ absurd hname (Option.not_mem_none _)⟩

end TypeReference

structure Argument.AllTexts (P : Text → Prop) (a : Argument) : Prop where
  name : P a.name
  type : a.type.AllTexts P

structure Signature.AllTexts (P : Text → Prop) (s : Signature) : Prop where
  name : P s.name
  returnType : s.returnType.AllTexts P
  arguments : ∀ a ∈ s.arguments, a.AllTexts P

structure FreeFunction.AllTexts (P : Text → Prop) (f : FreeFunction) : Prop where
  signature : f.signature.AllTexts P
  dll : P f.dll
  convention : P f.convention

structure Interface.AllTexts (P : Text → Prop) (i : Interface) : Prop where
  name : P i.name
  base : i.base.AllTexts P
  methods : ∀ s ∈ i.methods, s.AllTexts P

structure Enumeration.AllTexts (P : Text → Prop) (e : Enumeration) : Prop where
  name : P e.name
  base : e.base.AllTexts P
  variants : ∀ v ∈ e.variants, P v.name

structure Field.AllTexts (P : Text → Prop) (f : Field) : Prop where
  name : P f.name
  type : f.type.AllTexts P

structure Struct.AllTexts (P : Text → Prop) (s : Struct) : Prop where
  name : P s.name
  fields : ∀ f ∈ s.fields, f.AllTexts P

structure GuidConstant.AllTexts (P : Text → Prop) (c : GuidConstant) : Prop where
  name : P c.name
  display : P c.display

structure Header.AllTexts (P : Text → Prop) (h : Header) : Prop where
  name : P h.name
  version : P h.version

/-- Every text of a model has a property. -/
structure Model.AllTexts (P : Text → Prop) (m : Model) : Prop where
  header : ∀ h ∈ m.header, h.AllTexts P
  functions : ∀ f ∈ m.functions, f.AllTexts P
  functionPointers : ∀ p ∈ m.functionPointers, p.signature.AllTexts P
  interfaces : ∀ i ∈ m.interfaces, i.AllTexts P
  enumerations : ∀ e ∈ m.enumerations, e.AllTexts P
  structs : ∀ s ∈ m.structs, s.AllTexts P
  guids : ∀ c ∈ m.guids, c.AllTexts P
  dlls : ∀ dll ∈ m.dlls, P dll

/-- Every text of an entry has a property. -/
def Entry.AllTexts (P : Text → Prop) : Entry → Prop
  | .header h => h.AllTexts P
  | .functionPointer name returnType _ => P name ∧ returnType.AllTexts P
  | .dll name => P name ∧ P (Text.toLower name)
  | .function name returnType convention => P name ∧ returnType.AllTexts P ∧ P convention
  | .argument a => a.AllTexts P
  | .interface name _ _ base => P name ∧ base.AllTexts P
  | .method name returnType => P name ∧ returnType.AllTexts P
  | .enumeration name base _ => P name ∧ base.AllTexts P
  | .variant v => P v.name
  | .struct name => P name
  | .field f => f.AllTexts P
  | .guid c => c.AllTexts P

/-- Every text of a state has a property, the library of the functions to come included. -/
structure State.AllTexts (P : Text → Prop) (s : State) : Prop where
  model : s.model.AllTexts P
  dll : ∀ name ∈ s.scope.dll, P name

/-! ### Deciding -/

section Deciding

variable [DecidablePred P]

instance (type : TypeReference) : Decidable (type.AllTexts P) := inferInstanceAs (Decidable (_ ∧ _))

instance (a : Argument) : Decidable (a.AllTexts P) :=
  decidable_of_iff (P a.name ∧ a.type.AllTexts P)
    ⟨fun ⟨h, h'⟩ ↦ ⟨h, h'⟩, fun ⟨h, h'⟩ ↦ ⟨h, h'⟩⟩

instance (s : Signature) : Decidable (s.AllTexts P) :=
  decidable_of_iff (P s.name ∧ s.returnType.AllTexts P ∧ ∀ a ∈ s.arguments, a.AllTexts P)
    ⟨fun ⟨h, h', h''⟩ ↦ ⟨h, h', h''⟩, fun ⟨h, h', h''⟩ ↦ ⟨h, h', h''⟩⟩

instance (f : FreeFunction) : Decidable (f.AllTexts P) :=
  decidable_of_iff (f.signature.AllTexts P ∧ P f.dll ∧ P f.convention)
    ⟨fun ⟨h, h', h''⟩ ↦ ⟨h, h', h''⟩, fun ⟨h, h', h''⟩ ↦ ⟨h, h', h''⟩⟩

instance (i : Interface) : Decidable (i.AllTexts P) :=
  decidable_of_iff (P i.name ∧ i.base.AllTexts P ∧ ∀ s ∈ i.methods, s.AllTexts P)
    ⟨fun ⟨h, h', h''⟩ ↦ ⟨h, h', h''⟩, fun ⟨h, h', h''⟩ ↦ ⟨h, h', h''⟩⟩

instance (e : Enumeration) : Decidable (e.AllTexts P) :=
  decidable_of_iff (P e.name ∧ e.base.AllTexts P ∧ ∀ v ∈ e.variants, P v.name)
    ⟨fun ⟨h, h', h''⟩ ↦ ⟨h, h', h''⟩, fun ⟨h, h', h''⟩ ↦ ⟨h, h', h''⟩⟩

instance (f : Field) : Decidable (f.AllTexts P) :=
  decidable_of_iff (P f.name ∧ f.type.AllTexts P)
    ⟨fun ⟨h, h'⟩ ↦ ⟨h, h'⟩, fun ⟨h, h'⟩ ↦ ⟨h, h'⟩⟩

instance (s : Struct) : Decidable (s.AllTexts P) :=
  decidable_of_iff (P s.name ∧ ∀ f ∈ s.fields, f.AllTexts P)
    ⟨fun ⟨h, h'⟩ ↦ ⟨h, h'⟩, fun ⟨h, h'⟩ ↦ ⟨h, h'⟩⟩

instance (c : GuidConstant) : Decidable (c.AllTexts P) :=
  decidable_of_iff (P c.name ∧ P c.display)
    ⟨fun ⟨h, h'⟩ ↦ ⟨h, h'⟩, fun ⟨h, h'⟩ ↦ ⟨h, h'⟩⟩

instance (h : Header) : Decidable (h.AllTexts P) :=
  decidable_of_iff (P h.name ∧ P h.version)
    ⟨fun ⟨h, h'⟩ ↦ ⟨h, h'⟩, fun ⟨h, h'⟩ ↦ ⟨h, h'⟩⟩

instance (m : Model) : Decidable (m.AllTexts P) :=
  decidable_of_iff
    ((∀ h ∈ m.header, h.AllTexts P) ∧ (∀ f ∈ m.functions, f.AllTexts P) ∧
      (∀ p ∈ m.functionPointers, p.signature.AllTexts P) ∧ (∀ i ∈ m.interfaces, i.AllTexts P) ∧
      (∀ e ∈ m.enumerations, e.AllTexts P) ∧ (∀ s ∈ m.structs, s.AllTexts P) ∧
      (∀ c ∈ m.guids, c.AllTexts P) ∧ ∀ dll ∈ m.dlls, P dll)
    ⟨fun ⟨h, f, p, i, e, s, c, d⟩ ↦ ⟨h, f, p, i, e, s, c, d⟩,
      fun ⟨h, f, p, i, e, s, c, d⟩ ↦ ⟨h, f, p, i, e, s, c, d⟩⟩

end Deciding

/-! ## One more entry -/

theorem Signature.AllTexts.addArgument {s : Signature} (h : s.AllTexts P) {a : Argument}
    (ha : a.AllTexts P) : (s.addArgument a).AllTexts P :=
  { h with arguments := forall_mem_append_singleton h.arguments ha }

theorem Interface.AllTexts.addMethod {i : Interface} (h : i.AllTexts P) {s : Signature}
    (hs : s.AllTexts P) : (i.addMethod s).AllTexts P :=
  { h with methods := forall_mem_append_singleton h.methods hs }

theorem Interface.AllTexts.addArgument {i : Interface} (h : i.AllTexts P) (index : Nat)
    {a : Argument} (ha : a.AllTexts P) : (i.addArgument index a).AllTexts P :=
  { h with methods := forall_mem_modify h.methods fun _ hs ↦ hs.addArgument ha }

theorem Enumeration.AllTexts.addVariant {e : Enumeration} (h : e.AllTexts P) {v : Variant}
    (hv : P v.name) : (e.addVariant v).AllTexts P :=
  { h with variants := forall_mem_append_singleton h.variants hv }

theorem Struct.AllTexts.addField {s : Struct} (h : s.AllTexts P) {f : Field} (hf : f.AllTexts P) :
    (s.addField f).AllTexts P :=
  { h with fields := forall_mem_append_singleton h.fields hf }

namespace Model

variable {m : Model}

theorem allTexts_empty : empty.AllTexts P where
  header _ hmem := absurd hmem (Option.not_mem_none _)
  functions _ hmem := absurd hmem List.not_mem_nil
  functionPointers _ hmem := absurd hmem List.not_mem_nil
  interfaces _ hmem := absurd hmem List.not_mem_nil
  enumerations _ hmem := absurd hmem List.not_mem_nil
  structs _ hmem := absurd hmem List.not_mem_nil
  guids _ hmem := absurd hmem List.not_mem_nil
  dlls _ hmem := absurd hmem List.not_mem_nil

theorem AllTexts.addArgument (h : m.AllTexts P) {a : Argument} (ha : a.AllTexts P)
    (slot : CallableSlot) : (m.addArgument a slot).AllTexts P := by
  cases slot with
  | function index =>
    exact { h with
      functions := forall_mem_modify h.functions fun _ hf ↦
        { hf with signature := hf.signature.addArgument ha } }
  | functionPointer index =>
    exact { h with
      functionPointers := forall_mem_modify h.functionPointers fun _ hp ↦ hp.addArgument ha }
  | method interface index =>
    exact { h with
      interfaces := forall_mem_modify h.interfaces fun _ hi ↦ hi.addArgument index ha }

end Model

/-- A signature as it is declared has no arguments. -/
theorem Signature.allTexts_nil {name : Text} {returnType : TypeReference} (hname : P name)
    (htype : returnType.AllTexts P) : Signature.AllTexts P ⟨name, returnType, []⟩ :=
  ⟨hname, htype, fun _ ha ↦ absurd ha List.not_mem_nil⟩

namespace State

variable {s : State} {e : Entry}

theorem allTexts_initial : initial.AllTexts P :=
  ⟨Model.allTexts_empty, fun _ hname ↦ absurd hname (Option.not_mem_none _)⟩

/-- If the texts of an entry have the property, those of the state keep it. -/
theorem AllTexts.add (hs : s.AllTexts P) (he : e.AllTexts P) : (s.add e).AllTexts P := by
  have hm := hs.model
  cases e with
  | header h =>
    refine ⟨{ hm with header := fun new hnew ↦ ?_ }, hs.dll⟩
    rw [← Option.mem_some_iff.mp hnew]
    exact he
  | functionPointer name returnType code =>
    exact ⟨{ hm with
      functionPointers := forall_mem_append_singleton hm.functionPointers
        (Signature.allTexts_nil he.1 he.2) }, hs.dll⟩
  | dll name =>
    refine ⟨{ hm with dlls := fun dll hdll ↦ ?_ }, fun new hnew ↦ ?_⟩
    · rcases Model.mem_insertText_iff.mp hdll with rfl | hdll
      · exact he.2
      · exact hm.dlls dll hdll
    · rw [← Option.mem_some_iff.mp hnew]
      exact he.1
  | function name returnType convention =>
    obtain ⟨hname, htype, hconvention⟩ := he
    simp only [State.add]
    split
    · exact hs
    · rename_i dll hdll
      exact ⟨{ hm with
        functions := forall_mem_append_singleton hm.functions
          ⟨Signature.allTexts_nil hname htype, hs.dll dll hdll, hconvention⟩ }, hs.dll⟩
  | argument a =>
    simp only [State.add]
    split
    · exact hs
    · exact ⟨hm.addArgument he _, hs.dll⟩
  | interface name group value base =>
    exact ⟨{ hm with
      interfaces := forall_mem_append_singleton hm.interfaces
        ⟨he.1, he.2, fun _ hmem ↦ absurd hmem List.not_mem_nil⟩ }, hs.dll⟩
  | method name returnType =>
    simp only [State.add]
    split
    · exact hs
    · exact ⟨{ hm with
        interfaces := forall_mem_modify hm.interfaces fun _ hi ↦
          hi.addMethod (Signature.allTexts_nil he.1 he.2) }, hs.dll⟩
  | enumeration name base flags =>
    exact ⟨{ hm with
      enumerations := forall_mem_append_singleton hm.enumerations
        ⟨he.1, he.2, fun _ hmem ↦ absurd hmem List.not_mem_nil⟩ }, hs.dll⟩
  | variant v =>
    simp only [State.add]
    split
    · exact hs
    · exact ⟨{ hm with
        enumerations := forall_mem_modify hm.enumerations fun _ h ↦ h.addVariant he }, hs.dll⟩
  | struct name =>
    exact ⟨{ hm with
      structs := forall_mem_append_singleton hm.structs
        ⟨he, fun _ hmem ↦ absurd hmem List.not_mem_nil⟩ }, hs.dll⟩
  | field f =>
    simp only [State.add]
    split
    · exact hs
    · exact ⟨{ hm with structs := forall_mem_modify hm.structs fun _ h ↦ h.addField he }, hs.dll⟩
  | guid c => exact ⟨{ hm with guids := forall_mem_append_singleton hm.guids he }, hs.dll⟩

end State

/-! ## Texts of types -/

/-- A property that texts put one behind the other have if each of them has it. -/
structure Text.Compositional (P : Text → Prop) : Prop where
  nil : P []
  append : ∀ t u, P t → P u → P (t ++ u)

namespace Text.Compositional

variable (hP : Text.Compositional P)
include hP

theorem showIf {t : Text} (h : P t) (flag : Bool) : P (Text.showIf flag t) := by
  cases flag
  · exact hP.nil
  · exact h

theorem flatMap {α : Type} {f : α → Text} {as : List α} (h : ∀ a ∈ as, P (f a)) :
    P (as.flatMap f) := by
  induction as with
  | nil => exact hP.nil
  | cons a as ih =>
    obtain ⟨ha, has⟩ := List.forall_mem_cons.mp h
    exact hP.append _ _ ha (ih has)

end Text.Compositional

theorem Text.compositional_notMem (b : UInt8) : Text.Compositional (b ∉ ·) where
  nil := List.not_mem_nil
  append _ _ ht hu := fun hmem ↦ (List.mem_append.mp hmem).elim ht hu

/-- What the text of a type has in it besides texts of the model. -/
def Resolution.fixedTexts : List Text :=
  "." :: "class " :: "valuetype " :: "*" :: wellKnownTypes.map (·.2)

namespace Model

variable {m : Model}

theorem lookup_of_resolution {name il : Text} (h : m.resolution name = .wellKnown il) :
    Resolution.wellKnownTypes.lookup name = some il := by
  rw [resolution] at h
  cases hlookup : Resolution.wellKnownTypes.lookup name with
  | none =>
    simp only [hlookup] at h
    split at h
    · cases h
    · split at h <;> cases h
  | some other =>
    simp only [hlookup] at h
    cases h
    rfl

namespace AllTexts

variable (hm : m.AllTexts P) (hP : Text.Compositional P)
include hm hP

theorem qualified (hdot : P ".") {name : Text} (hname : P name) : P (m.qualified name) := by
  have hmodel : P m.name := by
    rw [Model.name]
    cases hheader : m.header with
    | none => exact hP.nil
    | some h => exact (hm.header h hheader).name
  exact hP.append _ _ (hP.append _ _ hmodel hdot) hname

/-- The texts of types have a property if it is one of the texts of the model and of the fixed
ones. -/
theorem ilType (hfixed : ∀ t ∈ Resolution.fixedTexts, P t) {type : TypeReference}
    (htype : type.AllTexts P) : P (m.ilType type) := by
  have hstar : P "*" := hfixed _ (by simp [Resolution.fixedTexts])
  have hstars (n : Nat) : P (List.replicate n 0x2A) := by
    induction n with
    | zero => exact hP.nil
    | succ n ih => exact hP.append _ _ hstar ih
  have hdot : P "." := hfixed _ (by simp [Resolution.fixedTexts])
  have hclass : P "class " := hfixed _ (by simp [Resolution.fixedTexts])
  have hvalue : P "valuetype " := hfixed _ (by simp [Resolution.fixedTexts])
  have hqualified := hm.qualified hP hdot htype.1
  refine hP.append _ _ ?_ (hstars _)
  rw [baseIlType]
  cases hresolution : m.resolution type.name with
  | wellKnown il =>
    obtain ⟨before, after, htypes, -⟩ :=
      List.lookup_eq_some_iff.mp (lookup_of_resolution hresolution)
    exact hfixed il (by simp [Resolution.fixedTexts, htypes])
  | localClass => exact hP.append _ _ hclass hqualified
  | localValue => exact hP.append _ _ hvalue hqualified
  | verbatim => exact htype.1

end AllTexts

end Model

end NativeApi

import NativeApi.Proofs.Association
import NativeApi.Proofs.Enumerations
import NativeApi.Proofs.Growth

/-!
# Integrity of associations

A type reference with an enumeration behind it stands for that enumeration: the enumeration is
declared, and the reference is its base type, without stars (`Model.StandsIn`). References get this
where they are read and keep it, since they are never changed and enumerations only get more
variants.

The base type is resolved when the text is written, in a model that may have grown, and what it
resolves to may have changed by then. It has then changed for the reference and for the enumeration
alike, because both have the same name to be resolved.
-/

namespace NativeApi

/-! ## Places in growing models -/

theorem PrefixUpTo.exists_mem {α : Type} {R : α → α → Prop} {l k : List α} (h : PrefixUpTo R l k)
    {a : α} (ha : a ∈ l) : ∃ b ∈ k, R a b := by
  obtain ⟨i, hi⟩ := List.mem_iff_getElem?.mp ha
  obtain ⟨b, hb, hab⟩ := h i a hi
  exact ⟨b, List.mem_of_getElem? hb, hab⟩

namespace Model

variable {m n : Model}

/-- A signature stays in its slot. -/
theorem Grows.exists_signature? (h : m.Grows n) {slot : CallableSlot} {s : Signature}
    (hs : m.signature? slot = some s) : ∃ t, n.signature? slot = some t ∧ s.Grows t := by
  cases slot with
  | function index =>
    obtain ⟨f, hf, rfl⟩ := Option.map_eq_some_iff.mp hs
    obtain ⟨g, hg, signature, hgrows, rfl⟩ := h.functions index f hf
    exact ⟨signature, by rw [signature?, hg, Option.map_some], hgrows⟩
  | functionPointer index =>
    obtain ⟨p, hp, rfl⟩ := Option.map_eq_some_iff.mp hs
    obtain ⟨q, hq, signature, hgrows, rfl⟩ := h.functionPointers index p hp
    exact ⟨signature, by rw [signature?, hq, Option.map_some], hgrows⟩
  | method interface index =>
    obtain ⟨i, hi, hindex⟩ := Option.bind_eq_some_iff.mp hs
    obtain ⟨j, hj, methods, hmethods, rfl⟩ := h.interfaces interface i hi
    obtain ⟨t, ht, hgrows⟩ := hmethods index s hindex
    exact ⟨t, by rw [signature?, hj, Option.bind_some, ht], hgrows⟩

/-- A type reference stays at its place. -/
theorem Grows.typeAt?_eq (h : m.Grows n) {place : TypePlace} {type : TypeReference}
    (htype : m.typeAt? place = some type) : n.typeAt? place = some type := by
  cases place with
  | returned slot =>
    obtain ⟨s, hs, rfl⟩ := Option.map_eq_some_iff.mp htype
    obtain ⟨t, ht, more, rfl⟩ := h.exists_signature? hs
    rw [typeAt?, ht, Option.map_some]
  | argument slot position =>
    obtain ⟨s, hs, hposition⟩ := Option.bind_eq_some_iff.mp htype
    obtain ⟨a, ha, rfl⟩ := Option.map_eq_some_iff.mp hposition
    obtain ⟨t, ht, more, rfl⟩ := h.exists_signature? hs
    have hlt : position < s.arguments.length := (List.getElem?_eq_some_iff.mp ha).1
    rw [typeAt?, ht, Option.bind_some, List.getElem?_append_left hlt, ha, Option.map_some]
  | field struct position =>
    obtain ⟨s, hs, hposition⟩ := Option.bind_eq_some_iff.mp htype
    obtain ⟨f, hf, rfl⟩ := Option.map_eq_some_iff.mp hposition
    obtain ⟨t, ht, more, rfl⟩ := h.structs struct s hs
    have hlt : position < s.fields.length := (List.getElem?_eq_some_iff.mp hf).1
    rw [typeAt?, ht, Option.bind_some, List.getElem?_append_left hlt, hf, Option.map_some]

/-! ## References -/

/-- All type references of a model behind which there may be an enumeration. -/
def references (m : Model) : List TypeReference :=
  m.signatures.map (·.returnType) ++ m.arguments.map (·.type) ++ m.fields.map (·.type)

theorem mem_references_iff {type : TypeReference} :
    type ∈ m.references ↔ type ∈ m.signatures.map (·.returnType) ∨
      (∃ a ∈ m.arguments, a.type = type) ∨ ∃ f ∈ m.fields, f.type = type := by
  rw [references, List.mem_append, List.mem_append, or_assoc, List.mem_map (f := Argument.type),
    List.mem_map (f := Field.type)]

theorem mem_references_of_typeAt? {place : TypePlace} {type : TypeReference}
    (h : m.typeAt? place = some type) : type ∈ m.references := by
  rw [mem_references_iff]
  cases place with
  | returned slot =>
    obtain ⟨s, hs, rfl⟩ := Option.map_eq_some_iff.mp h
    exact .inl (List.mem_map_of_mem (mem_signatures_of_signature? hs))
  | argument slot position =>
    obtain ⟨s, hs, hposition⟩ := Option.bind_eq_some_iff.mp h
    obtain ⟨a, ha, rfl⟩ := Option.map_eq_some_iff.mp hposition
    have hmem : a ∈ m.arguments :=
      List.mem_flatMap.mpr ⟨s, mem_signatures_of_signature? hs, List.mem_of_getElem? ha⟩
    exact .inr (.inl ⟨a, hmem, rfl⟩)
  | field struct position =>
    obtain ⟨s, hs, hposition⟩ := Option.bind_eq_some_iff.mp h
    obtain ⟨f, hf, rfl⟩ := Option.map_eq_some_iff.mp hposition
    have hmem : f ∈ m.fields :=
      List.mem_flatMap.mpr ⟨s, List.mem_of_getElem? hs, List.mem_of_getElem? hf⟩
    exact .inr (.inr ⟨f, hmem, rfl⟩)

end Model

namespace Entry

/-- The type reference that an entry brings, if it brings one. -/
def type? : Entry → Option TypeReference
  | functionPointer _ returnType _ => some returnType
  | function _ returnType _ => some returnType
  | argument a => some a.type
  | method _ returnType => some returnType
  | field f => some f.type
  | _ => none

end Entry

namespace Model

variable {m : Model} {type : TypeReference}

/-- An argument leaves return types as they are. -/
theorem mem_returnTypes_addArgument {a : Argument} {slot : CallableSlot}
    (h : type ∈ (m.addArgument a slot).signatures.map (·.returnType)) :
    type ∈ m.signatures.map (·.returnType) := by
  obtain ⟨t, ht, rfl⟩ := List.mem_map.mp h
  rcases mem_signatures_addArgument ht with ht | ⟨u, hu, rfl⟩
  · exact List.mem_map_of_mem ht
  · exact List.mem_map.mpr ⟨u, hu, rfl⟩

theorem mem_returnTypes_addMethod {index : Nat} {method : Signature}
    (h : type ∈ (m.addMethod index method).signatures.map (·.returnType)) :
    type ∈ m.signatures.map (·.returnType) ∨ method.returnType = type := by
  obtain ⟨t, ht, rfl⟩ := List.mem_map.mp h
  rw [signatures, List.mem_append] at ht
  rcases ht with ht | ht
  · exact .inl (List.mem_map_of_mem (List.mem_append_left _ ht))
  · obtain ⟨i, hi, ht⟩ := List.mem_flatMap.mp ht
    rcases mem_modify hi with hi | ⟨j, hj, rfl⟩
    · have hmem : t ∈ m.signatures :=
        List.mem_append_right _ (List.mem_flatMap.mpr ⟨i, hi, ht⟩)
      exact .inl (List.mem_map_of_mem hmem)
    · rcases List.mem_append.mp ht with ht | ht
      · have hmem : t ∈ m.signatures :=
          List.mem_append_right _ (List.mem_flatMap.mpr ⟨j, hj, ht⟩)
        exact .inl (List.mem_map_of_mem hmem)
      · rw [List.mem_singleton.mp ht]
        exact .inr rfl

end Model

namespace State

variable {s : State} {e : Entry} {type : TypeReference}

/-- Return types come with entries that are functions, function pointers or methods. -/
theorem mem_returnTypes_add (h : type ∈ (s.add e).model.signatures.map (·.returnType)) :
    type ∈ s.model.signatures.map (·.returnType) ∨ e.type? = some type := by
  cases e with
  | functionPointer name returnType code =>
    simp only [add, addFunctionPointer, Model.signatures, List.map_append, List.mem_append,
      List.map_cons, List.map_nil, List.mem_singleton] at h ⊢
    rcases h with (h | h | rfl) | h
    · exact .inl (.inl (.inl h))
    · exact .inl (.inl (.inr h))
    · exact .inr rfl
    · exact .inl (.inr h)
  | function name returnType convention =>
    simp only [add] at h
    split at h
    · exact .inl h
    · simp only [addFunction, Model.signatures, List.map_append, List.mem_append, List.map_cons,
        List.map_nil, List.mem_singleton] at h ⊢
      rcases h with ((h | rfl) | h) | h
      · exact .inl (.inl (.inl h))
      · exact .inr rfl
      · exact .inl (.inl (.inr h))
      · exact .inl (.inr h)
  | argument a =>
    simp only [add] at h
    split at h
    · exact .inl h
    · exact .inl (Model.mem_returnTypes_addArgument h)
  | interface name group value base =>
    refine .inl ?_
    simpa [add, addInterface, Model.signatures] using h
  | method name returnType =>
    simp only [add] at h
    split at h
    · exact .inl h
    · exact (Model.mem_returnTypes_addMethod h).imp_right (congrArg some)
  | variant v =>
    simp only [add] at h
    split at h <;> exact .inl h
  | field f =>
    simp only [add] at h
    split at h <;> exact .inl h
  | _ => exact .inl h

/-- A type reference is one from before, or the entry has brought it. -/
theorem mem_references_add (h : type ∈ (s.add e).model.references) :
    type ∈ s.model.references ∨ e.type? = some type := by
  rw [Model.mem_references_iff] at h ⊢
  rcases h with h | ⟨a, ha, rfl⟩ | ⟨f, hf, rfl⟩
  · exact (mem_returnTypes_add h).imp_left .inl
  · rcases mem_arguments_add ha with ha | rfl
    · exact .inl (.inr (.inl ⟨a, ha, rfl⟩))
    · exact .inr rfl
  · rcases mem_fields_add hf with hf | rfl
    · exact .inl (.inr (.inr ⟨f, hf, rfl⟩))
    · exact .inr rfl

end State

/-! ## The invariant -/

namespace Model

variable {m n : Model} {type : TypeReference}

/-- If an enumeration stands behind a type, it is declared, and the type is its base type without
stars. -/
def StandsIn (m : Model) (type : TypeReference) : Prop :=
  ∀ name ∈ type.backingEnum,
    ∃ e ∈ m.enumerations, e.name = name ∧ type.depth = 0 ∧ type.name = e.base.name

theorem standsIn_enrich (hm : m.EnumerationsValid) (name : Text) (depth : Nat) :
    m.StandsIn (m.enrich ⟨name, depth, none⟩) := by
  intro backing hbacking
  rw [enrich] at hbacking ⊢
  split at hbacking
  · rename_i hdepth
    cases hfind : m.findEnumeration? (m.baseIlType name) with
    | none =>
      simp only [hfind] at hbacking
      cases hbacking
    | some e =>
      simp only [hfind] at hbacking ⊢
      cases hbacking
      obtain ⟨he, -⟩ := mem_of_findEnumeration? hfind
      rw [if_pos hdepth]
      exact ⟨e, he, rfl, congrArg TypeReference.depth (hm.base e he), rfl⟩
  · cases hbacking

theorem StandsIn.grows (h : m.StandsIn type) (hgrows : m.Grows n) : n.StandsIn type := by
  intro name hname
  obtain ⟨e, he, hename, hdepth, hbase⟩ := h name hname
  obtain ⟨later, hlater, more, rfl⟩ := hgrows.enumerations.exists_mem he
  exact ⟨_, hlater, hename, hdepth, hbase⟩

end Model

/-- What a declaration brings stands for its enumeration in the model where it is read. -/
theorem Reads.standsIn {m : Model} {d : Declaration} {e : Entry} (h : Reads m d e)
    (hm : m.EnumerationsValid) {type : TypeReference} (htype : e.type? = some type) :
    m.StandsIn type := by
  cases h with
  | functionPointer hn hc => cases htype; exact Model.standsIn_enrich hm _ _
  | function hn hc => cases htype; exact Model.standsIn_enrich hm _ _
  | argument hn hwords =>
    cases htype
    rw [(Argument.fits_of_applyWords hwords).1]
    exact Model.standsIn_enrich hm _ _
  | method hn => cases htype; exact Model.standsIn_enrich hm _ _
  | standardMethod name =>
    cases htype
    intro backing hbacking
    cases hbacking
  | field hn => cases htype; exact Model.standsIn_enrich hm _ _
  | _ => cases htype

theorem State.standsIn_add {s : State} {d : Declaration} {e : Entry}
    (hvalid : s.model.EnumerationsValid) (hs : ∀ type ∈ s.model.references, s.model.StandsIn type)
    (h : s.read d = .ok e) :
    ∀ type ∈ (s.add e).model.references, (s.add e).model.StandsIn type := by
  obtain ⟨hreads, hadmits⟩ := State.read_eq_ok.mp h
  intro type htype
  refine Model.StandsIn.grows ?_ (State.grows_add hadmits)
  rcases State.mem_references_add htype with htype | htype
  · exact hs type htype
  · exact hreads.standsIn hvalid htype

theorem Visited.standsIn {s : State} (h : Visited s) :
    ∀ type ∈ s.model.references, s.model.StandsIn type := by
  refine (h.induction (P := fun s ↦ s.model.EnumerationsValid ∧
    ∀ type ∈ s.model.references, s.model.StandsIn type) ⟨?_, ?_⟩ ?_).2
  · exact (Reachable.initial.visited).enumerationsValid
  · exact fun type htype ↦ absurd htype List.not_mem_nil
  · rintro s d e ⟨hvalid, hs⟩ hread
    exact ⟨State.enumerationsValid_add hvalid hread, State.standsIn_add hvalid hs hread⟩

/-! ## The types in the text -/

namespace Model

/-- The text shows a type at a place: behind the head of a method as its return type, before the
name of an argument, or in the line of a field. -/
def ShowsType (m : Model) (il : Text) : TypePlace → Prop
  | .returned slot => ∃ s, m.signature? slot = some s ∧ ∀ head name implementation,
      (head ++ il ++ " " ++ name ++ " (\n" : Text) <+: (method m head name implementation s).text
  | .argument slot position => ∃ s a, m.signature? slot = some s ∧
      s.arguments[position]? = some a ∧
      (il ++ " " ++ Text.quoted a.name : Text) <:+ a.declaration m
  | .field struct position => ∃ s f, m.structs[struct]? = some s ∧ s.fields[position]? = some f ∧
      ("    .field public " ++ il ++ " " ++ Text.quoted f.name ++ "\n" : Text)
        <+: (f.render m).text

theorem showsType_ilType {m : Model} {place : TypePlace} {type : TypeReference}
    (h : m.typeAt? place = some type) : m.ShowsType (m.ilType type) place := by
  cases place with
  | returned slot =>
    obtain ⟨s, hs, rfl⟩ := Option.map_eq_some_iff.mp h
    refine ⟨s, hs, fun head name implementation ↦ ?_⟩
    rw [method, Rendering.text_append]
    simp only [Rendering.write, List.append_assoc, List.prefix_append_right_inj]
    exact List.prefix_append _ _
  | argument slot position =>
    obtain ⟨s, hs, hposition⟩ := Option.bind_eq_some_iff.mp h
    obtain ⟨a, ha, rfl⟩ := Option.map_eq_some_iff.mp hposition
    refine ⟨s, a, hs, ha, ?_⟩
    rw [Argument.declaration, List.append_assoc, List.append_assoc, List.append_assoc]
    exact List.suffix_append _ _
  | field struct position =>
    obtain ⟨s, hs, hposition⟩ := Option.bind_eq_some_iff.mp h
    obtain ⟨f, hf, rfl⟩ := Option.map_eq_some_iff.mp hposition
    refine ⟨s, f, hs, hf, ?_⟩
    rw [Field.render, Rendering.text_append]
    exact List.prefix_append _ _

end Model

namespace Enumeration

/-- The text shows the type of the values of an enumeration. -/
def ShowsBase (m : Model) (il : Text) (e : Enumeration) : Prop :=
  ("    .field public specialname rtspecialname " ++ il ++ " value__\n" : Text)
    <:+: (e.render m).text

theorem showsBase_ilType (m : Model) (e : Enumeration) : e.ShowsBase m (m.ilType e.base) := by
  refine ⟨".class public auto ansi sealed " ++ m.qualified e.name ++ "\n"
    ++ "       extends [netstandard]System.Enum" ++ "\n" ++ Rendering.indent 0 ++ "\x7b\n"
    ++ e.flagsMark, e.variants.flatMap (variantLine m e) ++ Rendering.indent 0 ++ "\x7d\n" ++ "\n",
    ?_⟩
  simp [render, classBlock, Rendering.block, Rendering.write]

end Enumeration

/-- **Associations have integrity.** In every state that collections pass through, a return type, an
argument or a field with an enumeration behind it names one that is declared, and is its base type
without stars. In every later state the reference is at the same place, the enumeration has kept its
name and its base type, and the text shows the same type for both. -/
theorem backing_enum_is_declared {s t : State} (hs : Visited s) (ht : s.Leads t)
    {place : TypePlace} {type : TypeReference} {name : Text}
    (hplace : s.model.typeAt? place = some type) (hname : type.backingEnum = some name) :
    ∃ e ∈ s.model.enumerations, e.name = name ∧ type.depth = 0 ∧ type.name = e.base.name ∧
      t.model.typeAt? place = some type ∧
      ∃ later ∈ t.model.enumerations, e.Grows later ∧
        t.model.ShowsType (t.model.ilType type) place ∧
        later.ShowsBase t.model (t.model.ilType later.base) ∧
        t.model.ilType type = t.model.ilType later.base := by
  obtain ⟨e, he, hename, hdepth, hbase⟩ :=
    hs.standsIn type (Model.mem_references_of_typeAt? hplace) name hname
  obtain ⟨later, hlater, hgrows⟩ := ht.grows.enumerations.exists_mem he
  have hlaterPlace := ht.grows.typeAt?_eq hplace
  have hil : t.model.ilType type = t.model.ilType later.base := by
    obtain ⟨more, rfl⟩ := hgrows
    rw [Model.ilType, Model.ilType, hdepth, hbase, hs.enumerationsValid.base e he]
    rfl
  exact ⟨e, he, hename, hdepth, hbase, hlaterPlace, later, hlater, hgrows,
    Model.showsType_ilType hlaterPlace, Enumeration.showsBase_ilType t.model later, hil⟩

/-- A method with an argument of an enumeration. -/
def modeCall : Call :=
  .source (fun _ ↦ none)
    ⟨"view", ["meta\tApi\t1.0.0.0", "enum\tMode\tuint8", "iface\tIView\t1\t2\tIUnknown",
      "meth\tShow\tvoid\t0", "arg\tin\tmode\tMode\t0"]⟩

/-- A function pointer takes over the name of the base type, and then the call fails. -/
def takeoverCall : Call :=
  .source (fun _ ↦ none) ⟨"hooks", ["fptr\tuint8\tvoid\t0", "flags\tMode\tDWORD"]⟩

def modeSession : Session := (modeCall.perform Session.initial).session

def takeoverSession : Session := (takeoverCall.perform modeSession).session

theorem backing_enum_is_declared_behind_takeover :
    Visited modeSession.state ∧ modeSession.state.Leads takeoverSession.state ∧
      modeSession.state.model.typeAt? (.argument (.method 0 0) 0)
        = some ⟨"uint8", 0, some "Mode"⟩ ∧
      takeoverSession.state.model.ilType ⟨"uint8", 0, some "Mode"⟩ = "class Api.uint8" ∧
      ∃ later ∈ takeoverSession.state.model.enumerations,
        later.ShowsBase takeoverSession.state.model "class Api.uint8" := by
  have hvisited : Visited modeSession.state := (Reachable.call .initial modeCall).visited
  have hleads : modeSession.state.Leads takeoverSession.state :=
    takeoverCall.leads_perform modeSession
  have hplace : modeSession.state.model.typeAt? (.argument (.method 0 0) 0)
      = some ⟨"uint8", 0, some "Mode"⟩ := by decide
  have hil : takeoverSession.state.model.ilType ⟨"uint8", 0, some "Mode"⟩ = "class Api.uint8" := by
    decide
  obtain ⟨-, -, -, -, -, -, later, hlater, -, -, hshows, heq⟩ :=
    backing_enum_is_declared hvisited hleads hplace rfl
  rw [← heq, hil] at hshows
  exact ⟨hvisited, hleads, hplace, hil, later, hlater, hshows⟩

end NativeApi

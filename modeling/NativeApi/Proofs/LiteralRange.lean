import NativeApi.Proofs.Tracking

/-!
# Literals of enumerations

A literal is checked against the base type of its enumeration where its line is read, and the base
type is resolved in the model of that moment. Rendering resolves it once more, in a model that may
have grown. A function pointer or a struct declared in between can take over the name of the base
type, but what it turns the name into is a class or a value type and no integer type.

So a name can stop to stand for an integer type, and it cannot start to, nor change from one to
another (`Model.Extends.ilType_eq`). A literal that has been accepted therefore fits the type that
it is rendered with, whatever has been declared since.
-/

namespace NativeApi

/-! ## Integer types -/

/-- The integer types of fixed width, each with the greatest magnitudes that a literal of it has
without a minus sign and with one. -/
inductive FixedWidth : Text → Nat → Nat → Prop
  | int8 : FixedWidth "int8" 0x7F 0x80
  | int16 : FixedWidth "int16" 0x7FFF 0x8000
  | int32 : FixedWidth "int32" 0x7FFFFFFF 0x80000000
  | int64 : FixedWidth "int64" 0x7FFFFFFFFFFFFFFF 0x8000000000000000
  | uint8 : FixedWidth "uint8" 0xFF 0x80
  | uint16 : FixedWidth "uint16" 0xFFFF 0x8000
  | uint32 : FixedWidth "uint32" 0xFFFFFFFF 0x80000000
  | uint64 : FixedWidth "uint64" 0xFFFFFFFFFFFFFFFF 0x8000000000000000
  | char : FixedWidth "char" 0xFFFF 0x8000

theorem FixedWidth.ofIlType?_eq {il : Text} {positive negative : Nat}
    (h : FixedWidth il positive negative) :
    IntegerRange.ofIlType? il = some ⟨positive, negative⟩ := by
  cases h <;> decide

/-! ## Resolution in growing models -/

namespace Model

/-- Function pointers and structs of the first model are declared in the second one as well. -/
structure Extends (m n : Model) : Prop where
  functionPointer : ∀ name, m.declaresFunctionPointer name → n.declaresFunctionPointer name
  struct : ∀ name, m.declaresStruct name → n.declaresStruct name

variable {m n : Model}

/-- A type with a range is well known or taken verbatim, because the texts for what a model declares
itself start with `class` or `valuetype`. -/
theorem resolution_ne_of_ofIlType? {type : TypeReference} {r : IntegerRange}
    (h : IntegerRange.ofIlType? (m.ilType type) = some r) :
    m.resolution type.name ≠ .localClass ∧ m.resolution type.name ≠ .localValue := by
  constructor
  · intro hclass
    have hnone : IntegerRange.ofIlType? (m.ilType type) = none := by
      rw [ilType, baseIlType, hclass]
      exact IntegerRange.ofIlType?_eq_none _ (.inl rfl)
    rw [hnone] at h
    cases h
  · intro hvalue
    have hnone : IntegerRange.ofIlType? (m.ilType type) = none := by
      rw [ilType, baseIlType, hvalue]
      exact IntegerRange.ofIlType?_eq_none _ (.inr rfl)
    rw [hnone] at h
    cases h

/-- What is well known or taken verbatim in a model was so before the model grew. -/
theorem Extends.resolution_eq (h : m.Extends n) {name : Text}
    (hclass : n.resolution name ≠ .localClass) (hvalue : n.resolution name ≠ .localValue) :
    m.resolution name = n.resolution name := by
  rw [resolution] at hclass hvalue
  rw [resolution, resolution]
  cases hlookup : Resolution.wellKnownTypes.lookup name with
  | some il => rfl
  | none =>
    simp only [hlookup] at hclass hvalue
    have hlocal : ¬(Resolution.isComInterface name || n.declaresFunctionPointer name) = true := by
      intro hlocal
      rw [if_pos hlocal] at hclass
      exact hclass rfl
    have hstruct : ¬n.declaresStruct name = true := by
      intro hstruct
      rw [if_neg hlocal, if_pos hstruct] at hvalue
      exact hvalue rfl
    have hlocal' : ¬(Resolution.isComInterface name || m.declaresFunctionPointer name) = true := by
      rw [Bool.or_eq_true] at hlocal ⊢
      intro hor
      exact hlocal (hor.imp_right (h.functionPointer name))
    have hstruct' : ¬m.declaresStruct name = true := mt (h.struct name) hstruct
    simp only [if_neg hlocal, if_neg hstruct, if_neg hlocal', if_neg hstruct']

/-- **Integer types are old.** A type with a range in a model that has grown was the same type
before. -/
theorem Extends.ilType_eq (h : m.Extends n) {type : TypeReference} {r : IntegerRange}
    (hr : IntegerRange.ofIlType? (n.ilType type) = some r) : m.ilType type = n.ilType type := by
  obtain ⟨hclass, hvalue⟩ := resolution_ne_of_ofIlType? hr
  have hresolution := h.resolution_eq hclass hvalue
  rw [ilType, ilType, baseIlType, baseIlType, hresolution]
  cases hn : n.resolution type.name with
  | wellKnown il => rfl
  | localClass => exact absurd hn hclass
  | localValue => exact absurd hn hvalue
  | verbatim => rfl

theorem Extends.holds (h : m.Extends n) {type : TypeReference} {l : IntegerLiteral}
    (hl : m.Holds type l) : n.Holds type l := by
  intro r hr
  have htype := h.ilType_eq (Option.mem_def.mp hr)
  rw [← htype] at hr
  exact hl r hr

end Model

/-! ## Additions -/

namespace State

variable {s : State} {e : Entry}

theorem extends_add (s : State) (e : Entry) : s.model.Extends (s.add e).model where
  functionPointer name h := by
    rw [Model.declaresFunctionPointer_iff] at h ⊢
    rw [functionPointerNames_add]
    exact List.mem_append_left _ h
  struct name h := by
    rw [Model.declaresStruct_iff] at h ⊢
    rw [structNames_add]
    exact List.mem_append_left _ h

/-- Variants come from variant entries only, and go to the latest enumeration. -/
theorem mem_variants_add {d : Enumeration} {v : Variant} (hd : d ∈ (s.add e).model.enumerations)
    (hv : v ∈ d.variants) :
    (∃ b ∈ s.model.enumerations, b.base = d.base ∧ v ∈ b.variants) ∨
      e = .variant v ∧ ∃ b, s.latestEnumeration? = some b ∧ b.base = d.base := by
  cases e with
  | enumeration name base flags =>
    simp only [add, addEnumeration, List.mem_append, List.mem_singleton] at hd
    rcases hd with hd | rfl
    · exact .inl ⟨d, hd, rfl, hv⟩
    · exact absurd hv List.not_mem_nil
  | variant w =>
    simp only [add] at hd
    split at hd
    · exact .inl ⟨d, hd, rfl, hv⟩
    · rename_i index hindex
      rcases mem_modify_getElem? hd with hd | ⟨b, hb, rfl⟩
      · exact .inl ⟨d, hd, rfl, hv⟩
      · have hlatest : s.latestEnumeration? = some b := by
          rw [latestEnumeration?, hindex, Option.bind_some, hb]
        rw [Enumeration.addVariant, List.mem_append, List.mem_singleton] at hv
        rcases hv with hv | rfl
        · exact .inl ⟨b, List.mem_of_getElem? hb, rfl, hv⟩
        · exact .inr ⟨rfl, b, hlatest, rfl⟩
  | argument a =>
    simp only [add] at hd
    split at hd
    · exact .inl ⟨d, hd, rfl, hv⟩
    · rw [Model.enumerations_addArgument] at hd
      exact .inl ⟨d, hd, rfl, hv⟩
  | function name returnType convention =>
    simp only [add] at hd
    split at hd <;> exact .inl ⟨d, hd, rfl, hv⟩
  | method name returnType =>
    simp only [add] at hd
    split at hd <;> exact .inl ⟨d, hd, rfl, hv⟩
  | field f =>
    simp only [add] at hd
    split at hd <;> exact .inl ⟨d, hd, rfl, hv⟩
  | _ => exact .inl ⟨d, hd, rfl, hv⟩

end State

/-! ## The invariant -/

namespace Model

/-- Every literal lies in the range of the base type of its enumeration. -/
def LiteralsHold (m : Model) : Prop :=
  ∀ e ∈ m.enumerations, ∀ v ∈ e.variants, m.Holds e.base v.value

end Model

theorem State.literalsHold_add {s : State} {d : Declaration} {e : Entry}
    (hs : s.model.LiteralsHold) (h : s.read d = .ok e) : (s.add e).model.LiteralsHold := by
  have hextends := s.extends_add e
  have hadmits := (State.read_eq_ok.mp h).2
  intro latest hlatest v hv
  rcases mem_variants_add hlatest hv with ⟨b, hb, hbase, hv⟩ | ⟨rfl, b, hb, hbase⟩
  · rw [← hbase]
    exact hextends.holds (hs b hb v hv)
  · -- The range that is checked where a variant is read is that of the enumeration it is added to.
    obtain ⟨-, other, hother, -, hholds⟩ := hadmits
    rw [hb, Option.some.injEq] at hother
    rw [← hother, hbase] at hholds
    exact hextends.holds hholds

theorem Reachable.literalsHold {c : Session} (h : Reachable c) : c.state.model.LiteralsHold :=
  h.state_induction (P := fun s ↦ s.model.LiteralsHold) (fun _ he ↦ absurd he List.not_mem_nil)
    fun _ _ _ hs hread ↦ State.literalsHold_add hs hread

/-- **Literals fit.** In every reachable model, an enumeration whose base type resolves to an
integer type of fixed width has only literals that the type has. -/
theorem reachable_literals_fit {c : Session} (h : Reachable c) {e : Enumeration}
    (he : e ∈ c.state.model.enumerations) {v : Variant} (hv : v ∈ e.variants)
    {positive negative : Nat}
    (htype : FixedWidth (c.state.model.ilType e.base) positive negative) :
    v.value.magnitude ≤ if v.value.negative then negative else positive := by
  have hholds := h.literalsHold e he v hv
  have hcontains := hholds _ (Option.mem_def.mpr htype.ofIlType?_eq)
  rw [IntegerRange.contains, decide_eq_true_iff] at hcontains
  exact hcontains

/-- Two collections. In the first one a literal at the end of each side of a base type is accepted
and one behind it is not; in the second one a base type is hidden by a later declaration of its
name. -/
def shadowedCalls : List Call :=
  [.source (fun _ ↦ none)
    ⟨"modes", ["meta\tApi\t1.0.0.0", "enum\tMode\tBYTE", "variant\tLast\t255",
      "variant\tLow\t-128", "variant\tFar\t256"]⟩,
    .source (fun _ ↦ none)
      ⟨"hooks", ["enum\tHook\tuint8", "variant\tAny\t200", "fptr\tuint8\tvoid\t0"]⟩]

/-- The session after both. -/
def shadowedSession : Session :=
  shadowedCalls.foldl (fun c call ↦ (call.perform c).session) Session.initial

def modeEnumeration : Enumeration :=
  ⟨"Mode", .named "BYTE", false, [⟨"Last", ⟨255, false⟩⟩, ⟨"Low", ⟨128, true⟩⟩]⟩

theorem reachable_literals_fit_byte :
    (∃ d, d ∈ shadowedSession.diagnostics) ∧ Reachable shadowedSession ∧
      modeEnumeration ∈ shadowedSession.state.model.enumerations ∧
      FixedWidth (shadowedSession.state.model.ilType modeEnumeration.base) 0xFF 0x80 ∧
      ∀ v ∈ modeEnumeration.variants,
        v.value.magnitude ≤ if v.value.negative then 0x80 else 0xFF := by
  have hdiagnostics : shadowedSession.diagnostics ≠ [] := by decide
  have hreachable : Reachable shadowedSession := .call (.call .initial _) _
  have hmem : modeEnumeration ∈ shadowedSession.state.model.enumerations := by decide
  have htype : shadowedSession.state.model.ilType modeEnumeration.base = "uint8" := by
    decide
  have hwidth : FixedWidth (shadowedSession.state.model.ilType modeEnumeration.base) 0xFF 0x80 := by
    rw [htype]
    exact .uint8
  exact ⟨List.exists_mem_of_ne_nil _ hdiagnostics, hreachable, hmem, hwidth,
    fun _ hv ↦ reachable_literals_fit hreachable hmem hv hwidth⟩

end NativeApi

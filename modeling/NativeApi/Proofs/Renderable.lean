import NativeApi.Proofs.Encodable
import NativeApi.Proofs.Position
import NativeApi.Proofs.Reachable

/-!
# Collected models can be rendered

Two limits meet here that are checked in different places. The sizes in attribute words are bounded
where they are read, and the bounds are those of the fields that hold them. The enumeration behind a
type is always one of the model, so what bounds the names of enumerations bounds it as well.

Both are invariants of collection: they hold of nothing declared, an entry that has been read keeps
them, and a collection that fails adds entries as one that succeeds does.
-/

namespace NativeApi

/-! ## Types and arguments as they are read -/

namespace Model

/-- The enumeration that stands behind a type, if one does, is one of the model. -/
def Backs (m : Model) (type : TypeReference) : Prop :=
  ∀ name ∈ type.backingEnum, name ∈ m.enumerations.map (·.name)

theorem backs_enrich (m : Model) (name : Text) (depth : Nat) :
    m.Backs (m.enrich ⟨name, depth, none⟩) := by
  intro backing hbacking
  rw [enrich] at hbacking
  split at hbacking
  · split at hbacking
    · rename_i e he
      have hmem : e ∈ m.enumerations := List.mem_of_find?_eq_some he
      rw [← Option.mem_some_iff.mp hbacking]
      exact List.mem_map_of_mem hmem
    · cases hbacking
  · cases hbacking

end Model

namespace SizeForm

theorem fits_of_size? {form : SizeForm} {digits : Text} {size : ArraySize}
    (h : form.size? digits = some size) : size.Fits := by
  obtain ⟨n, -, hlt, rfl⟩ := size?_eq_some_iff.mp h
  cases form with
  | inArgument => exact hlt
  | constant => exact hlt

end SizeForm

namespace Argument

/-- An attribute word leaves the type alone and gives no size out of its bound. -/
theorem Takes.fits {a b : Argument} {word : Text} (h : a.Takes word b)
    (ha : ∀ size ∈ a.size, size.Fits) : b.type = a.type ∧ ∀ size ∈ b.size, size.Fits := by
  cases h with
  | nothing => exact ⟨rfl, ha⟩
  | const => exact ⟨rfl, ha⟩
  | comOut => exact ⟨rfl, ha⟩
  | size hword hnone hsize =>
    refine ⟨rfl, fun other hother ↦ ?_⟩
    rw [← Option.mem_some_iff.mp hother]
    exact SizeForm.fits_of_size? hsize

/-- An argument that is read has its type as mentioned and an array size within its bound. -/
theorem fits_of_applyWords {name words : Text} {type : TypeReference} {direction : Direction}
    {optional : Bool} {a : Argument}
    (h : (plain name type direction optional).applyWords words = .ok a) :
    a.type = type ∧ ∀ size ∈ a.size, size.Fits := by
  refine foldlM_applyWord_induction (P := fun b ↦ b.type = type ∧ ∀ size ∈ b.size, size.Fits)
    (fun b word next hb hword ↦ ?_) h ⟨rfl, fun _ hsize ↦ absurd hsize (Option.not_mem_none _)⟩
  obtain ⟨htype, hfits⟩ := hword.fits hb.2
  exact ⟨htype.trans hb.1, hfits⟩

end Argument

/-! ## What an entry adds -/

namespace Model

variable {m : Model}

/-- Every signature is one from before, or one from before with the new argument. -/
theorem mem_signatures_addArgument {a : Argument} {slot : CallableSlot} {t : Signature}
    (h : t ∈ (m.addArgument a slot).signatures) :
    t ∈ m.signatures ∨ ∃ u ∈ m.signatures, t = u.addArgument a := by
  simp only [signatures, List.mem_append] at h ⊢
  cases slot with
  | function index =>
    rcases h with (h | h) | h
    · rcases mem_map_modify (g := Signature.addArgument a) (fun _ ↦ by rfl) h with
        h | ⟨u, hu, rfl⟩
      · exact .inl (.inl (.inl h))
      · exact .inr ⟨u, .inl (.inl hu), rfl⟩
    · exact .inl (.inl (.inr h))
    · exact .inl (.inr h)
  | functionPointer index =>
    rcases h with (h | h) | h
    · exact .inl (.inl (.inl h))
    · rcases mem_map_modify (g := Signature.addArgument a) (fun _ ↦ by rfl) h with
        h | ⟨u, hu, rfl⟩
      · exact .inl (.inl (.inr h))
      · exact .inr ⟨u, .inl (.inr hu), rfl⟩
    · exact .inl (.inr h)
  | method interface index =>
    rcases h with h | h
    · exact .inl (.inl h)
    · obtain ⟨i, hi, ht⟩ := List.mem_flatMap.mp h
      rcases mem_modify hi with hi | ⟨j, hj, rfl⟩
      · exact .inl (.inr (List.mem_flatMap.mpr ⟨i, hi, ht⟩))
      · rcases mem_modify ht with ht | ⟨u, hu, rfl⟩
        · exact .inl (.inr (List.mem_flatMap.mpr ⟨j, hj, ht⟩))
        · exact .inr ⟨u, .inr (List.mem_flatMap.mpr ⟨j, hj, hu⟩), rfl⟩

theorem mem_arguments_addArgument {a b : Argument} {slot : CallableSlot}
    (h : b ∈ (m.addArgument a slot).arguments) : b ∈ m.arguments ∨ b = a := by
  obtain ⟨t, ht, hb⟩ := List.mem_flatMap.mp h
  rcases mem_signatures_addArgument ht with ht | ⟨u, hu, rfl⟩
  · exact .inl (List.mem_flatMap.mpr ⟨t, ht, hb⟩)
  · rw [Signature.addArgument, List.mem_append, List.mem_singleton] at hb
    exact hb.imp_left fun hb ↦ List.mem_flatMap.mpr ⟨u, hu, hb⟩

/-- A method without arguments adds none. -/
theorem mem_arguments_addMethod {index : Nat} {name : Text} {returnType : TypeReference}
    {b : Argument} (h : b ∈ (m.addMethod index ⟨name, returnType, []⟩).arguments) :
    b ∈ m.arguments := by
  rw [arguments, signatures, List.flatMap_append, List.mem_append] at h ⊢
  refine h.imp_right fun h ↦ ?_
  obtain ⟨t, ht, hb⟩ := List.mem_flatMap.mp h
  obtain ⟨i, hi, ht⟩ := List.mem_flatMap.mp ht
  rcases mem_modify hi with hi | ⟨j, hj, rfl⟩
  · exact List.mem_flatMap.mpr ⟨t, List.mem_flatMap.mpr ⟨i, hi, ht⟩, hb⟩
  · rcases List.mem_append.mp ht with ht | ht
    · exact List.mem_flatMap.mpr ⟨t, List.mem_flatMap.mpr ⟨j, hj, ht⟩, hb⟩
    · rw [List.mem_singleton.mp ht] at hb
      exact absurd hb List.not_mem_nil

theorem mem_fields_addField {index : Nat} {f g : Field} (h : g ∈ (m.addField index f).fields) :
    g ∈ m.fields ∨ g = f := by
  obtain ⟨s, hs, hg⟩ := List.mem_flatMap.mp h
  rcases mem_modify hs with hs | ⟨t, ht, rfl⟩
  · exact .inl (List.mem_flatMap.mpr ⟨s, hs, hg⟩)
  · rw [Struct.addField, List.mem_append, List.mem_singleton] at hg
    exact hg.imp_left fun hg ↦ List.mem_flatMap.mpr ⟨t, ht, hg⟩

end Model

namespace State

variable {s : State} {e : Entry}

/-- Arguments come from argument entries only. -/
theorem mem_arguments_add {a : Argument} (h : a ∈ (s.add e).model.arguments) :
    a ∈ s.model.arguments ∨ e = .argument a := by
  cases e with
  | functionPointer name returnType code =>
    refine .inl ?_
    simpa [add, addFunctionPointer, Model.arguments, Model.signatures] using h
  | function name returnType convention =>
    refine .inl ?_
    simp only [add] at h
    split at h
    · exact h
    · simpa [addFunction, Model.arguments, Model.signatures] using h
  | argument b =>
    simp only [add] at h
    split at h
    · exact .inl h
    · rcases Model.mem_arguments_addArgument h with h | rfl
      · exact .inl h
      · exact .inr rfl
  | interface name group value base =>
    refine .inl ?_
    simpa [add, addInterface, Model.arguments, Model.signatures] using h
  | method name returnType =>
    refine .inl ?_
    simp only [add] at h
    split at h
    · exact h
    · exact Model.mem_arguments_addMethod h
  | variant v =>
    simp only [add] at h
    split at h <;> exact .inl h
  | field f =>
    simp only [add] at h
    split at h <;> exact .inl h
  | _ => exact .inl h

/-- Fields come from field entries only. -/
theorem mem_fields_add {f : Field} (h : f ∈ (s.add e).model.fields) :
    f ∈ s.model.fields ∨ e = .field f := by
  cases e with
  | struct name =>
    refine .inl ?_
    simpa [add, addStruct, Model.fields] using h
  | field g =>
    simp only [add] at h
    split at h
    · exact .inl h
    · rcases Model.mem_fields_addField h with h | rfl
      · exact .inl h
      · exact .inr rfl
  | argument a =>
    refine .inl ?_
    simp only [add] at h
    split at h
    · exact h
    · rwa [Model.fields, Model.structs_addArgument] at h
  | function name returnType convention =>
    simp only [add] at h
    split at h <;> exact .inl h
  | method name returnType =>
    simp only [add] at h
    split at h <;> exact .inl h
  | variant v =>
    simp only [add] at h
    split at h <;> exact .inl h
  | _ => exact .inl h

end State

/-! ## The invariant -/

namespace Model

/-- Array sizes are within their bounds, and the enumerations behind types are declared. -/
structure Sound (m : Model) : Prop where
  fits : ∀ a ∈ m.arguments, ∀ size ∈ a.size, size.Fits
  backs_argument : ∀ a ∈ m.arguments, m.Backs a.type
  backs_field : ∀ f ∈ m.fields, m.Backs f.type

theorem sound_empty : Sound empty where
  fits := by simp [empty, arguments, signatures]
  backs_argument := by simp [empty, arguments, signatures]
  backs_field := by simp [empty, fields]

end Model

/-- An entry keeps what stands behind types: it takes no enumeration away. -/
theorem Model.Backs.add {s : State} {type : TypeReference} (h : s.model.Backs type) (e : Entry) :
    (s.add e).model.Backs type := by
  intro name hname
  rw [s.enumerationNames_add e]
  exact List.mem_append_left _ (h name hname)

theorem State.sound_add {s : State} {d : Declaration} {e : Entry} (hs : s.model.Sound)
    (h : s.read d = .ok e) : (s.add e).model.Sound := by
  have hreads := (State.read_eq_ok.mp h).1
  -- Each argument and each field is one from before, or the one that has been read.
  refine ⟨fun a ha ↦ ?_, fun a ha ↦ ?_, fun f hf ↦ ?_⟩
  · rcases State.mem_arguments_add ha with ha | rfl
    · exact hs.fits a ha
    · cases hreads with
      | argument hn hwords => exact (Argument.fits_of_applyWords hwords).2
  · rcases State.mem_arguments_add ha with ha | rfl
    · exact (hs.backs_argument a ha).add e
    · cases hreads with
      | argument hn hwords =>
        rw [(Argument.fits_of_applyWords hwords).1]
        exact (s.model.backs_enrich _ _).add _
  · rcases State.mem_fields_add hf with hf | rfl
    · exact (hs.backs_field f hf).add e
    · cases hreads with
      | field hn => exact (s.model.backs_enrich _ _).add _

theorem Reachable.sound {c : Session} (h : Reachable c) : c.state.model.Sound :=
  h.state_induction (P := fun s ↦ s.model.Sound) Model.sound_empty
    fun _ _ _ hs hread ↦ State.sound_add hs hread

/-! ## Rendering -/

/-- **Collected models can be rendered.** Whatever calls led to a session, and whether they
succeeded or failed, its model is rendered to its end if it has a header and no name of an
enumeration is too long for a counted string. -/
theorem reachable_renders {c : Session} (h : Reachable c) (hheader : c.state.model.header.isSome)
    (hnames : ∀ e ∈ c.state.model.enumerations, e.name.length ≤ 0x1FFFFFFF) :
    c.state.model.render.fault = none := by
  have hsound := h.sound
  have hencodes : ∀ type, c.state.model.Backs type → type.Encodes := by
    intro type htype name hname
    obtain ⟨e, he, rfl⟩ := List.mem_map.mp (htype name hname)
    exact hnames e he
  rw [Model.fault_render_eq_none_iff]
  refine ⟨hheader, fun a ha ↦ ⟨hsound.fits a ha, ?_⟩, fun f hf ↦ ?_⟩
  · exact hencodes a.type (hsound.backs_argument a ha)
  · exact hencodes f.type (hsound.backs_field f hf)

/-- A call that succeeds and one that fails in its last line. -/
def interruptedCalls : List Call :=
  [.source (fun _ ↦ none)
    ⟨"types", ["meta\tApi\t1.0.0.0", "enum\tMode\tUINT32", "fptr\tNotify\tvoid\t0\t4294967295",
      "arg\tin\titems\tBYTE\t1\tconst ca65535", "struct\tItem", "field\tmode\tMode\t0"]⟩,
    .source (fun _ ↦ none)
      ⟨"calls", ["dll\ta.dll", "fn\tStart\tMode\t0", "arg\tout\tdata\tBYTE\t1\tcc4294967295",
        "arg\tin\tmode\tMode\t0", "arg\tin\tsize\tUINT32\t0\tca65536"]⟩]

/-- The session after both. -/
def interruptedSession : Session :=
  interruptedCalls.foldl (fun c call ↦ (call.perform c).session) Session.initial

theorem reachable_renders_after_failure :
    (∃ d, d ∈ interruptedSession.diagnostics) ∧ Reachable interruptedSession ∧
      interruptedSession.state.model.header.isSome ∧
      (∀ e ∈ interruptedSession.state.model.enumerations, e.name.length ≤ 0x1FFFFFFF) ∧
      interruptedSession.state.model.render.fault = none := by
  have hdiagnostics : interruptedSession.diagnostics ≠ [] := by decide +kernel
  have hreachable : Reachable interruptedSession := .call (.call .initial _) _
  have hheader : interruptedSession.state.model.header.isSome := by decide +kernel
  have hnames : ∀ e ∈ interruptedSession.state.model.enumerations,
      e.name.length ≤ 0x1FFFFFFF := by decide +kernel
  exact ⟨List.exists_mem_of_ne_nil _ hdiagnostics, hreachable, hheader, hnames,
    reachable_renders hreachable hheader hnames⟩

end NativeApi

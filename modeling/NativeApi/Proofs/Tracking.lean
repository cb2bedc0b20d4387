import NativeApi.Proofs.Position
import NativeApi.Proofs.WellFormed

/-!
# States and declarations

A state has forgotten the lines that led to it, but it knows as much of them as well-formedness
speaks of: which kinds have been declared, which names are taken, and what the latest enumeration
is. `Tracks` says so, one more declaration keeps it, and under it a state reads exactly the
declarations that may follow. So there is a run over a list of declarations exactly if the list is
well formed (`exists_run_iff`).
-/

namespace NativeApi

/-- A literal lies in a range if its integer does. -/
theorem IntegerRange.contains_ofInt_iff {r : IntegerRange} {i : Int} :
    r.contains (IntegerLiteral.ofInt i) = true ↔ -(r.negative : Int) ≤ i ∧ i ≤ r.positive := by
  rw [contains, IntegerLiteral.ofInt, decide_eq_true_iff]
  simp only [decide_eq_true_eq]
  split
  · omega
  · omega

/-- The state behind some declarations agrees with them on all that the condition speaks of. -/
structure Tracks (ds : List Declaration) (s : State) : Prop where
  has : ∀ c, s.has c = true ↔ ∃ o ∈ ds, o.opens? = some c
  started : s.has .header = true ↔ ds ≠ []
  enumerationNames :
    s.model.enumerations.map (·.name) = ds.filterMap Declaration.enumerationName?
  functionPointerNames :
    s.model.functionPointers.map (·.signature.name) = ds.filterMap Declaration.functionPointerName?
  structNames : s.model.structs.map (·.name) = ds.filterMap Declaration.structName?
  latestBase : s.latestEnumeration?.map (·.base) = (latestBase? ds).map TypeReference.named
  hasVariant : ∀ e ∈ s.latestEnumeration?, ∀ name,
    e.hasVariant name = true ↔ name ∈ latestVariants ds

namespace State

variable {s : State} {e : Entry}

theorem latestEnumeration?_add_enumeration (s : State) (name : Text) (base : TypeReference)
    (flags : Bool) :
    (s.add (.enumeration name base flags)).latestEnumeration? = some ⟨name, base, flags, []⟩ := by
  simp [latestEnumeration?, add, addEnumeration]

theorem latestEnumeration?_add_variant (s : State) (v : Variant) :
    (s.add (.variant v)).latestEnumeration?
      = s.latestEnumeration?.map (Enumeration.addVariant v) := by
  simp only [add]
  split
  · rename_i hnone
    simp [latestEnumeration?, hnone]
  · rename_i index hindex
    simp [latestEnumeration?, hindex, Model.addVariant]

/-- Other entries leave the latest enumeration alone. -/
theorem latestEnumeration?_add_of_ne (henumeration : e.opens? ≠ some .enumeration)
    (hvariant : e.needs? ≠ some .enumeration) :
    (s.add e).latestEnumeration? = s.latestEnumeration? := by
  cases e with
  | enumeration name base flags => exact absurd rfl henumeration
  | variant v => exact absurd rfl hvariant
  | _ =>
    simp only [add]
    try split
    all_goals simp [latestEnumeration?, addHeader, addFunctionPointer, addDll, Model.addDll,
      addFunction, addInterface, addMethod, Model.addMethod, addStruct, Model.addField, addGuid]

end State

namespace Model

variable {m : Model}

theorem declaresFunctionPointer_iff {name : Text} :
    m.declaresFunctionPointer name = true ↔
      name ∈ m.functionPointers.map (·.signature.name) := by
  rw [declaresFunctionPointer, List.any_eq_true, List.mem_map]
  simp only [beq_iff_eq]

theorem declaresStruct_iff {name : Text} :
    m.declaresStruct name = true ↔ name ∈ m.structs.map (·.name) := by
  rw [declaresStruct, List.any_eq_true, List.mem_map]
  simp only [beq_iff_eq]

end Model

/-- Texts that continue as `class` or `valuetype` do are no integer types. -/
theorem IntegerRange.ofIlType?_eq_none (il : Text) (h : il[1]? = some 0x6C ∨ il[1]? = some 0x61) :
    IntegerRange.ofIlType? il = none := by
  have hsecond : ∀ p ∈ types, p.1[1]? ≠ some 0x6C ∧ p.1[1]? ≠ some 0x61 := by decide
  rw [ofIlType?, List.lookup_eq_none_iff]
  intro p hp
  rw [bne_iff_ne]
  rintro rfl
  rcases h with h | h
  · exact (hsecond p hp).1 h
  · exact (hsecond p hp).2 h

namespace Tracks

variable {ds : List Declaration} {s : State}

theorem initial : Tracks [] State.initial where
  has c := by simp
  started := by simp
  enumerationNames := rfl
  functionPointerNames := rfl
  structNames := rfl
  latestBase := rfl
  hasVariant e he := by cases he

/-- A state that has read one more declaration knows one more. -/
theorem add (h : Tracks ds s) {d : Declaration} {e : Entry} (hread : s.read d = .ok e) :
    Tracks (ds ++ [d]) (s.add e) := by
  have hreads := (State.read_eq_ok.mp hread).1
  have hadmits := (State.read_eq_ok.mp hread).2
  refine ⟨fun c ↦ ?_, ?_, ?_, ?_, ?_, ?_, ?_⟩
  · rw [State.has_add hadmits, Bool.or_eq_true, h.has, beq_iff_eq, hreads.opens?_eq]
    simp only [List.mem_append, List.mem_singleton, or_and_right, exists_or, exists_eq_left]
  · rw [State.has_add hadmits, Bool.or_eq_true, beq_iff_eq]
    exact iff_of_true hadmits.has_header_or (by simp)
  · rw [State.enumerationNames_add, h.enumerationNames, filterMap_append_singleton]
    congr 2
    cases hreads <;> rfl
  · rw [State.functionPointerNames_add, h.functionPointerNames, filterMap_append_singleton]
    congr 2
    cases hreads <;> rfl
  · rw [State.structNames_add, h.structNames, filterMap_append_singleton]
    congr 2
    cases hreads <;> rfl
  · rw [latestBase?_append]
    cases hreads with
    | enumeration flags name base => rw [State.latestEnumeration?_add_enumeration]; rfl
    | variant hl =>
      rw [State.latestEnumeration?_add_variant, Option.map_map]
      exact h.latestBase
    | _ =>
      rw [State.latestEnumeration?_add_of_ne (by simp) (by simp [Entry.needs?])]
      exact h.latestBase
  · intro latest hlatest name
    rw [mem_latestVariants_append]
    cases hreads with
    | enumeration flags other base =>
      rw [State.latestEnumeration?_add_enumeration] at hlatest
      cases hlatest
      simp [Enumeration.hasVariant, Declaration.opens?]
    | variant hl =>
      rw [State.latestEnumeration?_add_variant] at hlatest
      obtain ⟨before, hbefore, rfl⟩ := Option.map_eq_some_iff.mp hlatest
      have hvariants := h.hasVariant before hbefore name
      simp only [Enumeration.hasVariant, List.any_eq_true, beq_iff_eq] at hvariants ⊢
      simp [Enumeration.addVariant, Declaration.opens?, or_and_right, exists_or, hvariants,
        or_comm]
    | _ =>
      rw [State.latestEnumeration?_add_of_ne (by simp) (by simp [Entry.needs?])] at hlatest
      rw [h.hasVariant latest hlatest name]
      simp [Declaration.opens?]

/-! ### Ranges -/

theorem declaresFunctionPointer_eq (h : Tracks ds s) (name : Text) :
    s.model.declaresFunctionPointer name = ds.any (·.functionPointerName? == some name) := by
  rw [Bool.eq_iff_iff, Model.declaresFunctionPointer_iff, h.functionPointerNames,
    List.mem_filterMap, List.any_eq_true]
  simp only [beq_iff_eq]

theorem declaresStruct_eq (h : Tracks ds s) (name : Text) :
    s.model.declaresStruct name = ds.any (·.structName? == some name) := by
  rw [Bool.eq_iff_iff, Model.declaresStruct_iff, h.structNames, List.mem_filterMap,
    List.any_eq_true]
  simp only [beq_iff_eq]

/-- The state resolves a base type as far as its range is concerned. -/
theorem ofIlType?_ilType (h : Tracks ds s) (base : Text) :
    IntegerRange.ofIlType? (s.model.ilType (TypeReference.named base)) = rangeBehind? ds base := by
  have hil : s.model.ilType (TypeReference.named base) = s.model.baseIlType base :=
    List.append_nil _
  have hclass := IntegerRange.ofIlType?_eq_none ("class " ++ s.model.qualified base) (.inl rfl)
  have hvalue :=
    IntegerRange.ofIlType?_eq_none ("valuetype " ++ s.model.qualified base) (.inr rfl)
  rw [hil, Model.baseIlType, Model.resolution, rangeBehind?, ← h.declaresFunctionPointer_eq,
    ← h.declaresStruct_eq]
  cases Resolution.wellKnownTypes.lookup base with
  | some il => rfl
  | none =>
    -- Interfaces, function pointers and structs become classes and value types, without a range.
    cases Resolution.isComInterface base <;> cases s.model.declaresFunctionPointer base <;>
      cases s.model.declaresStruct base <;> simp [hclass, hvalue]

theorem holds_iff (h : Tracks ds s) {base : Text} {l : IntegerLiteral} :
    s.model.Holds (TypeReference.named base) l ↔
      ∀ r ∈ rangeBehind? ds base, r.contains l = true := by
  rw [Model.Holds, h.ofIlType?_ilType]

/-! ### Reading one more declaration -/

theorem findEnumeration?_eq_none_iff (h : Tracks ds s) {name : Text} :
    s.model.findEnumeration? name = none ↔
      name ∉ ds.filterMap Declaration.enumerationName? := by
  rw [← h.enumerationNames, Model.findEnumeration?, List.find?_eq_none, List.mem_map, not_exists]
  simp only [beq_iff_eq, not_and]

theorem isSome_header_iff (h : Tracks ds s) : s.model.header.isSome ↔ ds ≠ [] := h.started

/-- What a state asks of a variant is what the condition asks. -/
theorem admits_variant_iff (h : Tracks ds s) {name : Text} {l : IntegerLiteral} :
    s.Admits (.variant ⟨name, l⟩) ↔
      ds ≠ [] ∧ (∃ o ∈ ds, o.opens? = some .enumeration) ∧ name ∉ latestVariants ds ∧
        ∀ base ∈ latestBase? ds, ∀ r ∈ rangeBehind? ds base, r.contains l = true := by
  rw [← isSome_latestBase?_iff, ← h.isSome_header_iff]
  have hlatest := h.latestBase
  constructor
  · rintro ⟨hheader, e, he, hname, hholds⟩
    obtain ⟨base, hbase, hnamed⟩ : ∃ base, latestBase? ds = some base ∧
        TypeReference.named base = e.base := by
      rw [he, Option.map_some, eq_comm, Option.map_eq_some_iff] at hlatest
      exact hlatest
    refine ⟨hheader, Option.isSome_of_eq_some hbase, ?_, fun other hother ↦ ?_⟩
    · rw [← h.hasVariant e he, hname]
      exact Bool.false_ne_true
    · rw [hbase] at hother
      cases hother
      rw [← hnamed] at hholds
      exact h.holds_iff.mp hholds
  · rintro ⟨hheader, hbase, hname, hvalue⟩
    obtain ⟨base, hbase⟩ := Option.isSome_iff_exists.mp hbase
    rw [hbase, Option.map_some, Option.map_eq_some_iff] at hlatest
    obtain ⟨e, he, hnamed⟩ := hlatest
    refine ⟨hheader, e, he, ?_, ?_⟩
    · rw [← h.hasVariant e he, Bool.not_eq_true] at hname
      exact hname
    · rw [hnamed]
      exact h.holds_iff.mpr (hvalue base hbase)

/-- What a state reads may follow. -/
theorem mayFollow_of_read (h : Tracks ds s) {d : Declaration} {e : Entry}
    (hread : s.read d = .ok e) : MayFollow ds d := by
  have hreads := (State.read_eq_ok.mp hread).1
  have hadmits := (State.read_eq_ok.mp hread).2
  refine ⟨⟨fun hd ↦ ?_, fun hds ↦ ?_⟩, fun c hc ↦ ?_, ?_, fun name hname ↦ ?_, ?_, ?_⟩
  · cases hreads with
    | header name version =>
      have hnone : s.model.header = none := hadmits
      by_contra hne
      have hsome := h.isSome_header_iff.mpr hne
      rw [hnone] at hsome
      cases hsome
    | _ => cases hd
  · rw [← hreads.opens?_eq]
    exact hadmits.has_header_or.resolve_left fun hhas ↦ h.started.mp hhas hds
  · rw [← hreads.needs?_eq] at hc
    exact (h.has c).mp (hadmits.has_of_needs? hc)
  · exact exists_reads_iff.mp ⟨e, hreads⟩
  · cases hreads with
    | enumeration flags other base =>
      cases hname
      exact h.findEnumeration?_eq_none_iff.mp hadmits.2
    | _ => cases hname
  · rintro name w rfl first v between hds
    cases hreads with
    | variant hl =>
      obtain ⟨-, -, hname, -⟩ := h.admits_variant_iff.mp hadmits
      -- With no enumeration in between, the earlier variant would be one of the latest.
      by_contra hno
      refine hname (mem_latestVariants_iff.mpr ⟨first, v, between, hds, fun o ho hopens ↦ ?_⟩)
      exact hno ⟨o, ho, hopens⟩
  · rintro name value rfl i hi base hbase r hr
    cases hreads with
    | variant hvalue =>
      obtain ⟨j, hj, -, rfl⟩ := IntegerLiteral.ofText?_eq_some_iff.mp hvalue
      rw [hi.unique hj]
      exact IntegerRange.contains_ofInt_iff.mp
        ((h.admits_variant_iff.mp hadmits).2.2.2 base hbase r hr)

/-- What may follow is read. -/
theorem exists_read_of_mayFollow (h : Tracks ds s) {d : Declaration} (hd : MayFollow ds d) :
    ∃ e, s.read d = .ok e := by
  obtain ⟨e, hreads⟩ := (exists_reads_iff (m := s.model)).mpr hd.operands
  refine ⟨e, State.read_eq_ok.mpr ⟨hreads, ?_⟩⟩
  have hheader : d.opens? ≠ some .header → s.model.header.isSome := fun hne ↦
    h.isSome_header_iff.mpr fun hds ↦ hne (hd.header.mpr hds)
  have hneeds : ∀ c, d.needs? = some c → s.has c = true := fun c hc ↦
    (h.has c).mpr (hd.context c hc)
  cases hreads with
  | header name version =>
    have hds : ds = [] := hd.header.mp rfl
    have hnone := mt h.isSome_header_iff.mp fun hne ↦ hne hds
    exact Option.not_isSome_iff_eq_none.mp hnone
  | function hn hc => exact ⟨hheader (by simp [Declaration.opens?]), hneeds .dll rfl⟩
  | argument hn ha => exact ⟨hheader (by simp [Declaration.opens?]), hneeds .callable rfl⟩
  | method hn => exact ⟨hheader (by simp [Declaration.opens?]), hneeds .interface rfl⟩
  | standardMethod name => exact ⟨hheader (by simp [Declaration.opens?]), hneeds .interface rfl⟩
  | enumeration flags name base =>
    exact ⟨hheader (by simp [Declaration.opens?]),
      h.findEnumeration?_eq_none_iff.mpr (hd.enumeration name rfl)⟩
  | variant hl =>
    have hne : ds ≠ [] := fun hds ↦ by cases hd.header.mpr hds
    refine h.admits_variant_iff.mpr ⟨hne, hd.context .enumeration rfl, ?_, ?_⟩
    · rw [mem_latestVariants_iff]
      rintro ⟨first, v, between, hds, hbetween⟩
      obtain ⟨o, ho, hopens⟩ := hd.variant _ _ rfl first v between hds
      exact hbetween o ho hopens
    · intro base hbase r hr
      obtain ⟨i, hi, -, rfl⟩ := IntegerLiteral.ofText?_eq_some_iff.mp hl
      exact IntegerRange.contains_ofInt_iff.mpr (hd.value _ _ rfl i hi base hbase r hr)
  | field hn => exact ⟨hheader (by simp [Declaration.opens?]), hneeds .struct rfl⟩
  | _ => exact hheader (by simp [Declaration.opens?])

end Tracks

/-! ## Runs -/

namespace State.Run

variable {s : State} {ds : List Declaration} {es : List Entry}

/-- A run over one declaration more reads it behind the others. -/
theorem append_singleton_iff {d : Declaration} :
    s.Run (ds ++ [d]) es ↔
      ∃ front e, es = front ++ [e] ∧ s.Run ds front ∧ (s.addAll front).read d = .ok e := by
  rw [append_iff]
  constructor
  · rintro ⟨front, rest, rfl, hfront, hrest⟩
    cases hrest with
    | cons hread t =>
      cases t
      exact ⟨front, _, rfl, hfront, hread⟩
  · rintro ⟨front, e, rfl, hfront, hread⟩
    exact ⟨front, [e], rfl, hfront, .cons hread (.nil _)⟩

/-- The state behind a run agrees with its declarations. -/
theorem tracks (h : initial.Run ds es) : Tracks ds (initial.addAll es) := by
  -- What is tracked looks back, so the list grows at its end.
  induction ds using List.reverseRecOn generalizing es with
  | nil =>
    cases h
    exact .initial
  | append_singleton ds d ih =>
    obtain ⟨front, e, rfl, hfront, hread⟩ := append_singleton_iff.mp h
    rw [addAll_append]
    exact (ih hfront).add hread

end State.Run

/-- There is a run over a list of declarations exactly if the list is well formed. -/
theorem exists_run_iff {ds : List Declaration} :
    (∃ es, State.initial.Run ds es) ↔ WellFormed ds := by
  induction ds using List.reverseRecOn with
  | nil => exact iff_of_true ⟨[], .nil _⟩ wellFormed_nil
  | append_singleton ds d ih =>
    rw [wellFormed_append_singleton, ← ih]
    constructor
    · rintro ⟨es, h⟩
      obtain ⟨front, e, rfl, hfront, hread⟩ := State.Run.append_singleton_iff.mp h
      exact ⟨⟨front, hfront⟩, hfront.tracks.mayFollow_of_read hread⟩
    · rintro ⟨⟨front, hfront⟩, hd⟩
      obtain ⟨e, hread⟩ := hfront.tracks.exists_read_of_mayFollow hd
      exact ⟨front ++ [e], State.Run.append_singleton_iff.mpr ⟨front, e, rfl, hfront, hread⟩⟩

end NativeApi

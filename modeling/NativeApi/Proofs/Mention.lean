import NativeApi.Proofs.Enumerations
import NativeApi.Proofs.Refusal
import NativeApi.Proofs.Slots

/-!
# Mentions of enumerations

A line that mentions a type stores a reference to it: a return type, the type of an argument or that
of a field. If the name is that of an enumeration declared before, the reference should be to the
base type of the enumeration, with the enumeration behind it.

The name is resolved before it is looked up, though, and what it resolves to is looked up. So the
reference is to the enumeration exactly if its name resolves to itself (`Model.enrich_mention_iff`).
A name with a fixed meaning, the name of a COM interface by its form, and the name of a function
pointer or a struct that has been declared mention no enumeration of that name.
-/

namespace NativeApi

/-! ## Resolution of a name to itself -/

namespace Resolution

/-- No fixed meaning is the name itself. -/
theorem ne_of_lookup_wellKnownTypes {name il : Text} (h : wellKnownTypes.lookup name = some il) :
    il ≠ name := by
  have hall : ∀ p ∈ wellKnownTypes, p.2 ≠ p.1 := by decide
  obtain ⟨before, after, htypes, -⟩ := List.lookup_eq_some_iff.mp h
  exact hall (name, il) (htypes ▸ by simp)

end Resolution

namespace Model

variable {m : Model}

/-- Nothing in the model and no rule gives the name another meaning than that of an enumeration. -/
structure StandsForItself (m : Model) (name : Text) : Prop where
  notWellKnown : Resolution.wellKnownTypes.lookup name = none
  notInterface : Resolution.isComInterface name = false
  notFunctionPointer : m.declaresFunctionPointer name = false
  notStruct : m.declaresStruct name = false

theorem resolution_eq_verbatim_iff {name : Text} :
    m.resolution name = .verbatim ↔ m.StandsForItself name := by
  constructor
  · intro h
    rw [resolution] at h
    split at h
    · cases h
    · rename_i hlookup
      split at h
      · cases h
      · rename_i hclass
        split at h
        · cases h
        · rename_i hstruct
          rw [Bool.not_eq_true, Bool.or_eq_false_iff] at hclass
          exact ⟨hlookup, hclass.1, hclass.2, Bool.not_eq_true _ ▸ hstruct⟩
  · intro h
    simp [resolution, h.notWellKnown, h.notInterface, h.notFunctionPointer, h.notStruct]

/-- A name that does not stand for itself becomes another text. -/
theorem baseIlType_eq_self_iff {name : Text} :
    m.baseIlType name = name ↔ m.resolution name = .verbatim := by
  have hlonger : ∀ start : Text, start ≠ [] → start ++ m.qualified name ≠ name := by
    intro start hstart heq
    have hlength := congrArg List.length heq
    have hpos := List.length_pos_of_ne_nil hstart
    simp only [qualified, List.length_append] at hlength
    omega
  rw [baseIlType]
  cases hresolution : m.resolution name with
  | wellKnown il =>
    have hlookup : Resolution.wellKnownTypes.lookup name = some il := by
      rw [resolution] at hresolution
      split at hresolution
      · rename_i other hother
        cases hresolution
        exact hother
      · split at hresolution
        · cases hresolution
        · split at hresolution <;> cases hresolution
    simpa using Resolution.ne_of_lookup_wellKnownTypes hlookup
  | localClass => simpa using hlonger "class " (by decide)
  | localValue => simpa using hlonger "valuetype " (by decide)
  | verbatim => simp

/-! ## Mentions -/

/-- A name that stands for itself mentions the enumeration of that name. -/
theorem enrich_of_verbatim (hm : m.EnumerationsValid) {e : Enumeration} (he : e ∈ m.enumerations)
    (h : m.resolution e.name = .verbatim) :
    m.enrich ⟨e.name, 0, none⟩ = ⟨e.base.name, 0, some e.name⟩ := by
  have hfind : m.findEnumeration? (m.baseIlType e.name) = some e := by
    rw [baseIlType_eq_self_iff.mpr h]
    exact (findEnumeration?_eq_some_iff hm.nodup).mpr ⟨he, rfl⟩
  have hbase := hm.base e he
  rw [enrich, if_pos rfl, hfind]
  show ({ e.base with backingEnum := some e.name } : TypeReference) = _
  rw [hbase]
  rfl

/-- A reference never gets an enumeration of another name than the text that its name becomes. -/
theorem name_eq_of_backingEnum_enrich {type : TypeReference} {name : Text}
    (htype : type.backingEnum = none) (h : (m.enrich type).backingEnum = some name) :
    m.baseIlType type.name = name := by
  rw [enrich] at h
  split at h
  · split at h
    · rename_i e he
      cases h
      exact (mem_of_findEnumeration? he).2.symm
    · rw [htype] at h
      cases h
  · rw [htype] at h
    cases h

/-- **A name mentions an enumeration exactly if it stands for itself.** -/
theorem enrich_mention_iff (hm : m.EnumerationsValid) {e : Enumeration}
    (he : e ∈ m.enumerations) :
    (m.enrich ⟨e.name, 0, none⟩).backingEnum = some e.name ↔ m.resolution e.name = .verbatim := by
  constructor
  · intro h
    exact baseIlType_eq_self_iff.mp (name_eq_of_backingEnum_enrich rfl h)
  · intro h
    rw [enrich_of_verbatim hm he h]

end Model

/-! ## What a line stores -/

namespace Declaration

/-- The type that a declaration mentions and the text of its depth. The base of an interface and
that of an enumeration are not resolved when they are read. -/
def mention? : Declaration → Option (Text × Text)
  | functionPointer _ type depth _ => some (type, depth)
  | function _ type depth _ => some (type, depth)
  | argument _ _ _ type depth _ => some (type, depth)
  | method _ type depth => some (type, depth)
  | field _ type depth => some (type, depth)
  | _ => none

end Declaration

namespace State

/-- The type reference that a declaration of a kind has stored last: the return type of the last
function, function pointer or method, or the type of the last argument or field. -/
def stored? (s : State) : Declaration → Option TypeReference
  | .functionPointer .. => s.model.functionPointers.getLast?.map (·.signature.returnType)
  | .function .. => s.model.functions.getLast?.map (·.signature.returnType)
  | .argument .. => do
    let signature ← s.model.signature? (← s.scope.callable)
    let argument ← signature.arguments.getLast?
    return argument.type
  | .method .. => do
    let interface ← s.model.interfaces[← s.scope.interface]?
    let method ← interface.methods.getLast?
    return method.returnType
  | .field .. => do
    let struct ← s.model.structs[← s.scope.struct]?
    let field ← struct.fields.getLast?
    return field.type
  | _ => none

end State

namespace Model

variable {m : Model}

/-- An argument goes to the signature in the slot. -/
theorem signature?_addArgument (a : Argument) (slot : CallableSlot) :
    (m.addArgument a slot).signature? slot = (m.signature? slot).map (Signature.addArgument a) := by
  cases slot with
  | function index =>
    simp [signature?, addArgument, FreeFunction.addArgument, Function.comp_def]
  | functionPointer index =>
    simp [signature?, addArgument, FunctionPointer.addArgument, Function.comp_def]
  | method interface index =>
    cases hi : m.interfaces[interface]? <;>
      simp [signature?, addArgument, Interface.addArgument, hi]

end Model

/-- **A line stores what it mentions**, enriched by the model before the line. -/
theorem State.stored?_add {s : State} (hs : s.SlotsValid) {d : Declaration} {e : Entry}
    (h : s.read d = .ok e) {type depth : Text} (hmention : d.mention? = some (type, depth)) :
    ∃ n, readDepth depth = .ok n ∧
      (s.add e).stored? d = some (s.model.enrich ⟨type, n, none⟩) := by
  obtain ⟨hreads, hadmits⟩ := State.read_eq_ok.mp h
  cases hreads with
  | functionPointer hn hc =>
    cases hmention
    exact ⟨_, readDepth_eq_ok.mpr hn, by simp [stored?, add, addFunctionPointer]⟩
  | function hn hc =>
    cases hmention
    obtain ⟨dll, hdll⟩ := Option.isSome_iff_exists.mp hadmits.2
    exact ⟨_, readDepth_eq_ok.mpr hn, by simp [stored?, add, addFunction, hdll]⟩
  | argument hn hwords =>
    cases hmention
    obtain ⟨slot, hslot⟩ := Option.isSome_iff_exists.mp hadmits.2
    obtain ⟨signature, hsignature⟩ :=
      Option.isSome_iff_exists.mp (hs.inBounds.callable slot hslot)
    have htype := (Argument.fits_of_applyWords hwords).1
    refine ⟨_, readDepth_eq_ok.mpr hn, ?_⟩
    simp [stored?, add, hslot, Model.signature?_addArgument, hsignature, Signature.addArgument,
      htype]
  | method hn =>
    cases hmention
    obtain ⟨index, hindex⟩ := Option.isSome_iff_exists.mp hadmits.2
    have hlt := hs.inBounds.interface index hindex
    refine ⟨_, readDepth_eq_ok.mpr hn, ?_⟩
    simp [stored?, add, hindex, addMethod, Model.addMethod, Interface.addMethod, hlt]
  | field hn =>
    cases hmention
    obtain ⟨index, hindex⟩ := Option.isSome_iff_exists.mp hadmits.2
    have hlt := hs.inBounds.struct index hindex
    refine ⟨_, readDepth_eq_ok.mpr hn, ?_⟩
    simp [stored?, add, hindex, Model.addField, Struct.addField, hlt]
  | _ => cases hmention

/-! ## Accepted lines -/

/-- A line with a declaration is accepted if the declaration can be read, and adds its entry. -/
theorem exists_read_of_accepted {opening : Opening} {number : Nat} {raw : Text} {c : Session}
    {d : Declaration} (hline : (Line.ofText raw).declaration? = some d)
    (h : (collectLine opening number raw c).success = true) :
    ∃ e, c.state.read d = .ok e ∧
      (collectLine opening number raw c).session.state = c.state.add e := by
  rw [collectLine] at h ⊢
  cases hraw : Line.ofText raw with
  | blank => rw [hraw] at hline; cases hline
  | unknown word => rw [hraw] at hline; cases hline
  | command k =>
    rw [hraw, Line.declaration?] at hline
    split at hline
    · rename_i declared hstatement
      cases hline
      simp only [hraw, hstatement, State.declare] at h ⊢
      cases hread : c.state.read d with
      | error fault => rw [hread] at h; cases h
      | ok e => exact ⟨e, rfl, rfl⟩
    · cases hline

/-- **Mentions of an enumeration.** Where a line is accepted that mentions an enumeration of the
model without stars, the line stores a reference to the base type with the enumeration behind it if
the name stands for itself: it has no fixed meaning, it has not the form of a COM interface, and
neither a function pointer nor a struct of the name has been declared. Otherwise the enumeration is
not behind the reference. -/
theorem mention_of_enumeration {c : Session} (h : Visited c.state) {e : Enumeration}
    (he : e ∈ c.state.model.enumerations) {raw depth : Text} {d : Declaration}
    (hline : (Line.ofText raw).declaration? = some d)
    (hmention : d.mention? = some (e.name, depth)) (hdepth : readDepth depth = .ok 0)
    (opening : Opening) (number : Nat)
    (haccepted : (collectLine opening number raw c).success = true) :
    ∃ type, (collectLine opening number raw c).session.state.stored? d = some type ∧
      (c.state.model.StandsForItself e.name → type = ⟨e.base.name, 0, some e.name⟩) ∧
      (type.backingEnum = some e.name → c.state.model.StandsForItself e.name) := by
  obtain ⟨entry, hread, hstate⟩ := exists_read_of_accepted hline haccepted
  obtain ⟨n, hn, hstored⟩ := State.stored?_add h.slotsValid hread hmention
  rw [hdepth, Except.ok.injEq] at hn
  subst hn
  refine ⟨_, hstate ▸ hstored, fun hitself ↦ ?_, fun hbehind ↦ ?_⟩
  · exact Model.enrich_of_verbatim h.enumerationsValid he
      (Model.resolution_eq_verbatim_iff.mpr hitself)
  · exact Model.resolution_eq_verbatim_iff.mp
      ((Model.enrich_mention_iff h.enumerationsValid he).mp hbehind)

/-- A session with two enumerations, one of them named as COM interfaces are, and a method. -/
def openModeSession : Session :=
  ((Call.source (fun _ ↦ none)
    ⟨"modes", ["meta\tApi\t1.0.0.0", "enum\tMode\tUINT32", "enum\tIOpenMode\tDWORD",
      "iface\tIFile\t1\t2\tIUnknown", "meth\tOpen\tvoid\t0"]⟩).perform Session.initial).session

def modeBehindUInt32 : Enumeration := ⟨"Mode", .named "UINT32", false, []⟩

theorem mention_of_enumeration_in_argument :
    Visited openModeSession.state ∧
      modeBehindUInt32 ∈ openModeSession.state.model.enumerations ∧
      (collectLine (openingWithin (fun _ ↦ none) 0) 6 "arg\tin\tmode\tMode\t-0x0\tconst"
        openModeSession).success = true ∧
      (collectLine (openingWithin (fun _ ↦ none) 0) 6 "arg\tin\tmode\tMode\t-0x0\tconst"
        openModeSession).session.state.stored?
          (.argument false "in" "mode" "Mode" "-0x0" "const")
        = some ⟨"UINT32", 0, some "Mode"⟩ := by
  have hvisited : Visited openModeSession.state := (Reachable.call .initial _).visited
  have hmem : modeBehindUInt32 ∈ openModeSession.state.model.enumerations := by decide
  have hline : (Line.ofText "arg\tin\tmode\tMode\t-0x0\tconst").declaration?
      = some (.argument false "in" "mode" "Mode" "-0x0" "const") := by decide
  have hdepth : readDepth "-0x0" = .ok 0 := by rfl
  have haccepted : (collectLine (openingWithin (fun _ ↦ none) 0) 6
      "arg\tin\tmode\tMode\t-0x0\tconst" openModeSession).success = true := by decide
  obtain ⟨type, hstored, hitself, -⟩ :=
    mention_of_enumeration hvisited hmem hline rfl hdepth _ _ haccepted
  have hname : openModeSession.state.model.StandsForItself "Mode" :=
    ⟨by decide, by decide, by decide, by decide⟩
  rw [hitself hname] at hstored
  exact ⟨hvisited, hmem, haccepted, hstored⟩

/-- An enumeration that is named as COM interfaces are is never mentioned. -/
theorem mention_misses_interface_names :
    ¬∀ (c : Session), Visited c.state → ∀ e ∈ c.state.model.enumerations,
      ∀ (raw depth : Text) (d : Declaration), (Line.ofText raw).declaration? = some d →
      d.mention? = some (e.name, depth) → readDepth depth = .ok 0 →
      ∀ (opening : Opening) (number : Nat),
      (collectLine opening number raw c).success = true →
      (collectLine opening number raw c).session.state.stored? d
        = some ⟨e.base.name, 0, some e.name⟩ := by
  intro h
  have hmem : (⟨"IOpenMode", .named "DWORD", false, []⟩ : Enumeration)
      ∈ openModeSession.state.model.enumerations := by decide
  have hstored := h openModeSession (Reachable.call .initial _).visited _ hmem
    "fptr\tNotify\tIOpenMode\t0" "0" (.functionPointer "Notify" "IOpenMode" "0" none)
    (by decide) rfl (by rfl) (openingWithin (fun _ ↦ none) 0) 6 (by decide)
  revert hstored
  decide

end NativeApi

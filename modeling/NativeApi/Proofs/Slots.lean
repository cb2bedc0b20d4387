import NativeApi.Proofs.Dependence
import NativeApi.Proofs.Renderable

/-!
# Slots

A line that belongs to an earlier one finds it by a position in a slot, and nothing checks the
position where the member is added. So a slot must never point beside its list. It does more: a slot
of interfaces, enumerations or structs holds the last position, whenever there is one
(`State.SlotsValid`).

The slot of callables is of another kind, because three lists compete for it, one of them inside the
interfaces. A method in the slot may belong to an interface before the last one, and then the two
slots point to different interfaces. It is the last method of *its* interface, since methods are
added to the last interface only and each of them takes the slot.
-/

namespace NativeApi

/-! ## Last positions -/

section LastIndex

variable {α : Type}

/-- The position of the last element of a list, if there is one. -/
def lastIndex? : List α → Option Nat
  | [] => none
  | _ :: rest => some rest.length

@[simp] theorem lastIndex?_nil : lastIndex? ([] : List α) = none := rfl

theorem lastIndex?_eq_some_iff {l : List α} {i : Nat} :
    lastIndex? l = some i ↔ i + 1 = l.length := by
  cases l with
  | nil => simp
  | cons a l =>
    rw [lastIndex?, Option.some.injEq, List.length_cons, Nat.add_right_cancel_iff, eq_comm]

@[simp] theorem lastIndex?_append_singleton (l : List α) (a : α) :
    lastIndex? (l ++ [a]) = some l.length := by
  rw [lastIndex?_eq_some_iff, List.length_append, List.length_singleton]

@[simp] theorem lastIndex?_modify (l : List α) (i : Nat) (f : α → α) :
    lastIndex? (l.modify i f) = lastIndex? l := by
  apply Option.ext
  intro j
  rw [lastIndex?_eq_some_iff, lastIndex?_eq_some_iff, List.length_modify]

theorem lt_length_of_lastIndex? {l : List α} {i : Nat} (h : lastIndex? l = some i) :
    i < l.length := by
  rw [lastIndex?_eq_some_iff] at h
  omega

end LastIndex

/-! ## What a slot points to -/

namespace Model

/-- The signature in a slot. -/
def signature? (m : Model) : CallableSlot → Option Signature
  | .function index => m.functions[index]?.map (·.signature)
  | .functionPointer index => m.functionPointers[index]?.map (·.signature)
  | .method interface index => m.interfaces[interface]?.bind fun i ↦ i.methods[index]?

/-- The position of the last method of the interface at a position. -/
def lastMethod? (m : Model) (interface : Nat) : Option Nat :=
  m.interfaces[interface]?.bind fun i ↦ lastIndex? i.methods

/-- A slot points to the last function, to the last function pointer, or to the last method of some
interface. -/
def IsLast (m : Model) : CallableSlot → Prop
  | .function index => lastIndex? m.functions = some index
  | .functionPointer index => lastIndex? m.functionPointers = some index
  | .method interface index => m.lastMethod? interface = some index

variable {m : Model} {slot : CallableSlot}

theorem IsLast.isSome_signature? (h : m.IsLast slot) : (m.signature? slot).isSome := by
  cases slot with
  | function index =>
    rw [signature?, Option.isSome_map, isSome_getElem?]
    exact lt_length_of_lastIndex? h
  | functionPointer index =>
    rw [signature?, Option.isSome_map, isSome_getElem?]
    exact lt_length_of_lastIndex? h
  | method interface index =>
    obtain ⟨i, hi, hindex⟩ := Option.bind_eq_some_iff.mp h
    rw [signature?, hi, Option.bind_some, isSome_getElem?]
    exact lt_length_of_lastIndex? hindex

theorem mem_signatures_of_signature? {s : Signature} (h : m.signature? slot = some s) :
    s ∈ m.signatures := by
  rw [signatures, List.mem_append, List.mem_append]
  cases slot with
  | function index =>
    obtain ⟨f, hf, rfl⟩ := Option.map_eq_some_iff.mp h
    exact .inl (.inl (List.mem_map_of_mem (List.mem_of_getElem? hf)))
  | functionPointer index =>
    obtain ⟨p, hp, rfl⟩ := Option.map_eq_some_iff.mp h
    exact .inl (.inr (List.mem_map_of_mem (List.mem_of_getElem? hp)))
  | method interface index =>
    obtain ⟨i, hi, hs⟩ := Option.bind_eq_some_iff.mp h
    exact .inr (List.mem_flatMap.mpr ⟨i, List.mem_of_getElem? hi, List.mem_of_getElem? hs⟩)

/-! ### Additions keep what is last -/

/-- An argument goes into a signature and moves none. -/
theorem isLast_addArgument (m : Model) (a : Argument) (other slot : CallableSlot) :
    (m.addArgument a other).IsLast slot ↔ m.IsLast slot := by
  cases other with
  | function i => cases slot <;> simp [IsLast, lastMethod?, addArgument]
  | functionPointer i => cases slot <;> simp [IsLast, lastMethod?, addArgument]
  | method interface i =>
    cases slot with
    | function index => exact Iff.rfl
    | functionPointer index => exact Iff.rfl
    | method index j =>
      have hmethods : ∀ k : Interface,
          lastIndex? (if interface = index then k.addArgument i a else k).methods
            = lastIndex? k.methods := by
        intro k
        split
        · exact lastIndex?_modify _ _ _
        · rfl
      simp only [IsLast, lastMethod?, addArgument, List.getElem?_modify, Option.map_eq_map,
        Option.bind_map, Function.comp_def, hmethods]

/-- A new interface stands behind all others. -/
theorem IsLast.append_interface (h : m.IsLast slot) (i : Interface) :
    IsLast { m with interfaces := m.interfaces ++ [i] } slot := by
  cases slot with
  | function index => exact h
  | functionPointer index => exact h
  | method interface index =>
    obtain ⟨k, hk, hindex⟩ := Option.bind_eq_some_iff.mp h
    have hlt : interface < m.interfaces.length := (List.getElem?_eq_some_iff.mp hk).1
    rw [IsLast, lastMethod?, List.getElem?_append_left hlt, hk, Option.bind_some, hindex]

/-- A new method is the last one of its interface. -/
theorem isLast_addMethod {interface : Nat} (h : interface < m.interfaces.length)
    (method : Signature) :
    (m.addMethod interface method).IsLast (.method interface (m.methodCount interface)) := by
  rw [IsLast, lastMethod?, addMethod, methodCount, List.getElem?_modify,
    List.getElem?_eq_getElem h]
  simp [Interface.addMethod]

/-- Where there is a signature with a new argument, there was one without it. -/
theorem signatures_ne_nil_of_addArgument {a : Argument}
    (h : (m.addArgument a slot).signatures ≠ []) : m.signatures ≠ [] := by
  obtain ⟨s, hs⟩ := List.exists_mem_of_ne_nil _ h
  rcases mem_signatures_addArgument hs with hs | ⟨t, ht, -⟩
  · exact List.ne_nil_of_mem hs
  · exact List.ne_nil_of_mem ht

theorem insertText_ne_nil (t : Text) (ts : List Text) : insertText t ts ≠ [] := by
  cases ts with
  | nil => exact List.cons_ne_nil t []
  | cons u ts =>
    rw [insertText]
    split
    · exact List.cons_ne_nil _ _
    · split <;> exact List.cons_ne_nil _ _

end Model

/-! ## The invariant -/

namespace State

/-- Where the slots of a state point. -/
structure SlotsValid (s : State) : Prop where
  /-- Without a header nothing has been declared. -/
  unheaded : s.model.header = none → s.model = Model.empty ∧ s.scope = Scope.empty
  dll : s.scope.dll.isSome ↔ s.model.dlls ≠ []
  interface : s.scope.interface = lastIndex? s.model.interfaces
  enumeration : s.scope.enumeration = lastIndex? s.model.enumerations
  struct : s.scope.struct = lastIndex? s.model.structs
  callable : ∀ slot ∈ s.scope.callable, s.model.IsLast slot
  isSome_callable : s.scope.callable.isSome ↔ s.model.signatures ≠ []

theorem slotsValid_initial : initial.SlotsValid where
  unheaded _ := ⟨rfl, rfl⟩
  dll := by decide
  interface := rfl
  enumeration := rfl
  struct := rfl
  callable _ h := absurd h (Option.not_mem_none _)
  isSome_callable := by decide

section Step

variable {s : State} {e : Entry}

/-! ### One more entry -/

theorem isSome_header_add (h : s.Admits e) : (s.add e).model.header.isSome := by
  have hhas := has_add h .header
  rw [show (s.add e).model.header.isSome = (s.add e).has .header from rfl, hhas, Bool.or_eq_true,
    beq_iff_eq]
  exact h.has_header_or

theorem isSome_dll_add_iff (hs : s.scope.dll.isSome ↔ s.model.dlls ≠ []) :
    (s.add e).scope.dll.isSome ↔ (s.add e).model.dlls ≠ [] := by
  cases e with
  | dll name => exact iff_of_true rfl (Model.insertText_ne_nil _ _)
  | argument a =>
    simp only [add]
    split
    · exact hs
    · rename_i slot hslot
      cases slot <;> exact hs
  | _ =>
    simp only [add]
    try split
    all_goals exact hs

theorem interface_add (hs : s.scope.interface = lastIndex? s.model.interfaces) :
    (s.add e).scope.interface = lastIndex? (s.add e).model.interfaces := by
  cases e with
  | interface name group value base => exact (lastIndex?_append_singleton _ _).symm
  | argument a =>
    simp only [add]
    split
    · exact hs
    · rename_i slot hslot
      cases slot <;> simp [Model.addArgument, hs]
  | _ =>
    simp only [add]
    try split
    all_goals simp [hs, addHeader, addFunctionPointer, addDll, Model.addDll, addFunction, addMethod,
      Model.addMethod, addEnumeration, Model.addVariant, addStruct, Model.addField, addGuid]

theorem enumeration_add (hs : s.scope.enumeration = lastIndex? s.model.enumerations) :
    (s.add e).scope.enumeration = lastIndex? (s.add e).model.enumerations := by
  cases e with
  | enumeration name base flags => exact (lastIndex?_append_singleton _ _).symm
  | _ =>
    simp only [add]
    try split
    all_goals simp [hs, addHeader, addFunctionPointer, addDll, Model.addDll, addFunction,
      addInterface, addMethod, Model.addMethod, Model.addVariant, addStruct, Model.addField,
      addGuid]

theorem struct_add (hs : s.scope.struct = lastIndex? s.model.structs) :
    (s.add e).scope.struct = lastIndex? (s.add e).model.structs := by
  cases e with
  | struct name => exact (lastIndex?_append_singleton _ _).symm
  | _ =>
    simp only [add]
    try split
    all_goals simp [hs, addHeader, addFunctionPointer, addDll, Model.addDll, addFunction,
      addInterface, addMethod, Model.addMethod, addEnumeration, Model.addVariant, Model.addField,
      addGuid]

theorem callable_add (hs : s.SlotsValid) (h : s.Admits e) :
    ∀ slot ∈ (s.add e).scope.callable, (s.add e).model.IsLast slot := by
  intro slot hslot
  cases e with
  | functionPointer name returnType code =>
    cases hslot
    exact lastIndex?_append_singleton _ _
  | function name returnType convention =>
    obtain ⟨dll, hdll⟩ := Option.isSome_iff_exists.mp h.2
    simp only [add, hdll] at hslot ⊢
    cases hslot
    exact lastIndex?_append_singleton _ _
  | argument a =>
    obtain ⟨other, hother⟩ := Option.isSome_iff_exists.mp h.2
    simp only [add, hother] at hslot ⊢
    rw [Model.isLast_addArgument]
    exact hs.callable slot (Option.mem_def.mpr (hother.trans hslot))
  | interface name group value base => exact (hs.callable slot hslot).append_interface _
  | method name returnType =>
    obtain ⟨index, hindex⟩ := Option.isSome_iff_exists.mp h.2
    simp only [add, hindex] at hslot ⊢
    cases hslot
    -- The interface in the slot is the last one, so there is an interface to add the method to.
    exact Model.isLast_addMethod (lt_length_of_lastIndex? (hs.interface.symm.trans hindex)) _
  | _ =>
    simp only [add] at hslot ⊢
    try split at hslot
    all_goals exact hs.callable slot hslot

/-- Signatures come with entries that take the slot of callables. -/
theorem signatures_ne_nil_of_add (hopens : e.opens? ≠ some .callable)
    (h : (s.add e).model.signatures ≠ []) : s.model.signatures ≠ [] := by
  cases e with
  | functionPointer name returnType code => exact absurd rfl hopens
  | function name returnType convention => exact absurd rfl hopens
  | method name returnType => exact absurd rfl hopens
  | argument a =>
    simp only [add] at h
    split at h
    · exact h
    · exact Model.signatures_ne_nil_of_addArgument h
  | interface name group value base =>
    simpa [add, addInterface, Model.signatures] using h
  | _ =>
    simp only [add] at h
    try split at h
    all_goals exact h

/-- An entry that is read keeps the slots valid. -/
theorem SlotsValid.add (hs : s.SlotsValid) (h : s.Admits e) : (s.add e).SlotsValid where
  unheaded hnone := by
    have hsome := isSome_header_add h
    rw [hnone] at hsome
    cases hsome
  dll := isSome_dll_add_iff hs.dll
  interface := interface_add hs.interface
  enumeration := enumeration_add hs.enumeration
  struct := struct_add hs.struct
  callable := callable_add hs h
  isSome_callable := by
    constructor
    · intro hsome
      obtain ⟨slot, hslot⟩ := Option.isSome_iff_exists.mp hsome
      have hlast := callable_add hs h slot hslot
      obtain ⟨signature, hsignature⟩ := Option.isSome_iff_exists.mp hlast.isSome_signature?
      exact List.ne_nil_of_mem (Model.mem_signatures_of_signature? hsignature)
    · intro hsignatures
      have hhas := has_add h .callable
      rw [show (s.add e).scope.callable.isSome = (s.add e).has .callable from rfl, hhas,
        Bool.or_eq_true, beq_iff_eq]
      by_cases hopens : e.opens? = some .callable
      · exact .inr hopens
      · exact .inl (hs.isSome_callable.mpr (signatures_ne_nil_of_add hopens hsignatures))

end Step

/-! ### Accesses -/

/-- Every position in a slot lies within its list. -/
structure InBounds (s : State) : Prop where
  /-- Where an argument goes. -/
  callable : ∀ slot, s.scope.callable = some slot → (s.model.signature? slot).isSome
  /-- Where a method goes. -/
  interface : ∀ i, s.scope.interface = some i → i < s.model.interfaces.length
  /-- Where a variant goes. -/
  enumeration : ∀ i, s.scope.enumeration = some i → i < s.model.enumerations.length
  /-- Where a field goes. -/
  struct : ∀ i, s.scope.struct = some i → i < s.model.structs.length

theorem SlotsValid.inBounds {s : State} (hs : s.SlotsValid) : s.InBounds where
  callable slot hslot := (hs.callable slot hslot).isSome_signature?
  interface _ hi := lt_length_of_lastIndex? (hs.interface.symm.trans hi)
  enumeration _ hi := lt_length_of_lastIndex? (hs.enumeration.symm.trans hi)
  struct _ hi := lt_length_of_lastIndex? (hs.struct.symm.trans hi)

end State

/-- Slots stay valid through any items, accepted or refused. -/
theorem slotsValid_replay (items : List Item) {c : Session} (h : c.state.SlotsValid) :
    (replay items c).session.state.SlotsValid :=
  state_replay_induction (fun _ _ _ hs hread ↦ hs.add (State.read_eq_ok.mp hread).2) items h

theorem Visited.slotsValid {s : State} (h : Visited s) : s.SlotsValid :=
  h.induction State.slotsValid_initial fun _ _ _ hs hread ↦
    hs.add (State.read_eq_ok.mp hread).2

/-- **Slots are valid.** In every state that collections pass through, whether they succeed or fail,
each slot points where a slot of its kind should, and so no slot points outside its list. -/
theorem visited_slots_valid {s : State} (h : Visited s) : s.SlotsValid ∧ s.InBounds :=
  ⟨h.slotsValid, h.slotsValid.inBounds⟩

/-- A call that fails in its last line. The method in the slot belongs to an interface before the
one that an included file has declared. -/
def outlivedCall : Call :=
  .source (fun _ ↦ some "iface\tITwo\t1\t3\tIOne")
    ⟨"main", ["meta\tApi\t1.0.0.0", "iface\tIOne\t1\t2\tIUnknown", "meth\tRun\tvoid\t0",
      "include\ttwo", "field\tsize\tBYTE\t0"]⟩

theorem visited_slots_valid_behind_failure :
    (outlivedCall.perform Session.initial).success = false ∧
      (outlivedCall.perform Session.initial).session.state.scope
        = ⟨none, some (.method 0 0), some 1, none, none⟩ ∧
      Visited (outlivedCall.perform Session.initial).session.state ∧
      (outlivedCall.perform Session.initial).session.state.SlotsValid ∧
      (outlivedCall.perform Session.initial).session.state.InBounds := by
  have hfails : (outlivedCall.perform Session.initial).success = false := by decide
  have hscope : (outlivedCall.perform Session.initial).session.state.scope
      = ⟨none, some (.method 0 0), some 1, none, none⟩ := by decide
  have hvisited : Visited (outlivedCall.perform Session.initial).session.state :=
    (Reachable.call .initial outlivedCall).visited
  exact ⟨hfails, hscope, hvisited, visited_slots_valid hvisited⟩

end NativeApi

import NativeApi.Collection.Entry

/-!
# Changes at positions

A member is added to the element at one position of a list. What such a change keeps: the other
elements, whatever of the element itself the change does not concern, and all lists of the model
but one. So the names of declarations grow with declarations only (`State.enumerationNames_add` and
its siblings).
-/

namespace NativeApi

/-! ## Lists -/

section Modify

variable {α β : Type} {f g : α → α} {l : List α}

theorem modify_append_singleton (f : α → α) (l : List α) (a : α) :
    (l ++ [a]).modify l.length f = l ++ [f a] := by
  induction l with
  | nil => rfl
  | cons b l ih => rw [List.cons_append, List.length_cons, List.modify_succ_cons, ih]; rfl

/-- A change leaves alone what is appended, if it would not change it in any case. -/
theorem modify_append_of_eq {a : α} (h : f a = a) (i : Nat) :
    (l ++ [a]).modify i f = l.modify i f ++ [a] := by
  induction l generalizing i with
  | nil => cases i <;> simp [h]
  | cons b l ih =>
    cases i with
    | zero => rfl
    | succ i => rw [List.cons_append, List.modify_succ_cons, ih, List.modify_succ_cons]; rfl

/-- Only what a change does to the element at the position matters. -/
theorem modify_congr {i : Nat} (h : ∀ a, l[i]? = some a → f a = g a) :
    l.modify i f = l.modify i g := by
  induction l generalizing i with
  | nil => rw [List.modify_nil, List.modify_nil]
  | cons b l ih =>
    cases i with
    | zero => rw [List.modify_zero_cons, List.modify_zero_cons, h b rfl]
    | succ i => rw [List.modify_succ_cons, List.modify_succ_cons, ih h]

/-- A change of an element is a change of its image. -/
theorem map_modify (f : α → α) (g : β → β) (p : α → β) (h : ∀ a, p (f a) = g (p a)) (i : Nat) :
    (l.modify i f).map p = (l.map p).modify i g := by
  induction l generalizing i with
  | nil => rw [List.modify_nil, List.map_nil, List.modify_nil]
  | cons b l ih =>
    cases i with
    | zero => rw [List.modify_zero_cons, List.map_cons, h, List.map_cons, List.modify_zero_cons]
    | succ i =>
      rw [List.modify_succ_cons, List.map_cons, ih, List.map_cons, List.modify_succ_cons]

/-- What a change does not concern stays as it is in the whole list. -/
theorem map_modify_of_eq (f : α → α) (p : α → β) (h : ∀ a, p (f a) = p a) (i : Nat) :
    (l.modify i f).map p = l.map p := by
  rw [map_modify f id p h, List.modify_id]

/-- After a change, an element is one from before or the change of the one at the position. -/
theorem mem_modify_getElem? {a : α} {i : Nat} (h : a ∈ l.modify i f) :
    a ∈ l ∨ ∃ b, l[i]? = some b ∧ a = f b := by
  induction l generalizing i with
  | nil => rw [List.modify_nil] at h; exact absurd h List.not_mem_nil
  | cons b l ih =>
    cases i with
    | zero =>
      rw [List.modify_zero_cons, List.mem_cons] at h
      rcases h with rfl | h
      · exact .inr ⟨b, rfl, rfl⟩
      · exact .inl (List.mem_cons_of_mem b h)
    | succ i =>
      rw [List.modify_succ_cons, List.mem_cons] at h
      rcases h with rfl | h
      · exact .inl List.mem_cons_self
      · rcases ih h with h | ⟨c, hc, rfl⟩
        · exact .inl (List.mem_cons_of_mem b h)
        · exact .inr ⟨c, hc, rfl⟩

theorem mem_modify {a : α} {i : Nat} (h : a ∈ l.modify i f) : a ∈ l ∨ ∃ b ∈ l, a = f b := by
  rcases mem_modify_getElem? h with h | ⟨b, hb, rfl⟩
  · exact .inl h
  · exact .inr ⟨b, List.mem_of_getElem? hb, rfl⟩

theorem mem_map_modify {f : α → α} {g : β → β} {p : α → β} (h : ∀ a, p (f a) = g (p a)) {i : Nat}
    {b : β} (hb : b ∈ (l.modify i f).map p) : b ∈ l.map p ∨ ∃ c ∈ l.map p, b = g c := by
  rw [map_modify f g p h] at hb
  exact mem_modify hb

end Modify

/-! ## Models -/

namespace Model

variable (m : Model) (a : Argument) (slot : CallableSlot)

@[simp] theorem enumerations_addArgument :
    (m.addArgument a slot).enumerations = m.enumerations := by cases slot <;> rfl

@[simp] theorem structs_addArgument : (m.addArgument a slot).structs = m.structs := by
  cases slot <;> rfl

@[simp] theorem functionPointerNames_addArgument :
    (m.addArgument a slot).functionPointers.map (·.signature.name)
      = m.functionPointers.map (·.signature.name) := by
  cases slot with
  | functionPointer index =>
    exact map_modify_of_eq (FunctionPointer.addArgument a) (·.signature.name) (fun _ ↦ rfl) index
  | _ => rfl

@[simp] theorem enumerationNames_addVariant (index : Nat) (v : Variant) :
    (m.addVariant index v).enumerations.map (·.name) = m.enumerations.map (·.name) :=
  map_modify_of_eq (Enumeration.addVariant v) (·.name) (fun _ ↦ rfl) index

@[simp] theorem structNames_addField (index : Nat) (f : Field) :
    (m.addField index f).structs.map (·.name) = m.structs.map (·.name) :=
  map_modify_of_eq (Struct.addField f) (·.name) (fun _ ↦ rfl) index

end Model

/-! ## Names -/

namespace Entry

/-- The name of an enumeration, of a function pointer or of a struct, if the entry is one. -/
def enumerationName? : Entry → Option Text
  | enumeration name .. => some name
  | _ => none

@[inherit_doc enumerationName?]
def functionPointerName? : Entry → Option Text
  | functionPointer name .. => some name
  | _ => none

@[inherit_doc enumerationName?]
def structName? : Entry → Option Text
  | struct name => some name
  | _ => none

end Entry

namespace State

variable (s : State) (e : Entry)

theorem enumerationNames_add :
    (s.add e).model.enumerations.map (·.name)
      = s.model.enumerations.map (·.name) ++ e.enumerationName?.toList := by
  cases e with
  | enumeration name base flags => simp [add, addEnumeration, Entry.enumerationName?]
  | _ =>
    simp only [add]
    try split
    all_goals simp [Entry.enumerationName?, addHeader, addFunctionPointer, addDll, Model.addDll,
      addFunction, addInterface, addMethod, Model.addMethod, addStruct, Model.addField, addGuid]

theorem functionPointerNames_add :
    (s.add e).model.functionPointers.map (·.signature.name)
      = s.model.functionPointers.map (·.signature.name) ++ e.functionPointerName?.toList := by
  cases e with
  | functionPointer name returnType code =>
    simp [add, addFunctionPointer, Entry.functionPointerName?]
  | _ =>
    simp only [add]
    try split
    all_goals simp [Entry.functionPointerName?, addHeader, addDll, Model.addDll, addFunction,
      addInterface, addMethod, Model.addMethod, addEnumeration, Model.addVariant, addStruct,
      Model.addField, addGuid]

theorem structNames_add :
    (s.add e).model.structs.map (·.name)
      = s.model.structs.map (·.name) ++ e.structName?.toList := by
  cases e with
  | struct name => simp [add, addStruct, Entry.structName?]
  | _ =>
    simp only [add]
    try split
    all_goals simp [Entry.structName?, addHeader, addFunctionPointer, addDll, Model.addDll,
      addFunction, addInterface, addMethod, Model.addMethod, addEnumeration, Model.addVariant,
      addGuid]

end State

end NativeApi

import NativeApi.Proofs.Reachable

/-!
# What lines depend on

Every line but the header depends on the header, and some depend on one more earlier line: a
function on a library, an argument on something that takes arguments, and so on. A state keeps the
latest line of each kind in a slot. The slots are filled exactly when a line of the kind stands
before (`State.Run.has_iff`), so a slot says as much as the lines themselves.
-/

namespace NativeApi

/-! ## Kinds of lines -/

namespace Declaration

/-- The kind of lines that may depend on this one. -/
def opens? : Declaration → Option Context
  | header .. => some .header
  | functionPointer .. => some .callable
  | dll .. => some .dll
  | function .. => some .callable
  | argument .. => none
  | interface .. => some .interface
  | method .. => some .callable
  | standardMethod .. => some .callable
  | enumeration .. => some .enumeration
  | variant .. => none
  | struct .. => some .struct
  | field .. => none
  | guid .. => none

/-- The line, other than the header, that this one depends on. -/
def needs? : Declaration → Option Context
  | function .. => some .dll
  | argument .. => some .callable
  | method .. => some .interface
  | standardMethod .. => some .interface
  | variant .. => some .enumeration
  | field .. => some .struct
  | _ => none

end Declaration

namespace Entry

/-- The kind of entries that may depend on this one. -/
@[simp] def opens? : Entry → Option Context
  | header _ => some .header
  | functionPointer .. => some .callable
  | dll _ => some .dll
  | function .. => some .callable
  | argument _ => none
  | interface .. => some .interface
  | method .. => some .callable
  | enumeration .. => some .enumeration
  | variant _ => none
  | struct _ => some .struct
  | field _ => none
  | guid _ => none

/-- The entry, other than the header, that this one depends on. -/
def needs? : Entry → Option Context
  | function .. => some .dll
  | argument _ => some .callable
  | method .. => some .interface
  | variant _ => some .enumeration
  | field _ => some .struct
  | _ => none

end Entry

namespace Reads

variable {m : Model} {d : Declaration} {e : Entry}

theorem opens?_eq (h : Reads m d e) : e.opens? = d.opens? := by cases h <;> rfl

theorem needs?_eq (h : Reads m d e) : e.needs? = d.needs? := by cases h <;> rfl

end Reads

/-! ## Slots -/

namespace State

/-- Something of a kind has been declared. -/
def has (s : State) : Context → Bool
  | .header => s.model.header.isSome
  | .dll => s.scope.dll.isSome
  | .callable => s.scope.callable.isSome
  | .interface => s.scope.interface.isSome
  | .enumeration => s.scope.enumeration.isSome
  | .struct => s.scope.struct.isSome

@[simp] theorem has_initial (c : Context) : initial.has c = false := by cases c <;> rfl

variable {s : State} {e : Entry}

/-- What an entry depends on is there where the entry is admitted. -/
theorem Admits.has_of_needs? (h : s.Admits e) {c : Context} (hc : e.needs? = some c) :
    s.has c = true := by
  cases e with
  | function name returnType convention => cases hc; exact h.2
  | argument a => cases hc; exact h.2
  | method name returnType => cases hc; exact h.2
  | field f => cases hc; exact h.2
  | variant v =>
    obtain ⟨-, latest, hlatest, -⟩ := h
    obtain ⟨index, hindex, -⟩ := Option.bind_eq_some_iff.mp hlatest
    cases hc
    exact Option.isSome_of_eq_some hindex
  | _ => cases hc

/-- Where an entry is admitted, it is the header or there is one. -/
theorem Admits.has_header_or (h : s.Admits e) :
    s.has .header = true ∨ e.opens? = some .header := by
  cases e with
  | header new => exact .inr rfl
  | function name returnType convention => exact .inl h.1
  | argument a => exact .inl h.1
  | method name returnType => exact .inl h.1
  | enumeration name base flags => exact .inl h.1
  | variant v => exact .inl h.1
  | field f => exact .inl h.1
  | _ => exact .inl h

/-- An entry fills the slot of its own kind and leaves the others as they are. -/
theorem has_add (h : s.Admits e) (c : Context) :
    (s.add e).has c = (s.has c || e.opens? == some c) := by
  cases e with
  | function name returnType convention =>
    obtain ⟨dll, hdll⟩ := Option.isSome_iff_exists.mp h.2
    simp only [add, hdll]
    cases c <;> simp [has, addFunction]
  | method name returnType =>
    obtain ⟨index, hindex⟩ := Option.isSome_iff_exists.mp h.2
    simp only [add, hindex]
    cases c <;> simp [has, addMethod, Model.addMethod]
  | argument a =>
    obtain ⟨slot, hslot⟩ := Option.isSome_iff_exists.mp h.2
    simp only [add, hslot]
    cases slot <;> cases c <;> simp [has, Model.addArgument]
  | variant v =>
    simp only [add]
    split <;> cases c <;> simp [has, Model.addVariant]
  | field f =>
    simp only [add]
    split <;> cases c <;> simp [has, Model.addField]
  | _ => cases c <;> simp [has, add, addHeader, addFunctionPointer, addDll, Model.addDll,
      addInterface, addEnumeration, addStruct, addGuid]

variable {ds : List Declaration} {es : List Entry}

namespace Run

/-- A kind of entries has been declared behind a run if it was before, or an entry is of it. -/
theorem has_iff (h : s.Run ds es) (c : Context) :
    (s.addAll es).has c = true ↔ s.has c = true ∨ ∃ e ∈ es, e.opens? = some c := by
  induction h with
  | nil s => simp
  | cons hread t ih =>
    rw [addAll_cons, ih, has_add (read_eq_ok.mp hread).2, Bool.or_eq_true, beq_iff_eq, or_assoc]
    simp only [List.mem_cons, exists_eq_or_imp]

/-- The first so many declarations of a run. -/
theorem take (h : s.Run ds es) (i : Nat) : s.Run (ds.take i) (es.take i) := by
  induction h generalizing i with
  | nil s => rw [List.take_nil, List.take_nil]; exact .nil s
  | cons hread t ih =>
    cases i with
    | zero => exact .nil _
    | succ i => exact .cons hread (ih i)

end Run

/-- Each entry of a run stands behind one of the kind that it depends on. -/
theorem Run.exists_opens?_of_needs? (h : initial.Run ds es) {i : Nat} {e : Entry} {c : Context}
    (he : es[i]? = some e) (hc : e.needs? = some c) :
    ∃ o ∈ es.take i, o.opens? = some c := by
  have hi : i < ds.length := h.length_eq ▸ (List.getElem?_eq_some_iff.mp he).1
  have hread := h.read_eq (List.getElem?_eq_getElem hi) he
  have hhas := (read_eq_ok.mp hread).2.has_of_needs? hc
  -- The slot is filled where the entry is read, and only entries before it can have filled it.
  rw [(h.take i).has_iff, has_initial] at hhas
  exact hhas.resolve_left Bool.false_ne_true

end State

end NativeApi

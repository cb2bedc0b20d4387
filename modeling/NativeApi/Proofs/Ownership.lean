import NativeApi.Proofs.Dependence
import NativeApi.Proofs.Position

/-!
# Ownership

Arguments, methods, variants and fields are lines of their own and belong to the latest line that
can own them. `Model.ofEntries` says so on the list of entries: what belongs to an entry are the
members behind it, up to the next entry that could own them as well. Lines of other kinds between
them do not matter, so an argument behind the first line of an interface is still found behind the
method before it.

A state knows positions instead. What joins the two is the model that a state becomes with entries
to come, `State.complete`: the members up to the next owner go to the element in the slot, and
everything else is new. Adding an entry takes it from the entries to come to the state and changes
nothing else (`State.complete_add`), so the completion of the empty state by all entries is the
state in the end.
-/

namespace NativeApi

/-! ## Models from entries -/

namespace Entry

/-- The declarations that `f` picks, in order. It sees each entry with the entries behind it. -/
def gather {α : Type} (f : Entry → List Entry → Option α) : List Entry → List α
  | [] => []
  | e :: es => (f e es).toList ++ gather f es

@[simp] theorem gather_nil {α : Type} (f : Entry → List Entry → Option α) : gather f [] = [] := rfl

@[simp] theorem gather_cons {α : Type} (f : Entry → List Entry → Option α) (e : Entry)
    (es : List Entry) : gather f (e :: es) = (f e es).toList ++ gather f es := rfl

/-- The members that belong to what stands before a list of entries: those that `f` picks, up to
the next entry of the kind that owns such members. -/
def members {α : Type} (owner : Context) (f : Entry → List Entry → Option α) : List Entry → List α
  | [] => []
  | e :: es => if e.opens? = some owner then [] else (f e es).toList ++ members owner f es

/-! ### Members -/

@[simp] def argument? : Entry → List Entry → Option Argument
  | argument a, _ => some a
  | _, _ => none

def arguments (es : List Entry) : List Argument := members .callable argument? es

@[simp] theorem arguments_nil : arguments [] = [] := rfl

@[simp] theorem arguments_cons (e : Entry) (es : List Entry) :
    arguments (e :: es)
      = if e.opens? = some .callable then [] else (argument? e es).toList ++ arguments es := rfl

/-- A method, with the arguments behind it. They may stand behind the next interface. -/
@[simp] def method? : Entry → List Entry → Option Signature
  | method name returnType, es => some ⟨name, returnType, arguments es⟩
  | _, _ => none

def methods (es : List Entry) : List Signature := members .interface method? es

@[simp] theorem methods_nil : methods [] = [] := rfl

@[simp] theorem methods_cons (e : Entry) (es : List Entry) :
    methods (e :: es)
      = if e.opens? = some .interface then [] else (method? e es).toList ++ methods es := rfl

@[simp] def variant? : Entry → List Entry → Option Variant
  | variant v, _ => some v
  | _, _ => none

def variants (es : List Entry) : List Variant := members .enumeration variant? es

@[simp] theorem variants_nil : variants [] = [] := rfl

@[simp] theorem variants_cons (e : Entry) (es : List Entry) :
    variants (e :: es)
      = if e.opens? = some .enumeration then [] else (variant? e es).toList ++ variants es := rfl

@[simp] def field? : Entry → List Entry → Option Field
  | field f, _ => some f
  | _, _ => none

def fields (es : List Entry) : List Field := members .struct field? es

@[simp] theorem fields_nil : fields [] = [] := rfl

@[simp] theorem fields_cons (e : Entry) (es : List Entry) :
    fields (e :: es)
      = if e.opens? = some .struct then [] else (field? e es).toList ++ fields es := rfl

/-! ### Declarations with their members -/

@[simp] def functionPointer? : Entry → List Entry → Option FunctionPointer
  | functionPointer name returnType code, es => some ⟨⟨name, returnType, arguments es⟩, code⟩
  | _, _ => none

@[simp] def interface? : Entry → List Entry → Option Interface
  | interface name group value base, es => some ⟨name, group, value, base, methods es⟩
  | _, _ => none

@[simp] def enumeration? : Entry → List Entry → Option Enumeration
  | enumeration name base flags, es => some ⟨name, base, flags, variants es⟩
  | _, _ => none

@[simp] def struct? : Entry → List Entry → Option Struct
  | struct name, es => some ⟨name, fields es⟩
  | _, _ => none

/-- The functions, each with the arguments behind it and the library named last before it. -/
@[simp] def functions (dll : Text) : List Entry → List FreeFunction
  | [] => []
  | .dll name :: es => functions name es
  | .function name returnType convention :: es =>
    ⟨⟨name, returnType, arguments es⟩, dll, convention⟩ :: functions dll es
  | _ :: es => functions dll es

/-! ### Declarations without members -/

@[simp] def header? : Entry → List Entry → Option Header
  | header h, _ => some h
  | _, _ => none

@[simp] def guid? : Entry → List Entry → Option GuidConstant
  | guid c, _ => some c
  | _, _ => none

@[simp] def dll? : Entry → List Entry → Option Text
  | dll name, _ => some name
  | _, _ => none

/-- The libraries, with those in `start` before them. -/
def dlls (start : List Text) (es : List Entry) : List Text :=
  (gather dll? es).foldl (fun dlls name ↦ Model.insertText (Text.toLower name) dlls) start

end Entry

namespace Model

/-- The model that a list of entries declares. -/
def ofEntries (es : List Entry) : Model where
  header := (Entry.gather Entry.header? es).head?
  functions := Entry.functions [] es
  functionPointers := Entry.gather Entry.functionPointer? es
  interfaces := Entry.gather Entry.interface? es
  enumerations := Entry.gather Entry.enumeration? es
  structs := Entry.gather Entry.struct? es
  guids := Entry.gather Entry.guid? es
  dlls := Entry.dlls [] es

end Model

/-! ## Slots -/

section Attach

variable {α : Type}

/-- The change of the element in a slot; nothing changes if the slot is empty. -/
def attach (f : α → α) (l : List α) (slot : Option Nat) : List α := slot.elim l (l.modify · f)

@[simp] theorem attach_none (f : α → α) (l : List α) : attach f l none = l := rfl

@[simp] theorem attach_some (f : α → α) (l : List α) (i : Nat) :
    attach f l (some i) = l.modify i f := rfl

@[simp] theorem attach_id (l : List α) (slot : Option Nat) : attach id l slot = l := by
  cases slot with
  | none => rfl
  | some i => exact List.modify_id i l

end Attach

/-! ## Additions to one element

Several members are added to what owns them at once. None of them is the same as doing nothing, and
the first of them can be added on its own. -/

namespace Signature

def addArguments (as : List Argument) (s : Signature) : Signature :=
  { s with arguments := s.arguments ++ as }

@[simp] theorem addArguments_nil : addArguments [] = id := by
  funext s
  simp [addArguments]

theorem addArguments_cons (a : Argument) (as : List Argument) :
    addArguments (a :: as) = addArguments as ∘ addArgument a := by
  funext s
  simp [addArguments, addArgument]

end Signature

namespace FreeFunction

def addArguments (as : List Argument) (f : FreeFunction) : FreeFunction :=
  { f with signature := f.signature.addArguments as }

@[simp] theorem addArguments_nil : addArguments [] = id := by
  funext f
  simp [addArguments]

theorem addArguments_cons (a : Argument) (as : List Argument) :
    addArguments (a :: as) = addArguments as ∘ addArgument a := by
  funext f
  simp [addArguments, addArgument, Signature.addArguments_cons]

end FreeFunction

namespace FunctionPointer

def addArguments (as : List Argument) (p : FunctionPointer) : FunctionPointer :=
  { p with signature := p.signature.addArguments as }

@[simp] theorem addArguments_nil : addArguments [] = id := by
  funext p
  simp [addArguments]

theorem addArguments_cons (a : Argument) (as : List Argument) :
    addArguments (a :: as) = addArguments as ∘ addArgument a := by
  funext p
  simp [addArguments, addArgument, Signature.addArguments_cons]

end FunctionPointer

namespace Interface

def addMethods (ms : List Signature) (i : Interface) : Interface :=
  { i with methods := i.methods ++ ms }

/-- Adds arguments to the method at a position. -/
def addArguments (index : Nat) (as : List Argument) (i : Interface) : Interface :=
  { i with methods := i.methods.modify index (Signature.addArguments as) }

@[simp] theorem addMethods_nil : addMethods [] = id := by
  funext i
  simp [addMethods]

@[simp] theorem addArguments_nil (index : Nat) : addArguments index [] = id := by
  funext i
  simp [addArguments]

theorem addArguments_cons (index : Nat) (a : Argument) (as : List Argument) :
    addArguments index (a :: as) = addArguments index as ∘ addArgument index a := by
  funext i
  simp [addArguments, addArgument, Signature.addArguments_cons, List.modify_modify_eq]

/-- Arguments for a method that has just been added make it a method with these arguments. -/
theorem addArguments_addMethod (i : Interface) (s : Signature) (as : List Argument) :
    (i.addMethod s).addArguments i.methods.length as = i.addMethods [s.addArguments as] := by
  simp [addArguments, addMethod, addMethods, modify_append_singleton]

end Interface

namespace Enumeration

def addVariants (vs : List Variant) (e : Enumeration) : Enumeration :=
  { e with variants := e.variants ++ vs }

@[simp] theorem addVariants_nil : addVariants [] = id := by
  funext e
  simp [addVariants]

theorem addVariants_cons (v : Variant) (vs : List Variant) :
    addVariants (v :: vs) = addVariants vs ∘ addVariant v := by
  funext e
  simp [addVariants, addVariant]

end Enumeration

namespace Struct

def addFields (fs : List Field) (s : Struct) : Struct := { s with fields := s.fields ++ fs }

@[simp] theorem addFields_nil : addFields [] = id := by
  funext s
  simp [addFields]

theorem addFields_cons (f : Field) (fs : List Field) :
    addFields (f :: fs) = addFields fs ∘ addField f := by
  funext s
  simp [addFields, addField]

end Struct

/-! ## Completions -/

namespace CallableSlot

/-- The position of a function. -/
def function? : CallableSlot → Option Nat
  | function index => some index
  | _ => none

/-- The position of a function pointer. -/
def functionPointer? : CallableSlot → Option Nat
  | functionPointer index => some index
  | _ => none

end CallableSlot

/-- Interfaces with arguments added to the method in a slot. -/
def attachToMethod (as : List Argument) (is : List Interface) : Option CallableSlot → List Interface
  | some (.method interface index) => is.modify interface (Interface.addArguments index as)
  | _ => is

section AttachToMethod

variable (as : List Argument) (is : List Interface)

@[simp] theorem attachToMethod_function (index : Nat) :
    attachToMethod as is (some (.function index)) = is := rfl

@[simp] theorem attachToMethod_functionPointer (index : Nat) :
    attachToMethod as is (some (.functionPointer index)) = is := rfl

@[simp] theorem attachToMethod_method (interface index : Nat) :
    attachToMethod as is (some (.method interface index))
      = is.modify interface (Interface.addArguments index as) := rfl

@[simp] theorem attachToMethod_nil (slot : Option CallableSlot) :
    attachToMethod [] is slot = is := by
  rcases slot with _ | slot
  · rfl
  · cases slot <;> simp

@[simp] theorem length_attachToMethod (slot : Option CallableSlot) :
    (attachToMethod as is slot).length = is.length := by
  rcases slot with _ | slot
  · rfl
  · cases slot <;> simp

/-- A new interface has no method that arguments could go to. -/
theorem attachToMethod_append {i : Interface} (h : i.methods = []) (slot : Option CallableSlot) :
    attachToMethod as (is ++ [i]) slot = attachToMethod as is slot ++ [i] := by
  rcases slot with _ | slot
  · rfl
  · cases slot with
    | method interface index =>
      refine modify_append_of_eq ?_ interface
      obtain ⟨name, group, value, base, methods⟩ := i
      cases h
      rw [Interface.addArguments, List.modify_nil]
    | _ => rfl

end AttachToMethod

namespace State

/-- The model that a state becomes with entries to come. -/
def complete (s : State) (es : List Entry) : Model where
  header := s.model.header.or (Entry.gather Entry.header? es).head?
  functions :=
    attach (FreeFunction.addArguments (Entry.arguments es)) s.model.functions
        (s.scope.callable.bind CallableSlot.function?)
      ++ Entry.functions (s.scope.dll.getD []) es
  functionPointers :=
    attach (FunctionPointer.addArguments (Entry.arguments es)) s.model.functionPointers
        (s.scope.callable.bind CallableSlot.functionPointer?)
      ++ Entry.gather Entry.functionPointer? es
  interfaces :=
    attach (Interface.addMethods (Entry.methods es))
        (attachToMethod (Entry.arguments es) s.model.interfaces s.scope.callable)
        s.scope.interface
      ++ Entry.gather Entry.interface? es
  enumerations :=
    attach (Enumeration.addVariants (Entry.variants es)) s.model.enumerations s.scope.enumeration
      ++ Entry.gather Entry.enumeration? es
  structs :=
    attach (Struct.addFields (Entry.fields es)) s.model.structs s.scope.struct
      ++ Entry.gather Entry.struct? es
  guids := s.model.guids ++ Entry.gather Entry.guid? es
  dlls := Entry.dlls s.model.dlls es

theorem complete_nil (s : State) : s.complete [] = s.model := by
  simp [complete, Entry.dlls]

theorem complete_initial (es : List Entry) : initial.complete es = Model.ofEntries es := rfl

/-! ### Entries one by one -/

section Step

variable {s : State} (es : List Entry)

theorem complete_addHeader (hs : s.model.header = none) (h : Header) :
    (s.addHeader h).complete es = s.complete (.header h :: es) := by
  simp [complete, addHeader, hs, Entry.dlls]

theorem complete_addFunctionPointer (name : Text) (returnType : TypeReference) (code : UInt32) :
    (s.addFunctionPointer ⟨⟨name, returnType, []⟩, code⟩).complete es
      = s.complete (.functionPointer name returnType code :: es) := by
  simp [complete, addFunctionPointer, CallableSlot.functionPointer?, CallableSlot.function?,
    modify_append_singleton, FunctionPointer.addArguments, Signature.addArguments, Entry.dlls]

theorem complete_addDll (name : Text) :
    (s.addDll name).complete es = s.complete (.dll name :: es) := by
  simp [complete, addDll, Model.addDll, Entry.dlls]

theorem complete_addFunction {dll : Text} (hs : s.scope.dll = some dll) (name : Text)
    (returnType : TypeReference) (convention : Text) :
    (s.addFunction ⟨⟨name, returnType, []⟩, dll, convention⟩).complete es
      = s.complete (.function name returnType convention :: es) := by
  simp [complete, addFunction, hs, CallableSlot.functionPointer?, CallableSlot.function?,
    modify_append_singleton, FreeFunction.addArguments, Signature.addArguments, Entry.dlls]

theorem complete_addArgument {slot : CallableSlot} (hs : s.scope.callable = some slot)
    (a : Argument) :
    State.complete { s with model := s.model.addArgument a slot } es
      = s.complete (.argument a :: es) := by
  cases slot with
  | function index =>
    simp [complete, Model.addArgument, hs, CallableSlot.functionPointer?, CallableSlot.function?,
      FreeFunction.addArguments_cons, List.modify_modify_eq, Entry.dlls]
  | functionPointer index =>
    simp [complete, Model.addArgument, hs, CallableSlot.functionPointer?, CallableSlot.function?,
      FunctionPointer.addArguments_cons, List.modify_modify_eq, Entry.dlls]
  | method interface index =>
    simp [complete, Model.addArgument, hs, CallableSlot.functionPointer?, CallableSlot.function?,
      Interface.addArguments_cons, List.modify_modify_eq, Entry.dlls]

theorem complete_addInterface (name : Text) (group value : UInt8) (base : TypeReference) :
    (s.addInterface ⟨name, group, value, base, []⟩).complete es
      = s.complete (.interface name group value base :: es) := by
  -- The slot may point into any interface before the new one, but never into the new one.
  have hnew := attachToMethod_append (Entry.arguments es) s.model.interfaces
    (i := ⟨name, group, value, base, []⟩) rfl s.scope.callable
  have hlength := length_attachToMethod (Entry.arguments es) s.model.interfaces s.scope.callable
  have hmodify := modify_append_singleton (Interface.addMethods (Entry.methods es))
    (attachToMethod (Entry.arguments es) s.model.interfaces s.scope.callable)
    ⟨name, group, value, base, []⟩
  rw [hlength] at hmodify
  simp [complete, addInterface, hnew, hmodify, Interface.addMethods, Entry.dlls]

/-- Arguments added to a new method, and methods added behind it, are the method with these
arguments and the methods behind it, added at once. -/
theorem interfaces_addMethod (m : Model) (index : Nat) (name : Text) (returnType : TypeReference) :
    ((m.addMethod index ⟨name, returnType, []⟩).interfaces.modify index
        (Interface.addArguments (m.methodCount index) (Entry.arguments es))).modify index
        (Interface.addMethods (Entry.methods es))
      = m.interfaces.modify index
          (Interface.addMethods (⟨name, returnType, Entry.arguments es⟩ :: Entry.methods es)) := by
  rw [Model.addMethod, List.modify_modify_eq, List.modify_modify_eq]
  refine modify_congr fun i hi ↦ ?_
  -- The slot of the new method is the number of methods before it.
  have hcount : m.methodCount index = i.methods.length := by
    rw [Model.methodCount, hi, Option.map_some, Option.getD_some]
  rw [Function.comp_apply, Function.comp_apply, hcount, Interface.addArguments_addMethod]
  simp [Interface.addMethods, Signature.addArguments]

theorem complete_addMethod {index : Nat} (hs : s.scope.interface = some index) (name : Text)
    (returnType : TypeReference) :
    (s.addMethod index ⟨name, returnType, []⟩).complete es
      = s.complete (.method name returnType :: es) := by
  have hmethod := interfaces_addMethod es s.model index name returnType
  simp only [complete, addMethod, hs, attach_some, attachToMethod_method, hmethod]
  simp [Model.addMethod, CallableSlot.functionPointer?, CallableSlot.function?, Entry.dlls]

theorem complete_addEnumeration (name : Text) (base : TypeReference) (flags : Bool) :
    (s.addEnumeration ⟨name, base, flags, []⟩).complete es
      = s.complete (.enumeration name base flags :: es) := by
  simp [complete, addEnumeration, modify_append_singleton, Enumeration.addVariants, Entry.dlls]

theorem complete_addVariant {index : Nat} (hs : s.scope.enumeration = some index) (v : Variant) :
    State.complete { s with model := s.model.addVariant index v } es
      = s.complete (.variant v :: es) := by
  simp [complete, Model.addVariant, hs, Enumeration.addVariants_cons, List.modify_modify_eq,
    Entry.dlls]

theorem complete_addStruct (name : Text) :
    (s.addStruct ⟨name, []⟩).complete es = s.complete (.struct name :: es) := by
  simp [complete, addStruct, modify_append_singleton, Struct.addFields, Entry.dlls]

theorem complete_addField {index : Nat} (hs : s.scope.struct = some index) (f : Field) :
    State.complete { s with model := s.model.addField index f } es
      = s.complete (.field f :: es) := by
  simp [complete, Model.addField, hs, Struct.addFields_cons, List.modify_modify_eq, Entry.dlls]

theorem complete_addGuid (c : GuidConstant) :
    (s.addGuid c).complete es = s.complete (.guid c :: es) := by
  simp [complete, addGuid, Entry.dlls]

end Step

/-- An entry may be added to the state or be left among the entries to come. -/
theorem complete_add {s : State} {e : Entry} (h : s.Admits e) (es : List Entry) :
    (s.add e).complete es = s.complete (e :: es) := by
  cases e with
  | header new => exact complete_addHeader es h new
  | functionPointer name returnType code =>
    exact complete_addFunctionPointer es name returnType code
  | dll name => exact complete_addDll es name
  | function name returnType convention =>
    obtain ⟨dll, hdll⟩ := Option.isSome_iff_exists.mp (h.has_of_needs? rfl)
    simp only [add, hdll]
    exact complete_addFunction es hdll name returnType convention
  | argument a =>
    obtain ⟨slot, hslot⟩ := Option.isSome_iff_exists.mp (h.has_of_needs? rfl)
    simp only [add, hslot]
    exact complete_addArgument es hslot a
  | interface name group value base => exact complete_addInterface es name group value base
  | method name returnType =>
    obtain ⟨index, hindex⟩ := Option.isSome_iff_exists.mp (h.has_of_needs? rfl)
    simp only [add, hindex]
    exact complete_addMethod es hindex name returnType
  | enumeration name base flags => exact complete_addEnumeration es name base flags
  | variant v =>
    obtain ⟨index, hindex⟩ := Option.isSome_iff_exists.mp (h.has_of_needs? rfl)
    simp only [add, hindex]
    exact complete_addVariant es hindex v
  | struct name => exact complete_addStruct es name
  | field f =>
    obtain ⟨index, hindex⟩ := Option.isSome_iff_exists.mp (h.has_of_needs? rfl)
    simp only [add, hindex]
    exact complete_addField es hindex f
  | guid c => exact complete_addGuid es c

namespace Run

variable {s : State} {ds : List Declaration} {es : List Entry}

/-- A run adds to a state what its entries complete it by. -/
theorem model_addAll (h : s.Run ds es) : (s.addAll es).model = s.complete es := by
  induction h with
  | nil s => exact s.complete_nil.symm
  | cons hread t ih => rw [addAll_cons, ih, complete_add (read_eq_ok.mp hread).2]

/-- A run from the empty state makes the model that its entries declare. -/
theorem model_eq_ofEntries (h : initial.Run ds es) :
    (initial.addAll es).model = Model.ofEntries es := by
  rw [h.model_addAll, complete_initial]

end Run

end State

/-! ## Successful collections -/

/-- **Members belong to the latest owner.** If all calls on a fresh session succeed, their
declarations in expanded order are read as entries, each with the types that the model of the
entries before it knows. Every entry that needs an owner has one before it, and the model is the
one in which each member belongs to the latest. -/
theorem members_belong_to_latest (calls : List Call)
    (h : (performAll calls Session.initial).success = true) :
    ∃ es : List Entry,
      es.length = (declarationsOf (calls.flatMap Call.items)).length ∧
        (∀ i d e, (declarationsOf (calls.flatMap Call.items))[i]? = some d → es[i]? = some e →
          Reads (Model.ofEntries (es.take i)) d e) ∧
        (∀ i e c, es[i]? = some e → e.needs? = some c → ∃ o ∈ es.take i, o.opens? = some c) ∧
        (performAll calls Session.initial).session.state.model = Model.ofEntries es := by
  rw [performAll_eq_replay] at h ⊢
  obtain ⟨es, hrun, hstate⟩ := run_of_success_replay h
  have hrun : State.initial.Run _ es := hrun
  refine ⟨es, hrun.length_eq, fun i d e hd he ↦ ?_, fun i e c he hc ↦ ?_, ?_⟩
  · have hread := (State.read_eq_ok.mp (hrun.read_eq hd he)).1
    -- The first entries are those of a run as well, so their model is the one read in.
    rwa [(hrun.take i).model_eq_ofEntries] at hread
  · exact hrun.exists_opens?_of_needs? he hc
  · rw [hstate]
    exact hrun.model_eq_ofEntries

/-- Two calls on one session. The argument belongs to a method of the interface before the latest
one, its type comes from an included file, and the variant belongs to an enumeration of the first
call. -/
def callsAcrossFiles : List Call :=
  [.source (fun _ ↦ some "enum\tMode\tUINT32")
    ⟨"api/main", ["meta\tApi\t1.0.0.0", "dll\ta.dll", "iface\tIOne\t1\t2\tIUnknown",
      "meth\tRun\tvoid\t0", "iface\tITwo\t1\t3\tIOne", "include\tmode",
      "arg\tin\tmode\tMode\t0"]⟩,
    .source (fun _ ↦ none) ⟨"rest", ["variant\tFast\t1", "fn\tStart\tMode\t0\tcdecl"]⟩]

theorem members_belong_to_latest_across_files :
    (performAll callsAcrossFiles Session.initial).success = true ∧
      ∃ es : List Entry,
        es.length = (declarationsOf (callsAcrossFiles.flatMap Call.items)).length ∧
          (∀ i d e, (declarationsOf (callsAcrossFiles.flatMap Call.items))[i]? = some d →
            es[i]? = some e → Reads (Model.ofEntries (es.take i)) d e) ∧
          (∀ i e c, es[i]? = some e → e.needs? = some c → ∃ o ∈ es.take i, o.opens? = some c) ∧
          (performAll callsAcrossFiles Session.initial).session.state.model
            = Model.ofEntries es := by
  have hsuccess : (performAll callsAcrossFiles Session.initial).success = true := by
    decide +kernel
  exact ⟨hsuccess, members_belong_to_latest callsAcrossFiles hsuccess⟩

end NativeApi

import NativeApi.Collection.State

/-!
# Entries

An entry is what one declaration adds to a model, once its operands have been read: numbers are
numbers, and mentioned types are resolved. What an entry belongs to is not part of it. The library
of a function, the function of an argument, the interface of a method and so on are the latest ones
declared, and `State.add` takes them from the scope.

An entry has no members. Those of a function or of an interface come as entries of their own.
-/

namespace NativeApi

/-- What a declaration adds. -/
inductive Entry
  | header (h : Header)
  | functionPointer (name : Text) (returnType : TypeReference) (code : UInt32)
  | dll (name : Text)
  | function (name : Text) (returnType : TypeReference) (convention : Text)
  | argument (a : Argument)
  | interface (name : Text) (group value : UInt8) (base : TypeReference)
  | method (name : Text) (returnType : TypeReference)
  | enumeration (name : Text) (base : TypeReference) (flags : Bool)
  | variant (v : Variant)
  | struct (name : Text)
  | field (f : Field)
  | guid (c : GuidConstant)
  deriving DecidableEq, Repr

namespace State

/-! ## Additions to states -/

def addHeader (s : State) (h : Header) : State :=
  { s with model := { s.model with header := some h } }

def addFunctionPointer (s : State) (p : FunctionPointer) : State where
  model := { s.model with functionPointers := s.model.functionPointers ++ [p] }
  scope := { s.scope with callable := some (.functionPointer s.model.functionPointers.length) }

/-- Imports a library and makes it the latest one, under its name as written. -/
def addDll (s : State) (name : Text) : State where
  model := s.model.addDll (Text.toLower name)
  scope := { s.scope with dll := some name }

def addFunction (s : State) (f : FreeFunction) : State where
  model := { s.model with functions := s.model.functions ++ [f] }
  scope := { s.scope with callable := some (.function s.model.functions.length) }

def addInterface (s : State) (i : Interface) : State where
  model := { s.model with interfaces := s.model.interfaces ++ [i] }
  scope := { s.scope with interface := some s.model.interfaces.length }

/-- Adds a method to the interface at a position and makes it the latest callable. -/
def addMethod (s : State) (interface : Nat) (method : Signature) : State where
  model := s.model.addMethod interface method
  scope := { s.scope with callable := some (.method interface (s.model.methodCount interface)) }

def addEnumeration (s : State) (e : Enumeration) : State where
  model := { s.model with enumerations := s.model.enumerations ++ [e] }
  scope := { s.scope with enumeration := some s.model.enumerations.length }

def addStruct (s : State) (d : Struct) : State where
  model := { s.model with structs := s.model.structs ++ [d] }
  scope := { s.scope with struct := some s.model.structs.length }

def addGuid (s : State) (c : GuidConstant) : State :=
  { s with model := { s.model with guids := s.model.guids ++ [c] } }

/-- The state after an entry. An entry that lacks what it belongs to changes nothing; no
declaration reads as such an entry. -/
def add (s : State) : Entry → State
  | .header h => s.addHeader h
  | .functionPointer name returnType code => s.addFunctionPointer ⟨⟨name, returnType, []⟩, code⟩
  | .dll name => s.addDll name
  | .function name returnType convention =>
    match s.scope.dll with
    | none => s
    | some dll => s.addFunction ⟨⟨name, returnType, []⟩, dll, convention⟩
  | .argument a =>
    match s.scope.callable with
    | none => s
    | some slot => { s with model := s.model.addArgument a slot }
  | .interface name group value base => s.addInterface ⟨name, group, value, base, []⟩
  | .method name returnType =>
    match s.scope.interface with
    | none => s
    | some index => s.addMethod index ⟨name, returnType, []⟩
  | .enumeration name base flags => s.addEnumeration ⟨name, base, flags, []⟩
  | .variant v =>
    match s.scope.enumeration with
    | none => s
    | some index => { s with model := s.model.addVariant index v }
  | .struct name => s.addStruct ⟨name, []⟩
  | .field f =>
    match s.scope.struct with
    | none => s
    | some index => { s with model := s.model.addField index f }
  | .guid c => s.addGuid c

end State

end NativeApi

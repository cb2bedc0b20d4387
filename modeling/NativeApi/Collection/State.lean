import NativeApi.Model.IlType

/-!
# Collection states

Definition files are read from the top to the bottom, and a line may depend on the lines before
it: an argument belongs to the function, function pointer or method declared last, a method to the
last interface, and so on. A state is the model so far together with these latest declarations,
kept as positions in the model's lists. The five slots change independently of each other, so an
argument that follows the first line of an interface still belongs to the method before it.
-/

namespace NativeApi

/-- A position of something that takes arguments. -/
inductive CallableSlot
  | function (index : Nat)
  | functionPointer (index : Nat)
  | method (interface index : Nat)
  deriving DecidableEq, Repr

/-- The latest declaration of each kind that other lines refer to. -/
structure Scope where
  dll : Option Text
  callable : Option CallableSlot
  interface : Option Nat
  enumeration : Option Nat
  struct : Option Nat
  deriving DecidableEq, Repr

namespace Scope

def empty : Scope := ⟨none, none, none, none, none⟩

end Scope

/-- A model with the scope of the lines to come. -/
structure State where
  model : Model
  scope : Scope
  deriving DecidableEq, Repr

namespace State

/-- Nothing is declared. -/
def initial : State := ⟨Model.empty, Scope.empty⟩

end State

/-! ## Additions to declarations -/

namespace Signature

def addArgument (a : Argument) (s : Signature) : Signature :=
  { s with arguments := s.arguments ++ [a] }

end Signature

namespace FreeFunction

def addArgument (a : Argument) (f : FreeFunction) : FreeFunction :=
  { f with signature := f.signature.addArgument a }

end FreeFunction

namespace FunctionPointer

def addArgument (a : Argument) (p : FunctionPointer) : FunctionPointer :=
  { p with signature := p.signature.addArgument a }

end FunctionPointer

namespace Interface

def addMethod (s : Signature) (i : Interface) : Interface :=
  { i with methods := i.methods ++ [s] }

/-- Adds an argument to the method at a position. -/
def addArgument (index : Nat) (a : Argument) (i : Interface) : Interface :=
  { i with methods := i.methods.modify index (Signature.addArgument a) }

end Interface

namespace Enumeration

def addVariant (v : Variant) (e : Enumeration) : Enumeration :=
  { e with variants := e.variants ++ [v] }

end Enumeration

namespace Struct

def addField (f : Field) (s : Struct) : Struct :=
  { s with fields := s.fields ++ [f] }

end Struct

/-! ## Additions to models

Each of these changes the element at one position of one list, and nothing if there is none. -/

namespace Model

/-- Adds an argument to the signature in a slot. -/
def addArgument (m : Model) (a : Argument) : CallableSlot → Model
  | .function index =>
    { m with functions := m.functions.modify index (FreeFunction.addArgument a) }
  | .functionPointer index =>
    { m with functionPointers := m.functionPointers.modify index (FunctionPointer.addArgument a) }
  | .method interface index =>
    { m with interfaces := m.interfaces.modify interface (Interface.addArgument index a) }

/-- Adds a method to the interface at a position. -/
def addMethod (m : Model) (interface : Nat) (s : Signature) : Model :=
  { m with interfaces := m.interfaces.modify interface (Interface.addMethod s) }

/-- Adds a variant to the enumeration at a position. -/
def addVariant (m : Model) (enumeration : Nat) (v : Variant) : Model :=
  { m with enumerations := m.enumerations.modify enumeration (Enumeration.addVariant v) }

/-- Adds a field to the struct at a position. -/
def addField (m : Model) (struct : Nat) (f : Field) : Model :=
  { m with structs := m.structs.modify struct (Struct.addField f) }

/-- The number of methods of the interface at a position. -/
def methodCount (m : Model) (interface : Nat) : Nat :=
  (m.interfaces[interface]?.map (·.methods.length)).getD 0

end Model

end NativeApi

import NativeApi.Guid

/-!
# The model

A model is what a set of definition files declares: types, functions and constants in the order
of their declaration, and the libraries that functions are imported from. The model is data only;
which models a definition file can produce is a matter of `NativeApi.Collection`.

Names are looked up in the lists themselves, and the first declaration of a name counts.
-/

namespace NativeApi

/-! ## Types and signatures -/

/-- A mention of a type: its name and how often `*` follows it. An integer that stands for a value
of an enumeration also remembers the enumeration. -/
structure TypeReference where
  name : Text
  depth : Nat
  backingEnum : Option Text
  deriving DecidableEq, Repr

namespace TypeReference

/-- The type of a given name, without pointers. -/
def named (name : Text) : TypeReference := ⟨name, 0, none⟩

end TypeReference

/-- Which way an argument passes data. -/
inductive Direction
  | input
  | output
  | both
  deriving DecidableEq, Repr

namespace Direction

def passesIn : Direction → Bool
  | input => true
  | output => false
  | both => true

def passesOut : Direction → Bool
  | input => false
  | output => true
  | both => true

end Direction

/-- The length of an array argument: the value of another argument, or a constant. -/
inductive ArraySize
  | inArgument (index : Nat)
  | constant (count : Nat)
  deriving DecidableEq, Repr

structure Argument where
  name : Text
  type : TypeReference
  direction : Direction
  optional : Bool
  const : Bool
  comOut : Bool
  size : Option ArraySize
  deriving DecidableEq, Repr

namespace Argument

/-- An argument with nothing said about it but its name, type and direction. -/
def plain (name : Text) (type : TypeReference) (direction : Direction) (optional : Bool) :
    Argument :=
  ⟨name, type, direction, optional, false, false, none⟩

/-- Some custom attribute is attached to the argument. -/
def hasPayload (a : Argument) : Bool :=
  a.const || a.comOut || a.size.isSome || a.type.backingEnum.isSome

end Argument

/-- What free functions, function pointers and methods have in common. -/
structure Signature where
  name : Text
  returnType : TypeReference
  arguments : List Argument
  deriving DecidableEq, Repr

/-! ## Declarations -/

structure Header where
  name : Text
  version : Text
  deriving DecidableEq, Repr

structure FreeFunction where
  signature : Signature
  dll : Text
  convention : Text
  deriving DecidableEq, Repr

/-- The calling convention of a function pointer is a number; 1 is the platform's own. -/
structure FunctionPointer where
  signature : Signature
  code : UInt32
  deriving DecidableEq, Repr

structure Interface where
  name : Text
  group : UInt8
  value : UInt8
  base : TypeReference
  methods : List Signature
  deriving DecidableEq, Repr

structure Variant where
  name : Text
  value : IntegerLiteral
  deriving DecidableEq, Repr

structure Enumeration where
  name : Text
  base : TypeReference
  flags : Bool
  variants : List Variant
  deriving DecidableEq, Repr

structure Field where
  name : Text
  type : TypeReference
  deriving DecidableEq, Repr

structure Struct where
  name : Text
  fields : List Field
  deriving DecidableEq, Repr

/-- A constant with a GUID as its value, and the text that the comment beside it shows. -/
structure GuidConstant where
  name : Text
  guid : Guid
  display : Text
  deriving DecidableEq, Repr

structure Model where
  header : Option Header
  functions : List FreeFunction
  functionPointers : List FunctionPointer
  interfaces : List Interface
  enumerations : List Enumeration
  structs : List Struct
  guids : List GuidConstant
  /-- The imported libraries, without repetition and in byte order. -/
  dlls : List Text
  deriving DecidableEq, Repr

namespace Enumeration

def hasVariant (e : Enumeration) (name : Text) : Bool := e.variants.any (·.name == name)

end Enumeration

namespace Model

/-- The model before any declaration. -/
def empty : Model := ⟨none, [], [], [], [], [], [], []⟩

/-- The name in the header, empty without a header. -/
def name (m : Model) : Text := (m.header.map Header.name).getD []

def findEnumeration? (m : Model) (name : Text) : Option Enumeration :=
  m.enumerations.find? (·.name == name)

/-- Adds a text to a list in strictly increasing byte order, unless it is there. -/
def insertText (t : Text) : List Text → List Text
  | [] => [t]
  | u :: rest =>
    if t < u then t :: u :: rest else if t = u then u :: rest else u :: insertText t rest

/-- Imports a library. -/
def addDll (m : Model) (dll : Text) : Model := { m with dlls := insertText dll m.dlls }

end Model

end NativeApi

import NativeApi.Collection.AttributeWord
import NativeApi.Collection.Entry
import NativeApi.Command.Statement

/-!
# Declarations

A declaration is read first and then added. `State.read` makes an entry of it or gives the fault
that refuses it, and looks at the state without changing it; `State.add` changes the state and
refuses nothing. So a refused declaration cannot leave half of itself behind.

Every declaration but the header needs a header before it. What else a declaration asks for is
checked in the order in which the functions below state it: first the declarations that it depends
on, then its operands, and the first check that fails gives the fault.
-/

namespace NativeApi

/-! ## Operands -/

/-- A declaration that the line depends on. -/
def requireContext {α : Type} (keyword : Keyword) (context : Context) :
    Option α → Except Fault α
  | some a => .ok a
  | none => .error (.missingContext keyword context)

/-- Reads a number. -/
def readQuantity (quantity : Quantity) (t : Text) : Except Fault Int :=
  match Text.signed? t with
  | some n => .ok n
  | none => .error (.notInteger quantity t)

/-- A number that must lie between zero and a bound. -/
def boundQuantity (quantity : Quantity) (bound : Nat) (n : Int) : Except Fault Nat :=
  if 0 ≤ n ∧ n < bound then .ok n.toNat else .error (.range quantity n)

/-- Numbers of 32 bits lie below `2 ^ 32`. -/
def word32Bound : Nat := 0x100000000

/-- Reads how many levels of indirection a type has: a 32-bit number. -/
def readDepth (t : Text) : Except Fault Nat := do
  boundQuantity .depth word32Bound (← readQuantity .depth t)

/-- Reads the code of a calling convention, a 32-bit number; by default it is the platform's. -/
def readCode : Option Text → Except Fault UInt32
  | none => .ok 1
  | some t => do
    let code ← boundQuantity .conventionCode word32Bound (← readQuantity .conventionCode t)
    return UInt32.ofNat code

/-- The names of calling conventions. -/
def conventions : List Text := ["winapi", "cdecl", "stdcall", "thiscall", "fastcall"]

/-- Reads the name of a calling convention; by default it is the platform's. -/
def readConvention : Option Text → Except Fault Text
  | none => .ok "winapi"
  | some t => if t ∈ conventions then .ok t else .error (.unknownConvention t)

/-- Reads a direction. -/
def readDirection (t : Text) : Except Fault Direction :=
  if t = "in" then .ok .input
  else if t = "out" then .ok .output
  else if t = "inout" then .ok .both
  else .error (.unknownDirection t)

namespace State

def requireHeader (s : State) (keyword : Keyword) : Except Fault Header :=
  requireContext keyword .header s.model.header

/-- A mention of a type in the present state. -/
def reference (s : State) (name : Text) (depth : Nat) : TypeReference :=
  s.model.enrich ⟨name, depth, none⟩

/-! ## Reading declarations -/

def readHeader (s : State) (name version : Text) : Except Fault Entry :=
  match s.model.header with
  | some h => .error (.duplicateHeader h.name)
  | none => .ok (.header ⟨name, version⟩)

def readFunctionPointer (s : State) (name returnType returnDepth : Text)
    (code : Option Text) : Except Fault Entry := do
  let _ ← s.requireHeader .functionPointer
  let depth ← readDepth returnDepth
  let code ← readCode code
  return .functionPointer name (s.reference returnType depth) code

def readDll (s : State) (name : Text) : Except Fault Entry := do
  let _ ← s.requireHeader .dll
  return .dll name

def readFunction (s : State) (name returnType returnDepth : Text)
    (convention : Option Text) : Except Fault Entry := do
  let _ ← s.requireHeader .function
  let _ ← requireContext .function .dll s.scope.dll
  let depth ← readDepth returnDepth
  let convention ← readConvention convention
  return .function name (s.reference returnType depth) convention

def readArgument (s : State) (keyword : Keyword) (optional : Bool)
    (direction name type depth attributes : Text) : Except Fault Entry := do
  let _ ← s.requireHeader keyword
  let _ ← requireContext keyword .callable s.scope.callable
  let direction ← readDirection direction
  let depth ← readDepth depth
  let argument ← (Argument.plain name (s.reference type depth) direction optional).applyWords
    attributes
  return .argument argument

def readInterface (s : State) (name group value base : Text) : Except Fault Entry := do
  let _ ← s.requireHeader .interface
  let group ← readQuantity .group group
  let value ← readQuantity .value value
  let group ← boundQuantity .group 256 group
  let value ← boundQuantity .value 256 value
  return .interface name (UInt8.ofNat group) (UInt8.ofNat value) (TypeReference.named base)

def readMethod (s : State) (name returnType returnDepth : Text) : Except Fault Entry := do
  let _ ← s.requireHeader .method
  let _ ← requireContext .method .interface s.scope.interface
  let depth ← readDepth returnDepth
  return .method name (s.reference returnType depth)

/-- A standard method returns a result code, whatever enumerations there are. -/
def readStandardMethod (s : State) (name : Text) : Except Fault Entry := do
  let _ ← s.requireHeader .standardMethod
  let _ ← requireContext .standardMethod .interface s.scope.interface
  return .method name (TypeReference.named "HRESULT")

def readEnumeration (s : State) (keyword : Keyword) (flags : Bool) (name base : Text) :
    Except Fault Entry := do
  let _ ← s.requireHeader keyword
  if (s.model.findEnumeration? name).isSome then
    .error (.duplicateEnumeration name)
  else
    .ok (.enumeration name (TypeReference.named base) flags)

/-- Reads the value of a variant and checks that the base type of the enumeration can hold it. A
base type that is no integer type of fixed width can hold every literal. -/
def readVariantOf (s : State) (e : Enumeration) (name value : Text) : Except Fault Variant :=
  if e.hasVariant name then .error (.duplicateVariant name e.name)
  else
    match IntegerLiteral.ofText? value with
    | none => .error (.notVariantValue value)
    | some literal =>
      let il := s.model.ilType e.base
      match IntegerRange.ofIlType? il with
      | none => .ok ⟨name, literal⟩
      | some range =>
        if range.contains literal then .ok ⟨name, literal⟩
        else .error (.variantRange name value il)

def readVariant (s : State) (name value : Text) : Except Fault Entry := do
  let _ ← s.requireHeader .variant
  let index ← requireContext .variant .enumeration s.scope.enumeration
  let enumeration ← requireContext .variant .enumeration s.model.enumerations[index]?
  let variant ← s.readVariantOf enumeration name value
  return .variant variant

def readStruct (s : State) (name : Text) : Except Fault Entry := do
  let _ ← s.requireHeader .struct
  return .struct name

def readField (s : State) (name type depth : Text) : Except Fault Entry := do
  let _ ← s.requireHeader .field
  let _ ← requireContext .field .struct s.scope.struct
  let depth ← readDepth depth
  return .field ⟨name, s.reference type depth⟩

def readGuid (s : State) (name value : Text) : Except Fault Entry := do
  let _ ← s.requireHeader .guid
  match Guid.ofText? value with
  | none => .error (.invalidGuid value)
  | some guid => .ok (.guid ⟨name, guid, guid.text⟩)

/-- The entry that a declaration makes. -/
def read (s : State) (d : Declaration) : Except Fault Entry :=
  match d with
  | .header name version => s.readHeader name version
  | .functionPointer name type depth code => s.readFunctionPointer name type depth code
  | .dll name => s.readDll name
  | .function name type depth convention => s.readFunction name type depth convention
  | .argument optional direction name type depth attributes =>
    s.readArgument d.keyword optional direction name type depth attributes
  | .interface name group value base => s.readInterface name group value base
  | .method name type depth => s.readMethod name type depth
  | .standardMethod name => s.readStandardMethod name
  | .enumeration flags name base => s.readEnumeration d.keyword flags name base
  | .variant name value => s.readVariant name value
  | .struct name => s.readStruct name
  | .field name type depth => s.readField name type depth
  | .guid name value => s.readGuid name value

/-- The effect of a declaration. -/
def declare (s : State) (d : Declaration) : Except Fault State := (s.read d).map s.add

end State

end NativeApi

import NativeApi.Model.Basic

/-!
# Resolution of type names

A type name in a definition file stands for a type of the assembly language. Well-known names have
a fixed meaning. Of the others, names of COM interfaces and of function pointers are classes of
this assembly, names of structs are its value types, and all that is left is taken verbatim, so
that a definition file may use the assembly language's own types.

The name of an enumeration is not resolved but replaced: `Model.enrich` turns a mention of an
enumeration into a mention of its base type that remembers the enumeration.
-/

namespace NativeApi

/-- What the name of a type turns out to be. -/
inductive Resolution
  | wellKnown (il : Text)
  | localClass
  | localValue
  | verbatim
  deriving DecidableEq, Repr

namespace Resolution

/-- A value type of the platform metadata, by its path. -/
def platformValue (path : Text) : Text := "valuetype [Windows.Win32.winmd]Windows.Win32." ++ path

/-- The names with a fixed meaning. -/
def wellKnownTypes : List (Text × Text) :=
  [("BOOL", platformValue "Foundation.BOOL"),
    ("BSTR", platformValue "Foundation.BSTR"),
    ("FILETIME", platformValue "Foundation.FILETIME"),
    ("GUID", "valuetype [netstandard]System.Guid"),
    ("HRESULT", platformValue "Foundation.HRESULT"),
    ("IUnknown", "[Windows.Win32.winmd]Windows.Win32.System.Com.IUnknown"),
    ("PROPID", "uint32"),
    ("PROPVARIANT", platformValue "System.Com.StructuredStorage.PROPVARIANT"),
    ("size_t", "native uint"),
    ("VARTYPE", "uint16"),
    ("INT8", "int8"),
    ("INT16", "int16"),
    ("INT32", "int32"),
    ("INT64", "int64"),
    ("UINT8", "uint8"),
    ("UINT16", "uint16"),
    ("UINT32", "uint32"),
    ("UINT64", "uint64"),
    ("BYTE", "uint8"),
    ("WORD", "uint16"),
    ("DWORD", "uint32"),
    ("ULONG", "uint32"),
    ("LONG", "int32"),
    ("ULONGLONG", "uint64"),
    ("LONGLONG", "int64"),
    ("WCHAR", "char"),
    ("VOID", "void"),
    ("PCWSTR", platformValue "Foundation.PCWSTR"),
    ("PWSTR", platformValue "Foundation.PWSTR"),
    ("HANDLE", platformValue "Foundation.HANDLE")]

/-- COM interfaces are named `I`, a capital, a small letter, and anything. -/
def isComInterface : Text → Bool
  | i :: capital :: small :: _ => i == 0x49 && Text.isUpper capital && Text.isLower small
  | _ => false

end Resolution

namespace Model

def declaresFunctionPointer (m : Model) (name : Text) : Bool :=
  m.functionPointers.any (·.signature.name == name)

def declaresStruct (m : Model) (name : Text) : Bool := m.structs.any (·.name == name)

/-- What a type name stands for in a model. -/
def resolution (m : Model) (name : Text) : Resolution :=
  match Resolution.wellKnownTypes.lookup name with
  | some il => .wellKnown il
  | none =>
    if Resolution.isComInterface name || m.declaresFunctionPointer name then .localClass
    else if m.declaresStruct name then .localValue
    else .verbatim

/-- A name inside the namespace that the header names. -/
def qualified (m : Model) (name : Text) : Text := m.name ++ "." ++ name

/-- The assembly text of a type name. -/
def baseIlType (m : Model) (name : Text) : Text :=
  match m.resolution name with
  | .wellKnown il => il
  | .localClass => "class " ++ m.qualified name
  | .localValue => "valuetype " ++ m.qualified name
  | .verbatim => name

/-- The assembly text of a type, one star for each level of indirection. -/
def ilType (m : Model) (type : TypeReference) : Text :=
  m.baseIlType type.name ++ List.replicate type.depth 0x2A

/-- Replaces a direct mention of an enumeration by its base type, with the enumeration behind it.
The name is resolved first, so a name that resolves to something else mentions no enumeration. -/
def enrich (m : Model) (type : TypeReference) : TypeReference :=
  if type.depth = 0 then
    match m.findEnumeration? (m.baseIlType type.name) with
    | some e => { e.base with backingEnum := some e.name }
    | none => type
  else type

end Model

/-! ## Integer types -/

/-- The largest magnitudes of a type, without and with a minus sign. -/
structure IntegerRange where
  positive : Nat
  negative : Nat
  deriving DecidableEq, Repr

namespace IntegerRange

/-- The range of the signed type whose sign bit is worth `half`. -/
def signed (half : Nat) : IntegerRange := ⟨half - 1, half⟩

/-- The range of the unsigned type whose highest bit is worth `half`. A negative literal is allowed
as far down as for the signed type of the same width: it denotes the same bits. -/
def unsigned (half : Nat) : IntegerRange := ⟨2 * half - 1, half⟩

/-- The integer types of fixed width; characters are 16 bits wide. -/
def types : List (Text × IntegerRange) :=
  [("int8", signed 0x80), ("int16", signed 0x8000), ("int32", signed 0x80000000),
    ("int64", signed 0x8000000000000000),
    ("uint8", unsigned 0x80), ("uint16", unsigned 0x8000), ("uint32", unsigned 0x80000000),
    ("uint64", unsigned 0x8000000000000000), ("char", unsigned 0x8000)]

/-- The range of a type, if the type has a fixed width. -/
def ofIlType? (il : Text) : Option IntegerRange := types.lookup il

/-- A literal lies in the range. -/
def contains (r : IntegerRange) (l : IntegerLiteral) : Bool :=
  l.magnitude ≤ if l.negative then r.negative else r.positive

end IntegerRange

end NativeApi

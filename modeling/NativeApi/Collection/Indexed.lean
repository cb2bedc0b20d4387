import Mathlib.Data.List.Nodup
import NativeApi.Collection.Declare

/-!
# Name indexes

Whether a name has been used can be looked up in an index and need not be searched for in the
declarations themselves. Enumerations have one index, from their names to their positions, and each
enumeration has one for its variants. An index is kept beside the list that it is about, and filled
in a step of its own, which leaves a name alone that the index knows already.

`NameIndexes.read` reads declarations with each lookup of a name made in an index. It never looks at
the name of an enumeration or of a variant in a list. That reading them from the lists gives the
same is a property of the states that declarations lead to (`NameIndexes.read_eq`).
-/

namespace NativeApi

/-- Positions by name. -/
abbrev NameIndex := Std.HashMap Text Nat

structure NameIndexes where
  enumerations : NameIndex
  /-- The variants of the enumerations, one index for each. -/
  variants : List NameIndex

namespace NameIndexes

def empty : NameIndexes := ⟨∅, []⟩

/-! ## Lookup -/

def findEnumeration? (names : NameIndexes) (m : Model) (name : Text) : Option Enumeration :=
  names.enumerations[name]?.bind fun position ↦ m.enumerations[position]?

/-- The enumeration at a position has a variant of a name. -/
def hasVariant (names : NameIndexes) (position : Nat) (name : Text) : Bool :=
  names.variants[position]?.any fun index ↦ index.contains name

/-! ## Reading -/

/-- Replaces a direct mention of an enumeration by its base type, as `Model.enrich` does. -/
def enrich (names : NameIndexes) (m : Model) (type : TypeReference) : TypeReference :=
  if type.depth = 0 then
    (names.findEnumeration? m (m.baseIlType type.name)).elim type fun e ↦
      { e.base with backingEnum := some e.name }
  else type

/-- A mention of a type in the present state. -/
def reference (names : NameIndexes) (s : State) (name : Text) (depth : Nat) : TypeReference :=
  names.enrich s.model ⟨name, depth, none⟩

def readFunctionPointer (names : NameIndexes) (s : State) (name returnType returnDepth : Text)
    (code : Option Text) : Except Fault Entry := do
  let _ ← s.requireHeader .functionPointer
  let depth ← readDepth returnDepth
  let code ← readCode code
  return .functionPointer name (names.reference s returnType depth) code

def readFunction (names : NameIndexes) (s : State) (name returnType returnDepth : Text)
    (convention : Option Text) : Except Fault Entry := do
  let _ ← s.requireHeader .function
  let _ ← requireContext .function .dll s.scope.dll
  let depth ← readDepth returnDepth
  let convention ← readConvention convention
  return .function name (names.reference s returnType depth) convention

def readArgument (names : NameIndexes) (s : State) (keyword : Keyword) (optional : Bool)
    (direction name type depth attributes : Text) : Except Fault Entry := do
  let _ ← s.requireHeader keyword
  let _ ← requireContext keyword .callable s.scope.callable
  let direction ← readDirection direction
  let depth ← readDepth depth
  let argument ← (Argument.plain name (names.reference s type depth) direction optional).applyWords
    attributes
  return .argument argument

def readMethod (names : NameIndexes) (s : State) (name returnType returnDepth : Text) :
    Except Fault Entry := do
  let _ ← s.requireHeader .method
  let _ ← requireContext .method .interface s.scope.interface
  let depth ← readDepth returnDepth
  return .method name (names.reference s returnType depth)

def readEnumeration (names : NameIndexes) (s : State) (keyword : Keyword) (flags : Bool)
    (name base : Text) : Except Fault Entry := do
  let _ ← s.requireHeader keyword
  if (names.findEnumeration? s.model name).isSome then
    .error (.duplicateEnumeration name)
  else
    .ok (.enumeration name (TypeReference.named base) flags)

/-- The value of a variant is checked in the same way whatever variants there are, so it is read as
for an enumeration without any. -/
def readVariant (names : NameIndexes) (s : State) (name value : Text) : Except Fault Entry := do
  let _ ← s.requireHeader .variant
  let position ← requireContext .variant .enumeration s.scope.enumeration
  let enumeration ← requireContext .variant .enumeration s.model.enumerations[position]?
  if names.hasVariant position name then
    .error (.duplicateVariant name enumeration.name)
  else
    let variant ← s.readVariantOf { enumeration with variants := [] } name value
    return .variant variant

def readField (names : NameIndexes) (s : State) (name type depth : Text) :
    Except Fault Entry := do
  let _ ← s.requireHeader .field
  let _ ← requireContext .field .struct s.scope.struct
  let depth ← readDepth depth
  return .field ⟨name, names.reference s type depth⟩

/-- The entry that a declaration makes. What mentions no type and declares neither an enumeration
nor a variant needs no index. -/
def read (names : NameIndexes) (s : State) (d : Declaration) : Except Fault Entry :=
  match d with
  | .functionPointer name type depth code => names.readFunctionPointer s name type depth code
  | .function name type depth convention => names.readFunction s name type depth convention
  | .argument optional direction name type depth attributes =>
    names.readArgument s d.keyword optional direction name type depth attributes
  | .method name type depth => names.readMethod s name type depth
  | .enumeration flags name base => names.readEnumeration s d.keyword flags name base
  | .variant name value => names.readVariant s name value
  | .field name type depth => names.readField s name type depth
  | _ => s.read d

/-! ## Additions -/

def addEnumeration (names : NameIndexes) (name : Text) (position : Nat) : NameIndexes where
  enumerations := names.enumerations.insertIfNew name position
  variants := names.variants ++ [∅]

/-- Adds a variant of the enumeration at a position. -/
def addVariant (names : NameIndexes) (enumeration : Nat) (name : Text) (position : Nat) :
    NameIndexes :=
  { names with variants := names.variants.modify enumeration (·.insertIfNew name position) }

/-- The indexes after an entry, which are those before it unless the entry is about an enumeration.
What is new gets the position at the end of its list. -/
def add (names : NameIndexes) (s : State) : Entry → NameIndexes
  | .enumeration name _ _ => names.addEnumeration name s.model.enumerations.length
  | .variant v =>
    match s.scope.enumeration with
    | none => names
    | some enumeration =>
      names.addVariant enumeration v.name
        ((s.model.enumerations[enumeration]?.map (·.variants.length)).getD 0)
  | _ => names

end NameIndexes

end NativeApi

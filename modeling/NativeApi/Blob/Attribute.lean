import NativeApi.Blob.CountedString
import NativeApi.Guid

/-!
# Custom attribute blobs

Every custom attribute blob starts with the prolog `01 00`, goes on with the constructor's
arguments and ends with the number of named arguments and those arguments. The attributes used
here have either constructor arguments and no named argument, or one named field and no
constructor argument.

A builder fails exactly when its argument does not fit the form that the attribute prescribes.
-/

namespace NativeApi

namespace Attribute

/-- The two bytes at the start of every custom attribute. -/
def prolog : Blob := [0x01, 0x00]

/-- The count of named arguments where there are none. -/
def noNamedArguments : Blob := [0x00, 0x00]

/-- An attribute without arguments. -/
def marker : Blob := prolog ++ noNamedArguments

/-- An attribute that sets one named integer field of the element type `elementType`, whose values
take `width` bytes. -/
def namedField? (elementType : UInt8) (name : Text) (value width : Nat) : Option Blob := do
  let name ← CountedString.short? name
  let word ← LittleEndian.encode? value width
  return prolog ++ [0x01, 0x00, 0x53, elementType] ++ name ++ word

/-- The array size is the value of the argument at `index`: a 16-bit field. -/
def countParamIndex? (index : Nat) : Option Blob := namedField? 0x06 "CountParamIndex" index 2

/-- The array size is the constant `count`: a 32-bit field. -/
def countConst? (count : Nat) : Option Blob := namedField? 0x08 "CountConst" count 4

/-- The enumeration that a plain integer stands for, by name. -/
def associatedEnum? (name : Text) : Option Blob :=
  (CountedString.encode? name).map (prolog ++ · ++ noNamedArguments)

/-- The calling convention of a function pointer, as a 32-bit code. -/
def functionPointer? (code : Nat) : Option Blob :=
  (LittleEndian.encode? code 4).map (prolog ++ · ++ noNamedArguments)

/-- The identity of a type or constant. -/
def guid (g : Guid) : Blob := prolog ++ g.reorder.bytes ++ noNamedArguments

end Attribute

end NativeApi

import NativeApi.Assembly.Rendering
import NativeApi.Blob.Attribute
import NativeApi.Model.IlType

/-!
# Members

The parts of a class: custom attributes, argument lists, methods and fields. A custom attribute
shows its blob in hexadecimal and, behind `//`, what the blob says. The attributes of an argument
stand in the method's body below `.param [k]`, where `k` counts arguments from one, because
`.param [0]` is the return value; an argument without attributes has no such line.
-/

namespace NativeApi

open Rendering (write stop indent block)

/-! ## Custom attributes -/

/-- The constructor of an attribute class of the platform metadata. -/
def platformAttribute (constructor : Text) : Text :=
  "[Windows.Win32.winmd]Windows.Win32.Foundation.Metadata." ++ constructor

/-- The constructor of the attribute that holds a GUID as eleven numbers. -/
def guidConstructor : Text :=
  platformAttribute ("GuidAttribute::.ctor(uint32, uint16, uint16, "
    ++ "uint8, uint8, uint8, uint8, uint8, uint8, uint8, uint8)")

/-- The comment behind a blob; an empty one is left out. -/
def remark (comment : Text) : Text := Text.showIf (!comment.isEmpty) (" // " ++ comment)

/-- A custom attribute on three lines. -/
def customAttribute (level : Nat) (constructor : Text) (blob : Blob) (comment : Text) : Text :=
  indent level ++ ".custom instance void " ++ constructor ++ " = (\n"
    ++ indent (level + 1) ++ Hex.dump blob ++ remark comment ++ "\n"
    ++ indent level ++ ")\n"

/-- The attribute that names the enumeration behind a plain integer. -/
def associatedEnum (level : Nat) : Option Text → Rendering
  | none => Rendering.empty
  | some name =>
    match Attribute.associatedEnum? name with
    | none => stop (.enumNameEncoding name)
    | some blob =>
      write (customAttribute level (platformAttribute "AssociatedEnumAttribute::.ctor(string)")
        blob name)

namespace ArraySize

/-- The blob that holds an array size. -/
def blob? : ArraySize → Option Blob
  | inArgument index => Attribute.countParamIndex? index
  | constant count => Attribute.countConst? count

/-- The comment that shows an array size. -/
def comment : ArraySize → Text
  | inArgument index => "CountParamIndex = " ++ Text.decimal index
  | constant count => "CountConst = " ++ Text.decimal count

end ArraySize

/-! ## Arguments -/

namespace Argument

/-- An argument in an argument list: what it is marked with, its type and its name. -/
def declaration (m : Model) (a : Argument) : Text :=
  Text.showIf a.direction.passesIn "[in] "
    ++ Text.showIf a.direction.passesOut "[out] "
    ++ Text.showIf a.optional "[opt] "
    ++ m.ilType a.type ++ " " ++ Text.quoted a.name

/-- An attribute without arguments, if the flag asks for it. -/
def markerAttribute (level : Nat) (flag : Bool) (constructor : Text) : Text :=
  Text.showIf flag (customAttribute level (platformAttribute constructor) Attribute.marker [])

/-- The attribute that tells the length of an array. -/
def sizeAttribute (level : Nat) (function : Text) (a : Argument) : Rendering :=
  match a.size with
  | none => Rendering.empty
  | some size =>
    match size.blob? with
    | none => stop (.arraySizeEncoding a.name function)
    | some blob =>
      write (customAttribute level (platformAttribute "NativeArrayInfoAttribute::.ctor()") blob
        size.comment)

/-- The attributes of the argument at a position, if it has any. -/
def attributes (level : Nat) (function : Text) (position : Nat) (a : Argument) : Rendering :=
  if a.hasPayload then
    write (indent level ++ ".param [" ++ Text.decimal position ++ "]\n"
      ++ markerAttribute (level + 1) a.const "ConstAttribute::.ctor()"
      ++ markerAttribute (level + 1) a.comOut "ComOutPtrAttribute::.ctor()")
    ++ sizeAttribute (level + 1) function a
    ++ associatedEnum (level + 1) a.type.backingEnum
  else Rendering.empty

end Argument

/-- An argument list, one argument a line, with commas between them. -/
def argumentLines (m : Model) (level : Nat) : List Argument → Text
  | [] => []
  | [a] => indent level ++ a.declaration m ++ "\n"
  | a :: rest => indent level ++ a.declaration m ++ ",\n" ++ argumentLines m level rest

/-- The attributes of all arguments from a position on. -/
def argumentAttributes (level : Nat) (function : Text) : Nat → List Argument → Rendering
  | _, [] => Rendering.empty
  | position, a :: rest =>
    a.attributes level function position ++ argumentAttributes level function (position + 1) rest

/-! ## Methods -/

/-- A method inside a class. The text `head` comes before the return type, `name` is the name it
has in this class, and `implementation` tells who supplies its code. -/
def method (m : Model) (head name implementation : Text) (s : Signature) : Rendering :=
  write (head ++ m.ilType s.returnType ++ " " ++ name ++ " (\n" ++ argumentLines m 3 s.arguments
    ++ "        ) " ++ implementation ++ " managed\n")
  ++ block 1 (argumentAttributes 2 s.name 1 s.arguments)

namespace FreeFunction

/-- A free function: a static method whose code is imported from a library. -/
def render (m : Model) (f : FreeFunction) : Rendering :=
  method m ("    .method public hidebysig static pinvokeimpl(\"" ++ f.dll ++ "\" nomangle "
      ++ f.convention ++ ")\n        ") f.signature.name "cil" f.signature
    ++ write "\n"

end FreeFunction

namespace Interface

/-- A method of an interface. -/
def renderMethod (m : Model) (s : Signature) : Rendering :=
  method m ("\n    .method public hidebysig newslot abstract virtual\n        instance ") s.name
    "cil" s

end Interface

/-! ## Fields -/

namespace GuidConstant

/-- A constant: a static field with the GUID as its attribute. -/
def render (c : GuidConstant) : Text :=
  "    .field public static valuetype [netstandard]System.Guid " ++ Text.quoted c.name ++ "\n"
    ++ customAttribute 1 guidConstructor (Attribute.guid c.guid) c.display

end GuidConstant

namespace Field

/-- A field of a struct. -/
def render (m : Model) (f : Field) : Rendering :=
  write ("    .field public " ++ m.ilType f.type ++ " " ++ Text.quoted f.name ++ "\n")
    ++ associatedEnum 1 f.type.backingEnum

end Field

end NativeApi

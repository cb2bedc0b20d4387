import NativeApi.Assembly.Member

/-!
# Assembly modules

The text for a whole model. It names the imported libraries, the referenced assemblies and the
assembly itself, then defines the classes: function pointers as delegates, all functions and
constants in one class `Apis`, interfaces, enumerations and structs, each kind in the order of
declaration. Only a model with a header can be rendered, since the header names the assembly.
-/

namespace NativeApi

open Rendering (write stop concat block)

/-! ## Preamble -/

/-- The libraries that functions are imported from. -/
def importLines (dlls : List Text) : Text :=
  dlls.flatMap fun dll ↦ ".module extern " ++ Text.quoted dll ++ "\n"

/-- The assemblies that the text refers to. -/
def references : Rendering :=
  write ".assembly extern netstandard\n"
    ++ block 0 (write ("    .publickeytoken = (\n        cc 7b 13 ff cd 2d dd 51\n    )\n"
      ++ "    .ver 2:1:0:0\n"))
    ++ write ".assembly extern Windows.Win32.winmd\n"
    ++ block 0 (write "    .ver 0:0:0:0\n")
    ++ write "\n"

/-- The assembly and its only module. -/
def identity (h : Header) : Rendering :=
  write (".assembly " ++ h.name ++ ".winmd\n")
    ++ block 0 (write ("    .ver " ++ h.version ++ "\n"))
    ++ write ("\n.module " ++ h.name ++ ".winmd\n"
      ++ ".imagebase 0x00400000\n"
      ++ ".file alignment 0x00000200\n"
      ++ ".stackreserve 0x00100000\n"
      ++ ".subsystem 0x0003 // WindowsCui\n"
      ++ ".corflags 0x00000001 // ILOnly\n\n")

/-! ## Classes -/

/-- A class: its first line, the line that tells what it is based on, and its members. An empty
line follows it. -/
def classBlock (head base : Text) (members : Rendering) : Rendering :=
  write (head ++ "\n" ++ base ++ "\n") ++ block 0 members ++ write "\n"

namespace FunctionPointer

/-- The constructor that every delegate has. -/
def constructor : Rendering :=
  write ("\n    .method public hidebysig specialname rtspecialname\n"
      ++ "        instance void .ctor (\n"
      ++ "            object 'object',\n"
      ++ "            native int 'method'\n"
      ++ "        ) runtime managed\n")
    ++ block 1 Rendering.empty
    ++ write "\n"

/-- The constructor of the attribute that holds a calling convention. -/
def conventionConstructor : Text :=
  "[netstandard]System.Runtime.InteropServices.UnmanagedFunctionPointerAttribute::.ctor("
    ++ "valuetype [netstandard]System.Runtime.InteropServices.CallingConvention)"

/-- A function pointer: a delegate class with its calling convention. -/
def render (m : Model) (p : FunctionPointer) : Rendering :=
  match Attribute.functionPointer? p.code.toNat with
  | none => stop (.conventionEncoding p.signature.name)
  | some blob =>
    classBlock
      (".class public auto autochar sealed beforefieldinit " ++ m.qualified p.signature.name)
      "    extends [netstandard]System.MulticastDelegate"
      (write (customAttribute 1 conventionConstructor blob []) ++ constructor
        ++ method m "    .method public hidebysig newslot virtual\n        instance " "Invoke"
          "runtime" p.signature)

end FunctionPointer

namespace Model

/-- The class of all free functions and constants; there is none without any of them. -/
def renderApis (m : Model) : Rendering :=
  if m.functions.isEmpty && m.guids.isEmpty then Rendering.empty
  else
    classBlock
      (".class public auto autochar abstract sealed beforefieldinit " ++ m.qualified "Apis")
      "    extends [netstandard]System.Object"
      (concat (m.functions.map (FreeFunction.render m))
        ++ write (m.guids.flatMap GuidConstant.render))

end Model

namespace Interface

/-- An interface, with its identity. -/
def render (m : Model) (i : Interface) : Rendering :=
  let guid := Guid.ofInterface i.group i.value
  classBlock (".class interface public abstract auto ansi " ++ m.qualified i.name)
    ("    implements " ++ m.ilType i.base)
    (write (customAttribute 1 guidConstructor (Attribute.guid guid) guid.text)
      ++ concat (i.methods.map (renderMethod m)))

end Interface

namespace Enumeration

/-- The mark of an enumeration whose values are combined. -/
def flagsMark (e : Enumeration) : Text :=
  Text.showIf e.flags
    ("    .custom instance void [netstandard]System.FlagsAttribute::.ctor() = ( "
      ++ Hex.dump Attribute.marker ++ " )\n")

/-- A value of an enumeration: a literal of the base type. -/
def variantLine (m : Model) (e : Enumeration) (v : Variant) : Text :=
  "    .field public static literal valuetype " ++ m.qualified e.name ++ " " ++ v.name ++ " = "
    ++ m.ilType e.base ++ "(" ++ v.value.text ++ ")\n"

/-- An enumeration. -/
def render (m : Model) (e : Enumeration) : Rendering :=
  classBlock (".class public auto ansi sealed " ++ m.qualified e.name)
    "       extends [netstandard]System.Enum"
    (write (e.flagsMark
      ++ "    .field public specialname rtspecialname " ++ m.ilType e.base ++ " value__\n"
      ++ e.variants.flatMap (variantLine m e)))

end Enumeration

namespace Struct

/-- A struct. -/
def render (m : Model) (s : Struct) : Rendering :=
  classBlock (".class public sequential ansi sealed beforefieldinit " ++ m.qualified s.name)
    "       extends [netstandard]System.ValueType"
    (concat (s.fields.map (Field.render m)))

end Struct

/-! ## The whole text -/

namespace Model

/-- The assembly text of a model. -/
def render (m : Model) : Rendering :=
  match m.header with
  | none => stop .noHeader
  | some header =>
    write (importLines m.dlls) ++ references ++ identity header
      ++ concat (m.functionPointers.map (FunctionPointer.render m))
      ++ m.renderApis
      ++ concat (m.interfaces.map (Interface.render m))
      ++ concat (m.enumerations.map (Enumeration.render m))
      ++ concat (m.structs.map (Struct.render m))

end Model

end NativeApi

import NativeApi.Text.Basic

/-!
# Keywords

The first field of a line is one of sixteen keywords. Each keyword has a usage text, shown when a
line has too few or too many fields; operands in brackets may be left out.
-/

namespace NativeApi

/-- The kinds of lines in a definition file. -/
inductive Keyword
  | header
  | functionPointer
  | dll
  | function
  | argument
  | optionalArgument
  | interface
  | method
  | standardMethod
  | inclusion
  | enumeration
  | flags
  | variant
  | struct
  | field
  | guid
  deriving DecidableEq, Repr

namespace Keyword

/-- The keywords, in the order of their introduction. -/
def all : List Keyword :=
  [header, functionPointer, dll, function, argument, optionalArgument, interface, method,
    standardMethod, inclusion, enumeration, flags, variant, struct, field, guid]

/-- How a keyword is written. -/
def text : Keyword → Text
  | header => "meta"
  | functionPointer => "fptr"
  | dll => "dll"
  | function => "fn"
  | argument => "arg"
  | optionalArgument => "optarg"
  | interface => "iface"
  | method => "meth"
  | standardMethod => "stdmeth"
  | inclusion => "include"
  | enumeration => "enum"
  | flags => "flags"
  | variant => "variant"
  | struct => "struct"
  | field => "field"
  | guid => "guid"

/-- The operands that a keyword takes, by name. -/
def operandText : Keyword → Text
  | header => "NAME VERSION"
  | functionPointer => "NAME RETTYPE RETSTARS [CALLCONV]"
  | dll => "NAME"
  | function => "NAME RETTYPE RETSTARS [CALLCONV]"
  | argument => "DIRECTION NAME TYPE STARS [ATTRIBS]"
  | optionalArgument => "DIRECTION NAME TYPE STARS [ATTRIBS]"
  | interface => "NAME GROUP VALUE BASETYPE"
  | method => "NAME RETTYPE RETSTARS"
  | standardMethod => "NAME"
  | inclusion => "PATH"
  | enumeration => "NAME BASETYPE"
  | flags => "NAME BASETYPE"
  | variant => "NAME VALUE"
  | struct => "NAME"
  | field => "NAME TYPE STARS"
  | guid => "NAME GUID"

/-- A line of the kind, with names in the place of operands. -/
def usage (k : Keyword) : Text := k.text ++ [Text.blank] ++ k.operandText

/-- The keyword with the given spelling; letter case counts. -/
def ofText? (t : Text) : Option Keyword := all.find? (·.text == t)

end Keyword

end NativeApi

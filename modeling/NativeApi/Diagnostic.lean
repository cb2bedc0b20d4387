import NativeApi.Command.Keyword
import NativeApi.Text.Numeral

/-!
# Diagnostics

A fault is the cause of a failure, a diagnostic is a fault with the place where it arose. Code,
kind and message are functions of the fault.
-/

namespace NativeApi

/-- What kind of rule a fault breaks. -/
inductive FaultKind
  | grammar
  | context
  | semantic
  | input
  | render
  deriving DecidableEq, Repr

namespace FaultKind

def text : FaultKind → Text
  | grammar => "grammar"
  | context => "context"
  | semantic => "semantic"
  | input => "input"
  | render => "render"

end FaultKind

/-- An earlier declaration that a line depends on. -/
inductive Context
  | header
  | dll
  | callable
  | interface
  | enumeration
  | struct
  deriving DecidableEq, Repr

namespace Context

def text : Context → Text
  | header => "meta"
  | dll => "dll"
  | callable => "fn, fptr or meth"
  | interface => "iface"
  | enumeration => "enum or flags"
  | struct => "struct"

def code : Context → Text
  | header => "META-E2001"
  | dll => "META-E2002"
  | callable => "META-E2003"
  | interface => "META-E2004"
  | enumeration => "META-E2005"
  | struct => "META-E2006"

end Context

/-- A number in a declaration, by its meaning. -/
inductive Quantity
  | depth
  | conventionCode
  | group
  | value
  deriving DecidableEq, Repr

namespace Quantity

def text : Quantity → Text
  | depth => "pointer depth"
  | conventionCode => "calling convention code"
  | group => "group"
  | value => "value"

/-- The code of the fault that the quantity is out of range. -/
def rangeCode : Quantity → Text
  | depth => "META-E3002"
  | conventionCode => "META-E3011"
  | group => "META-E3003"
  | value => "META-E3003"

/-- The message of the fault that the quantity is out of range. -/
def rangeMessage (n : Int) : Quantity → Text
  | depth =>
    "Pointer depth " ++ Text.integer n ++ " is invalid; expected a non-negative count."
  | conventionCode =>
    "Calling convention code " ++ Text.integer n ++ " does not fit in 4 bytes."
  | group => "Interface group " ++ Text.integer n ++ " must be between 0 and 255."
  | value => "Interface value " ++ Text.integer n ++ " must be between 0 and 255."

end Quantity

/-- How many includes may be open at once. -/
def includeLimit : Nat := 64

/-- The causes of failure. -/
inductive Fault
  | unknownCommand (word : Text)
  | fieldCount (keyword : Keyword)
  | notInteger (quantity : Quantity) (found : Text)
  | notVariantValue (found : Text)
  | unknownDirection (found : Text)
  | unknownAttribute (word : Text)
  | unknownConvention (found : Text)
  | missingContext (keyword : Keyword) (context : Context)
  | duplicateHeader (declared : Text)
  | range (quantity : Quantity) (n : Int)
  | duplicateEnumeration (name : Text)
  | duplicateVariant (name enumeration : Text)
  | secondArraySize (argument : Text)
  | arraySizeRange (word : Text)
  | variantRange (name value ilType : Text)
  | invalidGuid (found : Text)
  | includeDepth (path : Text)
  | unreadableSource (path : Text)
  | unreadableInclude (path : Text)
  | noHeader
  | arraySizeEncoding (argument function : Text)
  | enumNameEncoding (enumeration : Text)
  | conventionEncoding (pointer : Text)
  deriving DecidableEq, Repr

namespace Fault

open Text (quoted)

def code : Fault → Text
  | unknownCommand _ => "META-E1001"
  | fieldCount _ => "META-E1002"
  | notInteger _ _ => "META-E1003"
  | notVariantValue _ => "META-E1003"
  | unknownDirection _ => "META-E1004"
  | unknownAttribute _ => "META-E1005"
  | unknownConvention _ => "META-E1006"
  | missingContext _ context => context.code
  | duplicateHeader _ => "META-E3001"
  | range quantity _ => quantity.rangeCode
  | duplicateEnumeration _ => "META-E3004"
  | duplicateVariant _ _ => "META-E3005"
  | secondArraySize _ => "META-E3006"
  | arraySizeRange _ => "META-E3007"
  | variantRange _ _ _ => "META-E3008"
  | invalidGuid _ => "META-E3009"
  | includeDepth _ => "META-E3010"
  | unreadableSource _ => "META-E4001"
  | unreadableInclude _ => "META-E4001"
  | noHeader => "META-E5001"
  | arraySizeEncoding _ _ => "META-E5002"
  | enumNameEncoding _ => "META-E5002"
  | conventionEncoding _ => "META-E5002"

def kind : Fault → FaultKind
  | unknownCommand _ => .grammar
  | fieldCount _ => .grammar
  | notInteger _ _ => .grammar
  | notVariantValue _ => .grammar
  | unknownDirection _ => .grammar
  | unknownAttribute _ => .grammar
  | unknownConvention _ => .grammar
  | missingContext _ _ => .context
  | duplicateHeader _ => .semantic
  | range _ _ => .semantic
  | duplicateEnumeration _ => .semantic
  | duplicateVariant _ _ => .semantic
  | secondArraySize _ => .semantic
  | arraySizeRange _ => .semantic
  | variantRange _ _ _ => .semantic
  | invalidGuid _ => .semantic
  | includeDepth _ => .semantic
  | unreadableSource _ => .input
  | unreadableInclude _ => .input
  | noHeader => .render
  | arraySizeEncoding _ _ => .render
  | enumNameEncoding _ => .render
  | conventionEncoding _ => .render

def message : Fault → Text
  | unknownCommand word => "Unknown command " ++ quoted word ++ "."
  | fieldCount keyword =>
    "Wrong number of fields for " ++ quoted keyword.text ++ ". Usage: " ++ keyword.usage
  | notInteger quantity found =>
    "Expected an integer " ++ quantity.text ++ ", found " ++ quoted found ++ "."
  | notVariantValue found => "Expected an integer variant value, found " ++ quoted found ++ "."
  | unknownDirection found =>
    "Unknown argument direction " ++ quoted found ++ "; expected in, out or inout."
  | unknownAttribute word =>
    "Unknown argument attribute " ++ quoted word ++ "; expected const, com_out, ca<N> or cc<N>."
  | unknownConvention found =>
    "Unknown calling convention " ++ quoted found
      ++ "; expected winapi, cdecl, stdcall, thiscall or fastcall."
  | missingContext keyword context =>
    quoted keyword.text ++ " requires a preceding " ++ context.text
      ++ " declaration (missing context: " ++ context.text ++ ")."
  | duplicateHeader declared =>
    "Duplicate 'meta' declaration; metadata " ++ quoted declared ++ " is already declared."
  | range quantity n => quantity.rangeMessage n
  | duplicateEnumeration name => "Duplicate enumeration " ++ quoted name ++ "."
  | duplicateVariant name enumeration =>
    "Duplicate variant " ++ quoted name ++ " in enumeration " ++ quoted enumeration ++ "."
  | secondArraySize argument =>
    "Argument " ++ quoted argument ++ " has more than one array size attribute."
  | arraySizeRange word => "Array size attribute " ++ quoted word ++ " is out of range."
  | variantRange name value ilType =>
    "Variant " ++ quoted name ++ " value " ++ value ++ " does not fit in " ++ ilType ++ "."
  | invalidGuid found =>
    "Invalid GUID " ++ quoted found ++ "; expected xxxxxxxx-xxxx-xxxx-xxxx-xxxxxxxxxxxx."
  | includeDepth path =>
    "Include nesting is deeper than " ++ Text.decimal includeLimit ++ " levels; is "
      ++ quoted path ++ " including itself?"
  | unreadableSource path => "Unable to open definition file " ++ quoted path ++ "."
  | unreadableInclude path => "Unable to open included file " ++ quoted path ++ "."
  | noHeader => "Nothing to render: the definition does not declare 'meta'."
  | arraySizeEncoding argument function =>
    "Array size of argument " ++ quoted argument ++ " in " ++ quoted function
      ++ " cannot be encoded."
  | enumNameEncoding enumeration =>
    "Enumeration name " ++ quoted enumeration ++ " is too long to encode."
  | conventionEncoding pointer =>
    "Calling convention of " ++ quoted pointer ++ " cannot be encoded."

end Fault

/-- A fault at a line of a file. The line is 0 where the fault concerns no single line, and the
file is empty where it concerns none. -/
structure Diagnostic where
  fault : Fault
  file : Text
  line : Nat
  deriving DecidableEq, Repr

namespace Diagnostic

/-- Where a diagnostic arose, followed by a blank; nothing if no file is concerned. -/
def place (d : Diagnostic) : Text :=
  if d.file.isEmpty then []
  else if d.line = 0 then d.file ++ " "
  else d.file ++ ":" ++ Text.decimal d.line ++ " "

/-- The one-line report of a diagnostic: code, place if any, kind and message. -/
def text (d : Diagnostic) : Text :=
  d.fault.code ++ " " ++ d.place ++ "[" ++ d.fault.kind.text ++ "] -> " ++ d.fault.message

end Diagnostic

end NativeApi

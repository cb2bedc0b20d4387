import NativeApi.Command.Line

/-!
# Statements

A command with the right number of fields is a statement: it declares something or includes a
file. Operands keep their texts here, since what a number or a word may be depends on the
declarations before it. An operand that is left out is `none`; the attribute words of an argument
are then the empty text, which has no words.
-/

namespace NativeApi

/-- A declaration, with its operands as written. -/
inductive Declaration
  | header (name version : Text)
  | functionPointer (name returnType returnDepth : Text) (code : Option Text)
  | dll (name : Text)
  | function (name returnType returnDepth : Text) (convention : Option Text)
  | argument (optional : Bool) (direction name type depth attributes : Text)
  | interface (name group value base : Text)
  | method (name returnType returnDepth : Text)
  | standardMethod (name : Text)
  | enumeration (flags : Bool) (name base : Text)
  | variant (name value : Text)
  | struct (name : Text)
  | field (name type depth : Text)
  | guid (name value : Text)
  deriving DecidableEq, Repr

/-- What a command asks for. -/
inductive Statement
  | declare (d : Declaration)
  | inclusion (path : Text)
  deriving DecidableEq, Repr

namespace Declaration

/-- The keyword that introduces a declaration. -/
def keyword : Declaration → Keyword
  | header .. => .header
  | functionPointer .. => .functionPointer
  | dll .. => .dll
  | function .. => .function
  | argument optional .. => if optional then .optionalArgument else .argument
  | interface .. => .interface
  | method .. => .method
  | standardMethod .. => .standardMethod
  | enumeration flags .. => if flags then .flags else .enumeration
  | variant .. => .variant
  | struct .. => .struct
  | field .. => .field
  | guid .. => .guid

/-- An argument line, whose attribute words may be left out. -/
def argument? (optional : Bool) : List Text → Option Declaration
  | [direction, name, type, depth] => some (argument optional direction name type depth [])
  | [direction, name, type, depth, attributes] =>
    some (argument optional direction name type depth attributes)
  | _ => none

/-- An enumeration line, of flags or of plain values. -/
def enumeration? (flags : Bool) : List Text → Option Declaration
  | [name, base] => some (enumeration flags name base)
  | _ => none

end Declaration

namespace Statement

open Declaration in
/-- The statement that a command makes, if it has the number of fields that its keyword takes. -/
def ofCommand? (c : Command) : Option Statement :=
  match c.keyword with
  | .header =>
    match c.operands with
    | [name, version] => some (declare (header name version))
    | _ => none
  | .functionPointer =>
    match c.operands with
    | [name, type, depth] => some (declare (functionPointer name type depth none))
    | [name, type, depth, code] => some (declare (functionPointer name type depth (some code)))
    | _ => none
  | .dll =>
    match c.operands with
    | [name] => some (declare (dll name))
    | _ => none
  | .function =>
    match c.operands with
    | [name, type, depth] => some (declare (function name type depth none))
    | [name, type, depth, convention] =>
      some (declare (function name type depth (some convention)))
    | _ => none
  | .argument => (argument? false c.operands).map declare
  | .optionalArgument => (argument? true c.operands).map declare
  | .interface =>
    match c.operands with
    | [name, group, value, base] => some (declare (interface name group value base))
    | _ => none
  | .method =>
    match c.operands with
    | [name, type, depth] => some (declare (method name type depth))
    | _ => none
  | .standardMethod =>
    match c.operands with
    | [name] => some (declare (standardMethod name))
    | _ => none
  | .inclusion =>
    match c.operands with
    | [path] => some (inclusion path)
    | _ => none
  | .enumeration => (enumeration? false c.operands).map declare
  | .flags => (enumeration? true c.operands).map declare
  | .variant =>
    match c.operands with
    | [name, value] => some (declare (variant name value))
    | _ => none
  | .struct =>
    match c.operands with
    | [name] => some (declare (struct name))
    | _ => none
  | .field =>
    match c.operands with
    | [name, type, depth] => some (declare (field name type depth))
    | _ => none
  | .guid =>
    match c.operands with
    | [name, value] => some (declare (guid name value))
    | _ => none

end Statement

end NativeApi

import NativeApi.Text.Basic

/-!
# The command line

The program takes two arguments, a definition file and an output file. There are no options, so an
argument that looks like one is refused before the arguments are counted. A single dash is no
option, and neither is the empty text.
-/

namespace NativeApi

/-- The files named on the command line. -/
structure Options where
  input : Text
  output : Text
  deriving DecidableEq, Repr

/-- Why a command line is refused. -/
inductive UsageFault
  | unknownOption (argument : Text)
  | missingArgument
  | unexpectedArgument (argument : Text)
  deriving DecidableEq, Repr

namespace UsageFault

open Text (quoted)

def message : UsageFault → Text
  | unknownOption argument =>
    "META-E6001 UnknownOption: unrecognised option " ++ quoted argument ++ ".\n"
  | missingArgument =>
    "META-E6002 MissingArgument: expected an input definition file and an output IL file.\n"
  | unexpectedArgument argument =>
    "META-E6003 UnexpectedArgument: unexpected argument " ++ quoted argument ++ ".\n"

end UsageFault

namespace Options

/-- An option is a dash with something behind it. -/
def looksLikeOption (argument : Text) : Bool := 1 < argument.length && argument.head? == some 0x2D

/-- Reads arguments, without the name of the program. The system ends each at its first zero
byte. -/
def ofArguments (arguments : List Text) : Except UsageFault Options :=
  match (arguments.map Text.untilZero).find? looksLikeOption with
  | some argument => .error (.unknownOption argument)
  | none =>
    match arguments.map Text.untilZero with
    | [input, output] => .ok ⟨input, output⟩
    | _ :: _ :: extra :: _ => .error (.unexpectedArgument extra)
    | _ => .error .missingArgument

/-- What the program is and how it is called. -/
def usage : Text :=
  "metatext2il - native API definition to IL compiler (build profile: local)\n"
    ++ "Usage: metatext2il <input.txt> <output.il>\n"

end Options

end NativeApi

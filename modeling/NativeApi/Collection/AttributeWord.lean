import NativeApi.Diagnostic
import NativeApi.Model.Basic

/-!
# Attribute words

The last field of an argument line is a list of words between blanks. `const` and `com_out` mark
the argument and may be repeated. `ca` and `cc` before decimal digits give its array size, by the
index of another argument below `2 ^ 16` or as a constant below `2 ^ 32`; there is at most one of
them. Blanks in excess separate empty words, which say nothing.
-/

namespace NativeApi

/-- The two ways to give an array size. -/
inductive SizeForm
  | inArgument
  | constant
  deriving DecidableEq, Repr

namespace SizeForm

/-- Sizes of the form lie below this bound. -/
def bound : SizeForm → Nat
  | inArgument => 0x10000
  | constant => 0x100000000

def size (n : Nat) : SizeForm → ArraySize
  | inArgument => .inArgument n
  | constant => .constant n

/-- The form and the digits of a word that gives an array size. -/
def ofWord? : Text → Option (SizeForm × Text)
  | c :: form :: digits =>
    if c = 0x63 ∧ digits ≠ [] ∧ digits.all Text.isDigit then
      if form = 0x61 then some (inArgument, digits)
      else if form = 0x63 then some (constant, digits)
      else none
    else none
  | _ => none

/-- The array size that digits denote, if it is within the bound of the form. -/
def size? (form : SizeForm) (digits : Text) : Option ArraySize :=
  ((Text.word? 10 digits).filter (· < form.bound)).map fun n ↦ form.size n

end SizeForm

namespace Argument

/-- Applies one attribute word. -/
def applyWord (a : Argument) (word : Text) : Except Fault Argument :=
  if word = [] then .ok a
  else if word = "const" then .ok { a with const := true }
  else if word = "com_out" then .ok { a with comOut := true }
  else
    match SizeForm.ofWord? word with
    | none => .error (.unknownAttribute word)
    | some (form, digits) =>
      if a.size.isSome then .error (.secondArraySize a.name)
      else
        match form.size? digits with
        | none => .error (.arraySizeRange word)
        | some size => .ok { a with size := some size }

/-- Applies a list of attribute words from left to right, up to the first that is refused. -/
def applyWords (a : Argument) (words : Text) : Except Fault Argument :=
  (Text.splitOn Text.blank words).foldlM applyWord a

end Argument

end NativeApi

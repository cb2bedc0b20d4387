import NativeApi.Text.Basic

/-!
# Numerals

A definition file writes integers in decimal or, after `0x`, in hexadecimal, with at most one
sign. A literal is read as a sign and a magnitude, because a variant of an unsigned 64-bit
enumeration needs magnitudes that no signed 64-bit integer has. The magnitude must fit in 64
bits; zero has no sign, so `-0` and `0` are the same literal.
-/

namespace NativeApi

namespace Text

/-! ## Digits -/

/-- The value of a digit, letters of either case being the digits from ten on. -/
def digitValue? (b : UInt8) : Option Nat :=
  if isDigit b then some (b.toNat - 0x30)
  else if 0x61 ≤ b && b ≤ 0x66 then some (b.toNat - 0x57)
  else if 0x41 ≤ b && b ≤ 0x46 then some (b.toNat - 0x37)
  else none

/-- Appends one digit to a number written in `base`. -/
def pushDigit? (base value : Nat) (b : UInt8) : Option Nat :=
  (digitValue? b).bind fun digit ↦ if digit < base then some (value * base + digit) else none

/-- The number denoted by a non-empty run of digits of `base`. -/
def number? (base : Nat) (t : Text) : Option Nat :=
  if t.isEmpty then none else t.foldlM (pushDigit? base) 0

/-- Magnitudes and counts lie below `2 ^ 64`. -/
def wordBound : Nat := 0x10000000000000000

/-- The number denoted by a run of digits, if it fits in 64 bits. -/
def word? (base : Nat) (t : Text) : Option Nat := (number? base t).filter (· < wordBound)

/-- The decimal digits of a number, without leading zeros. -/
def decimal (n : Nat) : Text := (Nat.toDigits 10 n).map Char.toUInt8

/-- The decimal text of an integer, with a minus sign when it is below zero. -/
def integer (n : Int) : Text := if n < 0 then "-" ++ decimal n.natAbs else decimal n.natAbs

end Text

/-! ## Signed literals -/

/-- An integer literal: a magnitude and whether a minus sign precedes it. -/
structure IntegerLiteral where
  magnitude : Nat
  negative : Bool
  deriving DecidableEq, Repr

namespace IntegerLiteral

/-- Takes one leading sign off; the flag tells whether it was a minus. -/
def splitSign : Text → Bool × Text
  | [] => (false, [])
  | b :: rest =>
    if b = 0x2D then (true, rest) else if b = 0x2B then (false, rest) else (false, b :: rest)

/-- The magnitude after the sign: hexadecimal digits behind `0x` or `0X`, else decimal digits. -/
def magnitude? : Text → Option Nat
  | zero :: x :: digits =>
    if zero = 0x30 ∧ (x = 0x78 ∨ x = 0x58) then Text.word? 16 digits
    else Text.word? 10 (zero :: x :: digits)
  | digits => Text.word? 10 digits

/-- Reads a literal. Zero is never negative. -/
def ofText? (t : Text) : Option IntegerLiteral :=
  (magnitude? (splitSign t).2).map fun n ↦ ⟨n, (splitSign t).1 && n != 0⟩

/-- The integer that a literal denotes. -/
def toInt (l : IntegerLiteral) : Int := if l.negative then -(l.magnitude : Int) else l.magnitude

/-- The literal in decimal: a minus sign where there is one, then the magnitude. -/
def text (l : IntegerLiteral) : Text :=
  if l.negative then "-" ++ Text.decimal l.magnitude else Text.decimal l.magnitude

end IntegerLiteral

namespace Text

/-- Signed 64-bit words lie from `-2 ^ 63` up to, but not including, `2 ^ 63`. -/
def signedBound : Int := 0x8000000000000000

/-- The integer that a text denotes, if a signed 64-bit word holds it. -/
def signed? (t : Text) : Option Int :=
  ((IntegerLiteral.ofText? t).map IntegerLiteral.toInt).filter
    fun n ↦ decide (-signedBound ≤ n ∧ n < signedBound)

end Text

end NativeApi

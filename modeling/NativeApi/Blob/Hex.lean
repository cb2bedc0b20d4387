import NativeApi.Text.Numeral
import NativeApi.Blob.LittleEndian

/-!
# Hexadecimal text

Assembly text shows a blob as pairs of upper-case digits with one blank between two pairs. Reading
accepts digits of either case; it is used where the pairs stand without blanks, as in a GUID.
-/

namespace NativeApi

namespace Hex

/-- The upper-case digit of a number below sixteen. -/
def digit (n : Nat) : UInt8 := UInt8.ofNat (if n < 10 then 0x30 + n else 0x37 + n)

/-- The two digits of a byte. -/
def pair (b : UInt8) : Text := [digit (b.toNat / 16), digit (b.toNat % 16)]

/-- The digits of a blob without separators. -/
def digits (b : Blob) : Text := b.flatMap pair

/-- The digits of a blob, one blank between two bytes. -/
def dump (b : Blob) : Text := Text.joinWith Text.blank (b.map pair)

/-- Reads digits two by two; an odd number of them denotes no blob. -/
def ofDigits? : Text → Option Blob
  | [] => some []
  | [_] => none
  | high :: low :: rest => do
    let h ← Text.digitValue? high
    let l ← Text.digitValue? low
    let blob ← ofDigits? rest
    return UInt8.ofNat (16 * h + l) :: blob

end Hex

end NativeApi

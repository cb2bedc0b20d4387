import NativeApi.Blob.LittleEndian
import NativeApi.Text.Basic

/-!
# Counted strings

Custom attribute blobs hold strings behind their length. A field name has a length of one byte. A
constructor argument has a compressed length, whose first bits tell how many bytes it takes, most
significant byte first:

* `0` — one byte, lengths up to `0x7F`;
* `10` — two bytes, lengths up to `0x3FFF`;
* `110` — four bytes, lengths up to `0x1FFFFFFF`.

The shortest form that can hold the length is the one written.
-/

namespace NativeApi

namespace CountedString

/-- The longest text with a length of one byte. -/
def shortLimit : Nat := 0x7F

/-- The longest text with a compressed length of two bytes. -/
def mediumLimit : Nat := 0x3FFF

/-- The longest text that can be written at all. -/
def longLimit : Nat := 0x1FFFFFFF

/-- A field name: one byte of length, then the text. -/
def short? (t : Text) : Option Blob :=
  if t.length ≤ shortLimit then some (UInt8.ofNat t.length :: t) else none

/-- The compressed form of a length. -/
def compressed? (length : Nat) : Option Blob :=
  if length ≤ shortLimit then some [UInt8.ofNat length]
  else if length ≤ mediumLimit then
    some [UInt8.ofNat (0x80 + length / 0x100), UInt8.ofNat (length % 0x100)]
  else if length ≤ longLimit then
    some [UInt8.ofNat (0xC0 + length / 0x1000000), UInt8.ofNat (length / 0x10000 % 0x100),
      UInt8.ofNat (length / 0x100 % 0x100), UInt8.ofNat (length % 0x100)]
  else none

/-- A constructor argument: the compressed length, then the text. -/
def encode? (t : Text) : Option Blob := (compressed? t.length).map (· ++ t)

end CountedString

end NativeApi

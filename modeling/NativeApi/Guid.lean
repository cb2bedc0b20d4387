import NativeApi.Blob.Hex

/-!
# GUIDs

A GUID is sixteen bytes, kept in the order in which its text shows them. The text groups them as
4-2-2-2-6 with dashes between the groups; a pair of braces around it is allowed when reading. A
blob stores the first three groups as little-endian words, hence each of them reversed.
-/

namespace NativeApi

/-- Sixteen bytes in the order of the text. -/
structure Guid where
  bytes : Blob
  length_bytes : bytes.length = 16
  deriving DecidableEq, Repr

namespace Guid

def dash : UInt8 := 0x2D

/-- The sixteen bytes of a blob of that length. -/
def ofBytes? (b : Blob) : Option Guid := if h : b.length = 16 then some ⟨b, h⟩ else none

/-! ## Text -/

/-- A text without the braces around it, if it has both. -/
def unbraced (t : Text) : Text :=
  if 2 ≤ t.length ∧ t.head? = some 0x7B ∧ t.getLast? = some 0x7D then t.tail.dropLast else t

/-- The number of digits in each group. -/
def groupLengths : List Nat := [8, 4, 4, 4, 12]

/-- Reads groups of hexadecimal digits of the right lengths between dashes. -/
def ofText? (t : Text) : Option Guid :=
  let groups := Text.splitOn dash (unbraced t)
  if groups.map List.length = groupLengths then (Hex.ofDigits? groups.flatten).bind ofBytes?
  else none

/-- The canonical text: upper-case digits, no braces. -/
def text (g : Guid) : Text :=
  Text.joinWith dash [Hex.digits (g.bytes.take 4), Hex.digits ((g.bytes.drop 4).take 2),
    Hex.digits ((g.bytes.drop 6).take 2), Hex.digits ((g.bytes.drop 8).take 2),
    Hex.digits (g.bytes.drop 10)]

/-! ## Blob order -/

/-- Exchanges the order of the text with the order in blobs: three words are reversed, the last
eight bytes stay. -/
def reorder (g : Guid) : Guid where
  bytes := (g.bytes.take 4).reverse ++ ((g.bytes.drop 4).take 2).reverse
    ++ ((g.bytes.drop 6).take 2).reverse ++ g.bytes.drop 8
  length_bytes := by
    have := g.length_bytes
    simp only [List.length_append, List.length_reverse, List.length_take, List.length_drop]
    omega

/-! ## Interfaces -/

/-- The identity of an interface, `23170F69-40C1-278A-0000-00gg00vv0000` for its group `gg` and
its value `vv`. -/
def ofInterface (group value : UInt8) : Guid where
  bytes := [0x23, 0x17, 0x0F, 0x69, 0x40, 0xC1, 0x27, 0x8A, 0x00, 0x00,
    0x00, group, 0x00, value, 0x00, 0x00]
  length_bytes := rfl

end Guid

end NativeApi

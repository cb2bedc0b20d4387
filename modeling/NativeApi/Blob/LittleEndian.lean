/-!
# Little-endian words

A word of `width` bytes holds the numbers below `256 ^ width`, least significant byte first.
Encoding refuses a number that does not fit instead of dropping its upper bytes, so every encoded
word reads back as the number it was made from.
-/

namespace NativeApi

/-- A blob is the binary form of a value inside assembly text. -/
abbrev Blob := List UInt8

namespace LittleEndian

/-- The lowest `width` bytes of a number. -/
def bytes : (width : Nat) → (value : Nat) → Blob
  | 0, _ => []
  | width + 1, value => UInt8.ofNat value :: bytes width (value / 256)

/-- The word of `width` bytes that holds `value`, if it fits. -/
def encode? (value width : Nat) : Option Blob :=
  if value < Nat.pow 256 width then some (bytes width value) else none

/-- The number that a list of bytes of any length denotes. -/
def value (b : Blob) : Nat := b.foldr (fun byte rest ↦ byte.toNat + 256 * rest) 0

/-- The 64-bit number at the start of a blob; bytes from the ninth on are not part of it. -/
def decode (b : Blob) : Nat := value (b.take 8)

/-! ## Bytes and values -/

@[simp] theorem length_bytes (width n : Nat) : (bytes width n).length = width := by
  induction width generalizing n with
  | zero => rfl
  | succ width ih => rw [bytes, List.length_cons, ih]

/-- A word reads as the number that it was made from, less what does not fit. -/
theorem value_bytes (width n : Nat) : value (bytes width n) = n % Nat.pow 256 width := by
  induction width generalizing n with
  | zero => exact (Nat.mod_one n).symm
  | succ width ih =>
    have hbyte : (UInt8.ofNat n).toNat = n % 256 := by simp
    have hstep : value (bytes (width + 1) n) = n % 256 + 256 * value (bytes width (n / 256)) := by
      rw [← hbyte]; rfl
    rw [hstep, ih, Nat.pow_eq, Nat.pow_eq, Nat.pow_succ, Nat.mul_comm (256 ^ width),
      Nat.mod_mul]

/-- Every list of bytes is the word of its length that holds its value. -/
theorem bytes_value (b : Blob) : bytes b.length (value b) = b := by
  induction b with
  | nil => rfl
  | cons byte b ih =>
    have hstep : value (byte :: b) = byte.toNat + 256 * value b := rfl
    have hlt : byte.toNat < 256 := byte.toNat_lt
    rw [List.length_cons, hstep, bytes]
    have hdiv : (byte.toNat + 256 * value b) / 256 = value b := by omega
    have hmod : UInt8.ofNat (byte.toNat + 256 * value b) = byte := by
      apply UInt8.toNat.inj
      rw [UInt8.toNat_ofNat']
      omega
    rw [hdiv, ih, hmod]

end LittleEndian

end NativeApi

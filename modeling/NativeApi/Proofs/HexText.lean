import NativeApi.Proofs.GuidText
import NativeApi.Proofs.Numerals

/-!
# Hexadecimal texts

Two digits stand for a byte, so digits that are read and written again are the same digits but for
the case of their letters, which is upper case then (`Hex.digits_of_ofDigits?`). Bytes that are
written and read again are the same bytes (`Hex.ofDigits?_digits`).
-/

namespace NativeApi

namespace Text

/-- An ASCII small letter becomes its capital; every other byte stays. -/
def upperByte (b : UInt8) : UInt8 := if isLower b then b - 0x20 else b

def toUpper (t : Text) : Text := t.map upperByte

theorem digitValue?_lt {b : UInt8} {v : Nat} (h : digitValue? b = some v) : v < 16 := by
  have hall : ∀ b, ∀ v ∈ digitValue? b, v < 16 := forall_byte (by decide +kernel)
  exact hall b v h

end Text

namespace Hex

/-! ## Digits -/

theorem digitValue?_digit {n : Nat} (h : n < 16) : Text.digitValue? (digit n) = some n := by
  have hall : ∀ n < 16, Text.digitValue? (digit n) = some n := by decide
  exact hall n h

/-- The digit that is written for a value is the capital of the digit that it was read from. -/
theorem digit_of_digitValue? {b : UInt8} {v : Nat} (h : Text.digitValue? b = some v) :
    digit v = Text.upperByte b := by
  have hall : ∀ b, ∀ v ∈ Text.digitValue? b, digit v = Text.upperByte b :=
    Text.forall_byte (by decide +kernel)
  exact hall b v h

theorem pair_ofNat {high low : Nat} (hhigh : high < 16) (hlow : low < 16) :
    pair (UInt8.ofNat (16 * high + low)) = [digit high, digit low] := by
  have hbyte : (UInt8.ofNat (16 * high + low)).toNat = 16 * high + low := by
    rw [UInt8.toNat_ofNat']
    omega
  have hdiv : (16 * high + low) / 16 = high := by omega
  have hmod : (16 * high + low) % 16 = low := by omega
  rw [pair, hbyte, hdiv, hmod]

@[simp] theorem length_pair (b : UInt8) : (pair b).length = 2 := rfl

theorem digits_cons (byte : UInt8) (b : Blob) : digits (byte :: b) = pair byte ++ digits b := rfl

theorem digits_append (a b : Blob) : digits (a ++ b) = digits a ++ digits b := List.flatMap_append

@[simp] theorem length_digits (b : Blob) : (digits b).length = 2 * b.length := by
  induction b with
  | nil => rfl
  | cons byte b ih =>
    rw [digits_cons, List.length_append, ih, length_pair, List.length_cons]
    omega

/-! ## Reading -/

variable {t : Text} {b : Blob}

theorem ofDigits?_pair_append (byte : UInt8) (t : Text) :
    ofDigits? (pair byte ++ t) = (ofDigits? t).map (byte :: ·) := by
  have hhigh : byte.toNat / 16 < 16 := Nat.div_lt_of_lt_mul byte.toNat_lt
  have hlow : byte.toNat % 16 < 16 := Nat.mod_lt _ (by decide)
  have hbyte : UInt8.ofNat (16 * (byte.toNat / 16) + byte.toNat % 16) = byte := by
    rw [Nat.div_add_mod, UInt8.ofNat_toNat]
  rw [pair, List.cons_append, List.cons_append, List.nil_append, ofDigits?,
    digitValue?_digit hhigh, digitValue?_digit hlow]
  cases ofDigits? t with
  | none => rfl
  | some b => exact congrArg (fun byte ↦ some (byte :: b)) hbyte

/-- Bytes that are written are read back. -/
theorem ofDigits?_digits (b : Blob) : ofDigits? (digits b) = some b := by
  induction b with
  | nil => rfl
  | cons byte b ih => rw [digits_cons, ofDigits?_pair_append, ih, Option.map_some]

/-- Digits that are read are written in upper case. -/
theorem digits_of_ofDigits? (h : ofDigits? t = some b) : digits b = Text.toUpper t := by
  induction t using ofDigits?.induct generalizing b with
  | case1 =>
    cases h
    rfl
  | case2 => cases h
  | case3 high low rest ih =>
    simp only [ofDigits?, Option.bind_eq_bind, Option.bind_eq_some_iff] at h
    obtain ⟨v, hv, w, hw, tail, htail, hb⟩ := h
    cases hb
    rw [digits_cons, ih htail, pair_ofNat (Text.digitValue?_lt hv) (Text.digitValue?_lt hw),
      digit_of_digitValue? hv, digit_of_digitValue? hw]
    rfl

end Hex

end NativeApi

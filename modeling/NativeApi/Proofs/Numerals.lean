import Mathlib.Data.List.Induction
import NativeApi.Text.Numeral

/-!
# Positional notation

A numeral is a non-empty text of digits, each counting for its base times as much as the one behind
it. `Text.Numeral` says so by the last digit, which is also the order in which digits are read:
`Text.number?_eq_some_iff` says that a number is read from its numerals, whatever their length, and
from nothing else.

Zeros in front change a numeral and not its number. The decimal text of a number is its numeral
without them (`Text.canonicalNumeral_iff`).
-/

namespace NativeApi

namespace Text

/-! ## Digits -/

/-- There are 256 bytes. -/
theorem forall_byte {P : UInt8 → Prop} (h : ∀ n < 256, P (UInt8.ofNat n)) (b : UInt8) : P b := by
  have hb := h b.toNat b.toNat_lt
  rwa [UInt8.ofNat_toNat] at hb

/-- The digits in the order of their values. -/
def digitOrder : Text := "0123456789abcdef"

/-- The byte is the digit of a value in a base, letters being of either case. -/
def IsDigitOf (base : Nat) (b : UInt8) (d : Nat) : Prop :=
  d < base ∧ digitOrder.idxOf? (lowerByte b) = some d

theorem digitValue?_eq : ∀ b, digitValue? b = digitOrder.idxOf? (lowerByte b) :=
  forall_byte (by decide +kernel)

theorem isDigitOf_iff {base : Nat} {b : UInt8} {d : Nat} :
    IsDigitOf base b d ↔ d < base ∧ digitValue? b = some d := by
  rw [digitValue?_eq, IsDigitOf]

/-- Ten digits are digits in base ten. -/
theorem isDigitOf_ten_iff {b : UInt8} {d : Nat} :
    IsDigitOf 10 b d ↔ d < 10 ∧ b = UInt8.ofNat (0x30 + d) := by
  have h : ∀ b : UInt8, ∀ d < 10, digitValue? b = some d ↔ b = UInt8.ofNat (0x30 + d) :=
    forall_byte (by decide +kernel)
  rw [isDigitOf_iff]
  exact and_congr_right fun hd ↦ h b d hd

theorem isDigit_iff {b : UInt8} : isDigit b = true ↔ ∃ d, IsDigitOf 10 b d := by
  have h : ∀ b : UInt8, isDigit b = true ↔ ∃ d < 10, b = UInt8.ofNat (0x30 + d) :=
    forall_byte (by decide +kernel)
  simp only [isDigitOf_ten_iff]
  exact h b

theorem pushDigit?_eq_some_iff {base value n : Nat} {b : UInt8} :
    pushDigit? base value b = some n ↔ ∃ d, IsDigitOf base b d ∧ n = value * base + d := by
  simp only [pushDigit?, Option.bind_eq_some_iff, isDigitOf_iff]
  constructor
  · rintro ⟨d, hd, h⟩
    split at h
    · rename_i hlt
      exact ⟨d, ⟨hlt, hd⟩, (Option.some.inj h).symm⟩
    · cases h
  · rintro ⟨d, ⟨hlt, hd⟩, rfl⟩
    exact ⟨d, hd, if_pos hlt⟩

/-! ## Numerals -/

/-- The text is a numeral of the number in a base. -/
inductive Numeral (base : Nat) : Text → Nat → Prop
  | digit {b : UInt8} {d : Nat} (h : IsDigitOf base b d) : Numeral base [b] d
  | push {t : Text} {n : Nat} {b : UInt8} {d : Nat} (ht : Numeral base t n)
      (h : IsDigitOf base b d) : Numeral base (t ++ [b]) (n * base + d)

variable {base n : Nat} {t : Text}

theorem Numeral.ne_nil (h : Numeral base t n) : t ≠ [] := by
  cases h with
  | digit => exact List.cons_ne_nil _ _
  | push => exact List.append_ne_nil_of_right_ne_nil _ (List.cons_ne_nil _ _)

/-- A numeral consists of digits. -/
theorem Numeral.exists_digit (h : Numeral base t n) {b : UInt8} (hb : b ∈ t) :
    ∃ d, IsDigitOf base b d := by
  induction h with
  | digit hd => exact ⟨_, List.mem_singleton.mp hb ▸ hd⟩
  | push ht hd ih =>
    rcases List.mem_append.mp hb with hb | hb
    · exact ih hb
    · exact ⟨_, List.mem_singleton.mp hb ▸ hd⟩

/-- **Reading numerals.** A number is read from the texts that are numerals of it. -/
theorem number?_eq_some_iff : number? base t = some n ↔ Numeral base t n := by
  have hread {u : Text} (hu : u ≠ []) : number? base u = u.foldlM (pushDigit? base) 0 := by
    rw [number?, if_neg (by simpa using hu)]
  -- Digits are read from the left, and the last of them is the last to be pushed.
  induction t using List.reverseRecOn generalizing n with
  | nil => exact iff_of_false nofun fun h ↦ h.ne_nil rfl
  | append_singleton t b ih =>
    rw [hread (List.append_ne_nil_of_right_ne_nil _ (List.cons_ne_nil _ _)), List.foldlM_append]
    simp only [Option.bind_eq_bind, Option.bind_eq_some_iff, List.foldlM_cons, List.foldlM_nil,
      Option.pure_def, Option.some.injEq, exists_eq_right, pushDigit?_eq_some_iff]
    constructor
    · rintro ⟨value, hvalue, d, hd, rfl⟩
      by_cases ht : t = []
      · subst ht
        cases hvalue
        rw [Nat.zero_mul, Nat.zero_add]
        exact .digit hd
      · rw [← hread ht] at hvalue
        exact .push (ih.mp hvalue) hd
    · intro h
      generalize hu : t ++ [b] = u at h
      cases h with
      | digit hd =>
        obtain ⟨rfl, hb⟩ := List.append_inj' (hu.trans (List.nil_append _).symm) rfl
        cases hb
        exact ⟨0, rfl, _, hd, by rw [Nat.zero_mul, Nat.zero_add]⟩
      | push hv hd =>
        obtain ⟨rfl, hb⟩ := List.append_inj' hu rfl
        cases hb
        exact ⟨_, hread hv.ne_nil ▸ ih.mpr hv, _, hd, rfl⟩

/-! ## Decimal texts -/

theorem decimal_of_lt {d : Nat} (h : d < 10) : decimal d = [UInt8.ofNat (0x30 + d)] := by
  have hdigit : ∀ d < 10, d.digitChar.toUInt8 = UInt8.ofNat (0x30 + d) := by decide
  rw [decimal, Nat.toDigits_of_lt_base h, List.map_singleton, hdigit d h]

theorem decimal_push {n d : Nat} (hn : 0 < n) (hd : d < 10) :
    decimal (n * 10 + d) = decimal n ++ decimal d := by
  rw [decimal, decimal, decimal, ← List.map_append,
    Nat.toDigits_append_toDigits (by decide) hn hd, Nat.mul_comm]

/-- A number has one digit, or one more than its tenth. -/
theorem decimalInduction {P : Nat → Prop} (hdigit : ∀ d < 10, P d)
    (hpush : ∀ n d, 0 < n → d < 10 → P n → P (n * 10 + d)) (n : Nat) : P n := by
  induction n using Nat.strongRecOn with
  | ind n ih =>
    rcases Nat.lt_or_ge n 10 with h | h
    · exact hdigit n h
    · have hsplit : n / 10 * 10 + n % 10 = n := Nat.div_add_mod' n 10
      have hpos : 0 < n / 10 := Nat.div_pos h (by decide)
      rw [← hsplit]
      exact hpush _ _ hpos (Nat.mod_lt n (by decide)) (ih _ (by omega))

theorem isDigitOf_ten_of_lt {d : Nat} (h : d < 10) : IsDigitOf 10 (UInt8.ofNat (0x30 + d)) d :=
  isDigitOf_ten_iff.mpr ⟨h, rfl⟩

theorem numeral_decimal (n : Nat) : Numeral 10 (decimal n) n := by
  induction n using decimalInduction with
  | hdigit d hd =>
    rw [decimal_of_lt hd]
    exact .digit (isDigitOf_ten_of_lt hd)
  | hpush n d hn hd ih =>
    rw [decimal_push hn hd, decimal_of_lt hd]
    exact .push ih (isDigitOf_ten_of_lt hd)

/-- A decimal numeral without a zero in front of other digits. -/
def CanonicalNumeral (t : Text) (n : Nat) : Prop :=
  Numeral 10 t n ∧ (t.head? = some 0x30 → t = "0")

theorem head?_append_of_ne_nil {t u : Text} (h : t ≠ []) : (t ++ u).head? = t.head? := by
  rw [List.head?_append, Option.or_of_isSome (List.isSome_head?.mpr h)]

/-- Only zero is written with a zero in front. -/
theorem head?_decimal_eq_zero_iff : (decimal n).head? = some 0x30 ↔ n = 0 := by
  induction n using decimalInduction with
  | hdigit d hd =>
    have hzero : ∀ d < 10, UInt8.ofNat (0x30 + d) = 0x30 ↔ d = 0 := by decide
    rw [decimal_of_lt hd, List.head?_cons, Option.some.injEq, hzero d hd]
  | hpush n d hn hd ih =>
    have hne := (numeral_decimal n).ne_nil
    rw [decimal_push hn hd, head?_append_of_ne_nil hne, ih]
    omega

/-- **Canonical numerals.** A number has one canonical numeral, which is its decimal text. -/
theorem canonicalNumeral_iff : CanonicalNumeral t n ↔ t = decimal n := by
  constructor
  · rintro ⟨h, hzero⟩
    induction h with
    | digit h =>
      obtain ⟨hd, rfl⟩ := isDigitOf_ten_iff.mp h
      exact (decimal_of_lt hd).symm
    | @push t n b d ht hb ih =>
      have hfront : (t ++ [b]).head? = t.head? := head?_append_of_ne_nil ht.ne_nil
      have hhead : t.head? ≠ some 0x30 := by
        intro h
        have hlength := congrArg List.length (hzero (hfront.trans h))
        rw [List.length_append] at hlength
        exact ht.ne_nil (List.eq_nil_of_length_eq_zero (Nat.succ.inj hlength))
      have ht := ih fun h ↦ absurd h hhead
      have hn : 0 < n := Nat.pos_of_ne_zero fun h ↦ hhead (ht ▸ head?_decimal_eq_zero_iff.mpr h)
      obtain ⟨hd, rfl⟩ := isDigitOf_ten_iff.mp hb
      rw [ht, decimal_push hn hd, decimal_of_lt hd]
  · rintro rfl
    refine ⟨numeral_decimal n, fun h ↦ ?_⟩
    rw [head?_decimal_eq_zero_iff.mp h]
    rfl

end Text

end NativeApi

import NativeApi.Proofs.Numerals
import NativeApi.Proofs.WordBytes

/-!
# Strings that tell their end

A constructor argument stands behind its length, so a reader finds the end of the text without being
told where it is. The length itself has one of three forms, and its first bits tell which: they say
how many bytes to take, and the other bits are the length, most significant byte first.

`Reader.Takes` says that a reader takes exactly a given blob, whatever follows it. That alone makes
a set of blobs free of proper prefixes (`Reader.Takes.eq_of_isPrefix`), so it is the only fact about
bits that `strings_delimit_themselves` needs for each form. A longer form could hold the length too,
but what is written is as short as anything that the reader takes the same text from.

Lengths are unbounded here. `packed?` puts a length together in a register of 64 bits, with shifts
and masks, which never touch the bits in front.
-/

namespace NativeApi

/-! ## Readers -/

/-- A reader takes something off the front of a blob and leaves the rest. -/
abbrev Reader := StateT Blob Option

namespace Reader

section Takes

variable {α β : Type} {read : Reader α} {next : α → Reader β} {b c : Blob} {x : α}

/-- The reader takes `x` off `b` and leaves whatever comes behind. -/
def Takes (read : Reader α) (b : Blob) (x : α) : Prop :=
  ∀ rest, read.run (b ++ rest) = some (x, rest)

/-- Of two blobs that a reader takes as a whole, neither is a proper front of the other. -/
theorem Takes.eq_of_isPrefix {y : α} (hb : read.Takes b x) (hc : read.Takes c y) (h : b <+: c) :
    b = c ∧ x = y := by
  obtain ⟨more, rfl⟩ := h
  have hwhole := hc []
  rw [List.append_nil, hb more, Option.some.injEq, Prod.mk.injEq] at hwhole
  obtain ⟨hxy, hmore⟩ := hwhole
  rw [hmore, List.append_nil]
  exact ⟨rfl, hxy⟩

/-- Readers one after the other take blobs one behind the other. -/
theorem Takes.bind {y : β} (hb : read.Takes b x) (hc : (next x).Takes c y) :
    (read >>= next).Takes (b ++ c) y := by
  intro rest
  rw [StateT.run_bind, List.append_assoc, hb (c ++ rest)]
  exact hc rest

theorem run_bind_eq_some_iff {y : β} :
    (read >>= next).run b = some (y, c) ↔
      ∃ x behind, read.run b = some (x, behind) ∧ (next x).run behind = some (y, c) := by
  rw [StateT.run_bind, Option.bind_eq_bind, Option.bind_eq_some_iff, Prod.exists]

theorem takes_pure (x : α) : (pure x : Reader α).Takes [] x := fun _ ↦ rfl

theorem run_lift_eq_some_iff {x? : Option α} :
    (StateT.lift x? : Reader α).run b = some (x, c) ↔ x? = some x ∧ b = c := by
  rw [StateT.run_lift]
  cases x? <;> simp

theorem takes_lift {x? : Option α} (h : x? = some x) : Takes (StateT.lift x? : Reader α) [] x :=
  fun _ ↦ run_lift_eq_some_iff.mpr ⟨h, rfl⟩

/-- Takes a number of bytes. -/
def bytes (n : Nat) : Reader Blob := fun b ↦
  if n ≤ b.length then some (b.take n, b.drop n) else none

theorem run_bytes (n : Nat) (b : Blob) :
    (bytes n).run b = if n ≤ b.length then some (b.take n, b.drop n) else none := rfl

theorem run_bytes_eq_some_iff {n : Nat} {b c rest : Blob} :
    (bytes n).run b = some (c, rest) ↔ c.length = n ∧ b = c ++ rest := by
  rw [run_bytes]
  constructor
  · intro h
    split at h
    · rename_i hn
      obtain ⟨rfl, rfl⟩ := Prod.mk.inj (Option.some.inj h)
      exact ⟨List.length_take_of_le hn, (List.take_append_drop n b).symm⟩
    · cases h
  · rintro ⟨rfl, rfl⟩
    have hlength : c.length ≤ (c ++ rest).length := by
      rw [List.length_append]
      exact Nat.le_add_right _ _
    rw [if_pos hlength, List.take_left, List.drop_left]

theorem takes_bytes {n : Nat} (h : b.length = n) : (bytes n).Takes b b :=
  fun _ ↦ run_bytes_eq_some_iff.mpr ⟨h, rfl⟩

end Takes

end Reader

/-! ## Words -/

namespace LittleEndian

/-- The most significant byte of a word stands at its end. -/
theorem bytes_succ (width n : Nat) :
    bytes (width + 1) n = bytes width n ++ [UInt8.ofNat (n / Nat.pow 256 width)] := by
  rw [bytes_eq_map_range, bytes_eq_map_range, List.range_succ, List.map_append, List.map_singleton]

/-- Only the lowest bits of a number go into a byte. -/
theorem ofNat_congr {m n : Nat} (h : m % 256 = n % 256) : UInt8.ofNat m = UInt8.ofNat n := by
  apply UInt8.toNat.inj
  rwa [UInt8.toNat_ofNat', UInt8.toNat_ofNat']

end LittleEndian

namespace CountedString

/-! ## Lengths -/

/-- The forms of a length, by the number of their bytes. -/
inductive LengthForm
  | one
  | two
  | four
  deriving DecidableEq, Repr

namespace LengthForm

/-- How many bytes stand behind the first one. -/
def more : LengthForm → Nat
  | one => 0
  | two => 1
  | four => 3

/-- A first byte whose other bits are clear. -/
def mark : LengthForm → Nat
  | one => 0x00
  | two => 0x80
  | four => 0xC0

/-- How many first bytes there are. -/
def firstBytes : LengthForm → Nat
  | one => 0x80
  | two => 0x40
  | four => 0x20

def width (form : LengthForm) : Nat := form.more + 1

/-- The lengths that the form can hold lie below this bound. -/
def bound (form : LengthForm) : Nat := form.firstBytes * Nat.pow 256 form.more

/-- A length in the form, most significant byte first. -/
def write (form : LengthForm) (n : Nat) : Blob :=
  (LittleEndian.bytes form.width (form.mark * Nat.pow 256 form.more + n)).reverse

/-- The form whose first bits are those of a byte: `0`, `10` or `110`. -/
def ofByte? (b : UInt8) : Option LengthForm :=
  if b &&& 0x80 = 0x00 then some one
  else if b &&& 0xC0 = 0x80 then some two
  else if b &&& 0xE0 = 0xC0 then some four
  else none

/-- The form can hold the length, and no form of fewer bytes can. -/
def Shortest (form : LengthForm) (n : Nat) : Prop :=
  n < form.bound ∧ ∀ other : LengthForm, n < other.bound → form.width ≤ other.width

end LengthForm

/-- Takes a length, in the form that its first bits tell. -/
def takeLength : Reader Nat := do
  let first ← Reader.bytes 1
  let form ← StateT.lift (first.head?.bind LengthForm.ofByte?)
  let others ← Reader.bytes form.more
  return LittleEndian.value (first ++ others).reverse % form.bound

/-- Takes a text behind its length. -/
def take : Reader Text := do
  let n ← takeLength
  Reader.bytes n

namespace LengthForm

variable {form : LengthForm} {n : Nat}

theorem ofByte?_of_lt {k : Nat} (h : k < form.firstBytes) :
    ofByte? (UInt8.ofNat (form.mark + k)) = some form := by
  have hall : ∀ form ∈ [one, two, four], ∀ k < form.firstBytes,
      ofByte? (UInt8.ofNat (form.mark + k)) = some form := by decide
  exact hall form (by cases form <;> decide) k h

@[simp] theorem length_write (form : LengthForm) (n : Nat) :
    (form.write n).length = form.width := by
  rw [write, List.length_reverse, LittleEndian.length_bytes]

/-- The first byte has the bits of the form in front of the highest bits of the length. -/
theorem write_eq_cons (form : LengthForm) (n : Nat) :
    ∃ others, others.length = form.more ∧
      form.write n = [UInt8.ofNat (form.mark + n / Nat.pow 256 form.more)] ++ others := by
  have hpos : 0 < Nat.pow 256 form.more := Nat.pow_pos (by decide)
  have hfirst : (form.mark * Nat.pow 256 form.more + n) / Nat.pow 256 form.more
      = form.mark + n / Nat.pow 256 form.more := by
    rw [Nat.mul_comm, Nat.mul_add_div hpos]
  rw [write, width, LittleEndian.bytes_succ, List.reverse_append, hfirst]
  exact ⟨_, by rw [List.length_reverse, LittleEndian.length_bytes], rfl⟩

/-- The bits of the form are a multiple of its bound, so they are no part of the length. -/
theorem value_write_mod (h : n < form.bound) :
    LittleEndian.value (form.write n).reverse % form.bound = n := by
  have hbits : form.mark * Nat.pow 256 form.more
      = form.bound * (form.mark / form.firstBytes) := by cases form <;> rfl
  have hfits : form.mark * Nat.pow 256 form.more + n < Nat.pow 256 form.width := by
    have hroom : form.mark * Nat.pow 256 form.more + form.bound ≤ Nat.pow 256 form.width := by
      cases form <;> decide
    omega
  rw [write, List.reverse_reverse, LittleEndian.value_bytes, Nat.mod_eq_of_lt hfits, hbits,
    Nat.mul_add_mod, Nat.mod_eq_of_lt h]

end LengthForm

/-- A length is taken in the form in which it is written. -/
theorem takes_write {form : LengthForm} {n : Nat} (h : n < form.bound) :
    takeLength.Takes (form.write n) n := by
  obtain ⟨others, hlength, hwrite⟩ := form.write_eq_cons n
  have hfirst : n / Nat.pow 256 form.more < form.firstBytes :=
    Nat.div_lt_of_lt_mul (Nat.mul_comm _ _ ▸ h)
  have hvalue := LengthForm.value_write_mod h
  rw [hwrite] at hvalue ⊢
  refine .bind (Reader.takes_bytes rfl) ?_
  refine .bind (b := []) (Reader.takes_lift (LengthForm.ofByte?_of_lt hfirst)) ?_
  rw [← List.append_nil others]
  refine .bind (Reader.takes_bytes hlength) ?_
  rw [hvalue]
  exact Reader.takes_pure n

/-- What is taken as a length stands in a form that can hold it. -/
theorem exists_form_of_takeLength {b rest : Blob} {n : Nat}
    (h : takeLength.run b = some (n, rest)) :
    ∃ form : LengthForm, n < form.bound ∧ b.length = form.width + rest.length := by
  simp only [takeLength, Reader.run_bind_eq_some_iff, Reader.run_bytes_eq_some_iff,
    Reader.run_lift_eq_some_iff] at h
  obtain ⟨first, behind, ⟨hfirst, rfl⟩, form, _, ⟨-, rfl⟩, others, _, ⟨hothers, rfl⟩, hn⟩ := h
  obtain ⟨rfl, rfl⟩ := Prod.mk.inj (Option.some.inj hn)
  have hpos : 0 < form.bound := by cases form <;> decide
  refine ⟨form, Nat.mod_lt _ hpos, ?_⟩
  rw [List.length_append, List.length_append, hfirst, hothers, LengthForm.width]
  omega

/-! ## The form that is written -/

namespace LengthForm

variable {form : LengthForm} {n : Nat}

theorem bound_one : one.bound = 0x80 := rfl

theorem bound_two : two.bound = 0x4000 := rfl

theorem bound_four : four.bound = 0x20000000 := rfl

/-- The lengths that each form is the shortest for follow each other. -/
theorem shortest_iff : form.Shortest n ↔ match form with
    | one => n < 0x80
    | two => 0x80 ≤ n ∧ n < 0x4000
    | four => 0x4000 ≤ n ∧ n < 0x20000000 := by
  have hforms (P : LengthForm → Prop) : (∀ other, P other) ↔ P one ∧ P two ∧ P four := by
    refine ⟨fun h ↦ ⟨h one, h two, h four⟩, fun h other ↦ ?_⟩
    cases other with
    | one => exact h.1
    | two => exact h.2.1
    | four => exact h.2.2
  rw [Shortest, hforms, bound_one, bound_two, bound_four]
  cases form <;> simp only [bound_one, bound_two, bound_four, width, more] <;> omega

theorem exists_shortest_iff : (∃ form : LengthForm, form.Shortest n) ↔ n ≤ longLimit := by
  rw [longLimit]
  constructor
  · rintro ⟨form, h⟩
    rw [shortest_iff] at h
    cases form <;> simp only at h <;> omega
  · intro h
    rcases Nat.lt_or_ge n 0x80 with hone | hone
    · exact ⟨one, shortest_iff.mpr hone⟩
    · rcases Nat.lt_or_ge n 0x4000 with htwo | htwo
      · exact ⟨two, shortest_iff.mpr ⟨hone, htwo⟩⟩
      · exact ⟨four, shortest_iff.mpr ⟨htwo, Nat.lt_succ_of_le h⟩⟩

theorem write_one (n : Nat) : one.write n = [UInt8.ofNat n] := by
  simp [write, width, more, mark, LittleEndian.bytes]

theorem write_two (n : Nat) : two.write n = [UInt8.ofNat (0x80 + n / 0x100), UInt8.ofNat n] := by
  have hlow : UInt8.ofNat (0x8000 + n) = UInt8.ofNat n := LittleEndian.ofNat_congr (by omega)
  have hhigh : (0x8000 + n) / 0x100 = 0x80 + n / 0x100 := by omega
  simp [write, width, more, mark, LittleEndian.bytes, hlow, hhigh]

theorem write_four (n : Nat) : four.write n = [UInt8.ofNat (0xC0 + n / 0x1000000),
    UInt8.ofNat (n / 0x10000), UInt8.ofNat (n / 0x100), UInt8.ofNat n] := by
  have h₀ : UInt8.ofNat (0xC0000000 + n) = UInt8.ofNat n := LittleEndian.ofNat_congr (by omega)
  have h₁ : UInt8.ofNat ((0xC0000000 + n) / 0x100) = UInt8.ofNat (n / 0x100) :=
    LittleEndian.ofNat_congr (by omega)
  have h₂ : UInt8.ofNat ((0xC0000000 + n) / 0x100 / 0x100) = UInt8.ofNat (n / 0x10000) :=
    LittleEndian.ofNat_congr (by omega)
  have h₃ : (0xC0000000 + n) / 0x100 / 0x100 / 0x100 = 0xC0 + n / 0x1000000 := by omega
  simp [write, width, more, mark, LittleEndian.bytes, h₀, h₁, h₂, h₃]

end LengthForm

/-- A length is written in the shortest form that can hold it. -/
theorem compressed?_of_shortest {form : LengthForm} {n : Nat} (h : form.Shortest n) :
    compressed? n = some (form.write n) := by
  have hmod (m : Nat) : UInt8.ofNat (m % 0x100) = UInt8.ofNat m :=
    LittleEndian.ofNat_congr (Nat.mod_mod m 0x100)
  rw [LengthForm.shortest_iff] at h
  cases form with
  | one =>
    have hshort : n ≤ shortLimit := Nat.le_of_lt_succ h
    rw [compressed?, if_pos hshort, LengthForm.write_one]
  | two =>
    have hshort : ¬n ≤ shortLimit := Nat.not_le.mpr h.1
    have hmedium : n ≤ mediumLimit := Nat.le_of_lt_succ h.2
    rw [compressed?, if_neg hshort, if_pos hmedium, LengthForm.write_two, hmod]
  | four =>
    have hshort : ¬n ≤ shortLimit := fun hle ↦ absurd (Nat.le_trans h.1 hle) (by decide)
    have hmedium : ¬n ≤ mediumLimit := Nat.not_le.mpr h.1
    have hlong : n ≤ longLimit := Nat.le_of_lt_succ h.2
    rw [compressed?, if_neg hshort, if_neg hmedium, if_pos hlong, LengthForm.write_four, hmod,
      hmod, hmod]

theorem encode?_eq_some_iff {t : Text} {b : Blob} :
    encode? t = some b ↔
      ∃ form : LengthForm, form.Shortest t.length ∧ b = form.write t.length ++ t := by
  rw [encode?, Option.map_eq_some_iff]
  constructor
  · rintro ⟨front, hfront, rfl⟩
    have hlimit : t.length ≤ longLimit := by
      rw [← isSome_encode?_iff, encode?, hfront]
      rfl
    obtain ⟨form, hform⟩ := LengthForm.exists_shortest_iff.mpr hlimit
    rw [compressed?_of_shortest hform, Option.some.injEq] at hfront
    exact ⟨form, hform, by rw [hfront]⟩
  · rintro ⟨form, hform, rfl⟩
    exact ⟨_, compressed?_of_shortest hform, rfl⟩

/-! ## Texts -/

/-- A text is taken off its encoding, whatever follows it. -/
theorem takes_encode? {t : Text} {b : Blob} (h : encode? t = some b) : take.Takes b t := by
  obtain ⟨form, hform, rfl⟩ := encode?_eq_some_iff.mp h
  exact (takes_write hform.1).bind (Reader.takes_bytes rfl)

/-- Nothing shorter than its encoding is taken as a text. -/
theorem length_le_of_take {t : Text} {b c rest : Blob} (h : encode? t = some b)
    (hc : take.run c = some (t, rest)) : b.length + rest.length ≤ c.length := by
  obtain ⟨form, hform, rfl⟩ := encode?_eq_some_iff.mp h
  rw [take, Reader.run_bind_eq_some_iff] at hc
  obtain ⟨n, behind, hlength, htext⟩ := hc
  obtain ⟨rfl, rfl⟩ := Reader.run_bytes_eq_some_iff.mp htext
  obtain ⟨other, hother, hwidth⟩ := exists_form_of_takeLength hlength
  have hshortest := hform.2 other hother
  rw [List.length_append] at hwidth
  rw [List.length_append, LengthForm.length_write]
  omega

/-! ## Registers -/

/-- The compressed form of a length in a register. -/
def packed? (n : UInt64) : Option Blob :=
  if n ≤ 0x7F then some [n.toUInt8]
  else if n ≤ 0x3FFF then
    some [((n >>> 8 &&& 0x3F) ||| 0x80).toUInt8, (n &&& 0xFF).toUInt8]
  else if n ≤ 0x1FFFFFFF then
    some [((n >>> 24 &&& 0x1F) ||| 0xC0).toUInt8, (n >>> 16 &&& 0xFF).toUInt8,
      (n >>> 8 &&& 0xFF).toUInt8, (n &&& 0xFF).toUInt8]
  else none

theorem lowByte_eq (n : UInt64) : (n &&& 0xFF).toUInt8 = UInt8.ofNat n.toNat := by
  have hmask : n.toNat &&& 0xFF = n.toNat % 256 := Nat.and_two_pow_sub_one_eq_mod _ 8
  apply UInt8.toNat.inj
  rw [UInt64.toNat_toUInt8, UInt64.toNat_and, UInt8.toNat_ofNat']
  simp only [UInt64.reduceToNat, hmask]
  exact Nat.mod_mod _ _

/-- A mask clears nothing of a length that fits, and the bits of the form are put beside it. -/
theorem markedByte_eq {n : UInt64} :
    (n.toNat < 0x40 → ((n &&& 0x3F) ||| 0x80).toUInt8 = UInt8.ofNat (0x80 + n.toNat)) ∧
      (n.toNat < 0x20 → ((n &&& 0x1F) ||| 0xC0).toUInt8 = UInt8.ofNat (0xC0 + n.toNat)) := by
  have htwo : ∀ k < 0x40,
      ((UInt64.ofNat k &&& 0x3F) ||| 0x80).toUInt8 = UInt8.ofNat (0x80 + k) := by
    decide
  have hfour : ∀ k < 0x20,
      ((UInt64.ofNat k &&& 0x1F) ||| 0xC0).toUInt8 = UInt8.ofNat (0xC0 + k) := by
    decide
  refine ⟨fun h ↦ ?_, fun h ↦ ?_⟩
  · rw [← htwo _ h, UInt64.ofNat_toNat]
  · rw [← hfour _ h, UInt64.ofNat_toNat]

theorem packed?_eq (n : UInt64) : packed? n = compressed? n.toNat := by
  have hmod (m : Nat) : UInt8.ofNat (m % 0x100) = UInt8.ofNat m :=
    LittleEndian.ofNat_congr (Nat.mod_mod m 0x100)
  have hone : (n >>> 8).toNat = n.toNat / 0x100 :=
    LittleEndian.toNat_shiftRight_bytes n (i := 1) (by decide)
  have htwo : (n >>> 16).toNat = n.toNat / 0x10000 :=
    LittleEndian.toNat_shiftRight_bytes n (i := 2) (by decide)
  have hthree : (n >>> 24).toNat = n.toNat / 0x1000000 :=
    LittleEndian.toNat_shiftRight_bytes n (i := 3) (by decide)
  have hshort : n ≤ 0x7F ↔ n.toNat ≤ shortLimit := UInt64.le_iff_toNat_le
  have hmedium : n ≤ 0x3FFF ↔ n.toNat ≤ mediumLimit := UInt64.le_iff_toNat_le
  have hlong : n ≤ 0x1FFFFFFF ↔ n.toNat ≤ longLimit := UInt64.le_iff_toNat_le
  rw [packed?, compressed?]
  simp only [hshort, hmedium, hlong, hmod, lowByte_eq, hone, htwo]
  split
  · rfl
  · split
    · rename_i hle
      have hfits : (n >>> 8).toNat < 0x40 := by
        rw [mediumLimit] at hle
        omega
      rw [markedByte_eq.1 hfits, hone]
    · split
      · rename_i hle
        have hfits : (n >>> 24).toNat < 0x20 := by
          rw [longLimit] at hle
          omega
        rw [markedByte_eq.2 hfits, hthree]
      · rfl

end CountedString

/-! ## All texts -/

open CountedString (LengthForm encode? take compressed? packed?)

/-- **Strings tell their end.** A text has an encoding if it is not longer than the greatest length.
From the encoding, with anything behind it, the reader takes just the text. The length is written in
the shortest form that can hold it, and the reader takes the text from nothing shorter. No encoding
is a proper front of another one, and different texts have different encodings. Lengths in registers
are written alike. -/
theorem strings_delimit_themselves (t : Text) :
    ((∃ b, encode? t = some b) ↔ t.length ≤ 0x1FFFFFFF) ∧
      (∀ b, encode? t = some b →
        (∀ rest, take.run (b ++ rest) = some (t, rest)) ∧
        (∃ form : LengthForm, form.Shortest t.length ∧ b = form.write t.length ++ t) ∧
        (∀ c rest, take.run c = some (t, rest) → b.length + rest.length ≤ c.length) ∧
        ∀ u c, encode? u = some c → (b <+: c → b = c) ∧ (b = c → t = u)) ∧
      ∀ n : UInt64, packed? n = compressed? n.toNat := by
  refine ⟨?_, fun b hb ↦ ⟨?_, ?_, ?_, ?_⟩, CountedString.packed?_eq⟩
  · rw [← Option.isSome_iff_exists, CountedString.isSome_encode?_iff, CountedString.longLimit]
  · exact CountedString.takes_encode? hb
  · exact CountedString.encode?_eq_some_iff.mp hb
  · intro c rest hc
    exact CountedString.length_le_of_take hb hc
  · intro u c hc
    have htakes := CountedString.takes_encode? hb
    have hother := CountedString.takes_encode? hc
    refine ⟨fun hfront ↦ (htakes.eq_of_isPrefix hother hfront).1, ?_⟩
    rintro rfl
    exact (htakes.eq_of_isPrefix hother List.prefix_rfl).2

/-- The shortest text whose length takes two bytes. -/
def twoByteText : Text := List.replicate 0x80 0x41

theorem strings_delimit_themselves_at_two_bytes :
    encode? twoByteText = some (0x80 :: 0x80 :: twoByteText) ∧
      take.run (0x80 :: 0x80 :: twoByteText ++ [0x00, 0x00]) = some (twoByteText, [0x00, 0x00]) ∧
      encode? "A" = some [0x01, 0x41] ∧
      ¬[0x01, 0x41] <+: 0x80 :: 0x80 :: twoByteText := by
  have htwo : encode? twoByteText = some (0x80 :: 0x80 :: twoByteText) := by decide +kernel
  have hone : encode? "A" = some [0x01, 0x41] := by decide
  obtain ⟨-, hlong, -⟩ := strings_delimit_themselves twoByteText
  obtain ⟨-, hshort, -⟩ := strings_delimit_themselves "A"
  obtain ⟨htakes, -⟩ := hlong _ htwo
  obtain ⟨-, -, -, hfront⟩ := hshort _ hone
  refine ⟨htwo, htakes [0x00, 0x00], hone, fun h ↦ ?_⟩
  exact absurd ((hfront _ _ htwo).1 h) (by decide)

end NativeApi

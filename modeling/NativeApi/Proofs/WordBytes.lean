import NativeApi.Proofs.Encodable

/-!
# Bytes of 64-bit words

A word is encoded into any number of bytes, and there are three kinds of these numbers. Below eight
bytes a word may be too large. Eight bytes hold every word. More than eight hold it as well, but the
bytes behind the eighth are zero, and decoding takes no notice of them. So a list of bytes is the
encoding of what it decodes to exactly if nothing but zeros stands behind its eighth byte
(`word_bytes_correspond`).

The numbers of `encode?` and `decode` are unbounded. `shiftedOut?` and `shiftedIn` compute the same
in registers of 64 bits, with shifts and masks only. A register shifts by its width modulo 64, so
neither may ever shift by 64 bits or more.
-/

namespace NativeApi

namespace LittleEndian

/-! ## Values and their bytes -/

@[simp] theorem value_cons (byte : UInt8) (b : Blob) :
    value (byte :: b) = byte.toNat + 256 * value b := rfl

theorem value_lt (b : Blob) : value b < Nat.pow 256 b.length := by
  induction b with
  | nil => exact Nat.one_pos
  | cons byte b ih =>
    have hbyte : byte.toNat < 256 := byte.toNat_lt
    rw [value_cons, List.length_cons, Nat.pow_eq, Nat.pow_succ]
    rw [Nat.pow_eq] at ih
    omega

theorem pow_le_pow {k width : Nat} (h : k ≤ width) : Nat.pow 256 k ≤ Nat.pow 256 width :=
  Nat.pow_le_pow_right (by decide) h

/-- The byte at a position is what is left of the number there, without the bytes behind it. -/
theorem bytes_eq_map_range (width n : Nat) :
    bytes width n = (List.range width).map fun i ↦ UInt8.ofNat (n / Nat.pow 256 i) := by
  induction width generalizing n with
  | zero => rfl
  | succ width ih =>
    have hnext (i : Nat) : n / 256 / Nat.pow 256 i = n / Nat.pow 256 (i + 1) := by
      rw [Nat.div_div_eq_div_mul, Nat.pow_eq, Nat.pow_eq, Nat.pow_succ, Nat.mul_comm]
    rw [bytes, ih, List.range_succ_eq_map, List.map_cons, List.map_map, Nat.pow_eq, Nat.pow_zero,
      Nat.div_one]
    simp only [hnext]
    rfl

/-- A number that fits in fewer bytes is followed by zeros. -/
theorem bytes_add {k n : Nat} (h : n < Nat.pow 256 k) (more : Nat) :
    bytes (k + more) n = bytes k n ++ List.replicate more 0 := by
  induction k generalizing n with
  | zero =>
    have hzero : n = 0 := Nat.lt_one_iff.mp h
    subst hzero
    rw [Nat.zero_add, bytes_eq_map_range, bytes, List.nil_append, List.eq_replicate_iff]
    refine ⟨by rw [List.length_map, List.length_range], fun byte hbyte ↦ ?_⟩
    obtain ⟨i, -, rfl⟩ := List.mem_map.mp hbyte
    rw [Nat.zero_div]
    rfl
  | succ k ih =>
    have hn : n / 256 < Nat.pow 256 k := by
      rw [Nat.pow_eq, Nat.pow_succ] at h
      exact Nat.div_lt_of_lt_mul (Nat.mul_comm _ _ ▸ h)
    rw [Nat.add_right_comm, bytes, bytes, ih hn, List.cons_append]

theorem decode_lt (b : Blob) : decode b < Nat.pow 256 (min 8 b.length) := by
  have h := value_lt (b.take 8)
  rwa [List.length_take] at h

/-- What a list of bytes decodes to is encoded as its first eight bytes and zeros behind them. -/
theorem encode?_decode (b : Blob) :
    encode? (decode b) b.length = some (b.take 8 ++ List.replicate (b.length - 8) 0) := by
  have hlength : min 8 b.length + (b.length - 8) = b.length := by omega
  have hlt := decode_lt b
  have hbytes := bytes_add hlt (b.length - 8)
  have hfront : bytes (min 8 b.length) (decode b) = b.take 8 := by
    have h := bytes_value (b.take 8)
    rwa [List.length_take] at h
  rw [hlength, hfront] at hbytes
  rw [encode?, if_pos (Nat.lt_of_lt_of_le hlt (pow_le_pow (Nat.min_le_right _ _))), hbytes]

theorem encode?_decode_eq_self_iff {b : Blob} :
    encode? (decode b) b.length = some b ↔ ∀ byte ∈ b.drop 8, byte = 0 := by
  have hzeros : b.drop 8 = List.replicate (b.length - 8) 0 ↔ ∀ byte ∈ b.drop 8, byte = 0 := by
    rw [List.eq_replicate_iff, List.length_drop]
    exact and_iff_right rfl
  have hsplit : b.take 8 ++ List.replicate (b.length - 8) 0 = b ↔
      b.take 8 ++ List.replicate (b.length - 8) 0 = b.take 8 ++ b.drop 8 := by
    rw [List.take_append_drop]
  rw [encode?_decode, Option.some.injEq, hsplit, List.append_cancel_left_eq, eq_comm, hzeros]

/-- A word of 64 bits is decoded from its encodings of any length. -/
theorem decode_bytes {n width : Nat} (h : n < Nat.pow 256 width) (hword : n < Nat.pow 256 8) :
    decode (bytes width n) = n := by
  rcases Nat.le_total width 8 with hwidth | hwidth
  · have hall : (bytes width n).take 8 = bytes width n :=
      List.take_of_length_le (by rwa [length_bytes])
    rw [decode, hall, value_bytes, Nat.mod_eq_of_lt h]
  · obtain ⟨more, rfl⟩ := Nat.exists_eq_add_of_le hwidth
    rw [decode, bytes_add hword, List.take_left' (length_bytes 8 n), value_bytes,
      Nat.mod_eq_of_lt hword]

/-! ## Registers

A shift by whole bytes is a division or a multiplication by a power of 256 while fewer than eight
bytes are concerned. -/

/-- The byte of a register at a position; the register has none behind the eighth. -/
def byteAt (n : UInt64) (i : Nat) : UInt8 :=
  if i < 8 then (n >>> UInt64.ofNat (8 * i) &&& 0xFF).toUInt8 else 0

/-- Encodes a register. Only below eight bytes can anything be left over. -/
def shiftedOut? (n : UInt64) (width : Nat) : Option Blob :=
  if width < 8 ∧ n >>> UInt64.ofNat (8 * width) ≠ 0 then none
  else some ((List.range width).map (byteAt n))

/-- Puts a byte below those that a register holds. -/
def shiftIn (byte : UInt8) (n : UInt64) : UInt64 := n <<< 8 ||| byte.toUInt64

/-- Decodes into a register, from the eighth byte or the last one down to the first. -/
def shiftedIn (b : Blob) : UInt64 := (b.take 8).foldr shiftIn 0

theorem toNat_shiftRight_bytes (n : UInt64) {i : Nat} (h : i < 8) :
    (n >>> UInt64.ofNat (8 * i)).toNat = n.toNat / Nat.pow 256 i := by
  have hbits : (UInt64.ofNat (8 * i)).toNat % 64 = 8 * i := by
    rw [UInt64.toNat_ofNat']
    omega
  rw [UInt64.toNat_shiftRight, hbits, Nat.shiftRight_eq_div_pow, Nat.pow_mul]
  rfl

theorem word_lt (n : UInt64) : n.toNat < Nat.pow 256 8 := n.toNat_lt

theorem byteAt_eq (n : UInt64) (i : Nat) : byteAt n i = UInt8.ofNat (n.toNat / Nat.pow 256 i) := by
  rw [byteAt]
  split
  · rename_i h
    apply UInt8.toNat.inj
    rw [UInt64.toNat_toUInt8, UInt64.toNat_and, toNat_shiftRight_bytes n h, UInt8.toNat_ofNat']
    have hmask : n.toNat / Nat.pow 256 i &&& 0xFF = n.toNat / Nat.pow 256 i % 256 :=
      Nat.and_two_pow_sub_one_eq_mod _ 8
    simp only [UInt64.reduceToNat, hmask]
    exact Nat.mod_mod _ _
  · rename_i h
    rw [Nat.div_eq_of_lt (Nat.lt_of_lt_of_le (word_lt n) (pow_le_pow (Nat.le_of_not_lt h)))]
    rfl

theorem shiftedOut?_eq (n : UInt64) (width : Nat) :
    shiftedOut? n width = encode? n.toNat width := by
  have hbytes : (List.range width).map (byteAt n) = bytes width n.toNat := by
    rw [bytes_eq_map_range]
    exact List.map_congr_left fun i _ ↦ byteAt_eq n i
  have hfits : (width < 8 ∧ n >>> UInt64.ofNat (8 * width) ≠ 0) ↔ ¬n.toNat < Nat.pow 256 width := by
    rcases Nat.lt_or_ge width 8 with hwidth | hwidth
    · rw [and_iff_right hwidth, ne_eq, ← UInt64.toNat_inj, toNat_shiftRight_bytes n hwidth]
      have hpos : 0 < Nat.pow 256 width := Nat.pow_pos (by decide)
      rw [UInt64.toNat_zero, Nat.div_eq_zero_iff_lt hpos]
    · have hlt := Nat.lt_of_lt_of_le (word_lt n) (pow_le_pow hwidth)
      exact iff_of_false (fun h ↦ absurd h.1 (Nat.not_lt.mpr hwidth)) (not_not_intro hlt)
  rw [shiftedOut?, encode?, hbytes]
  by_cases h : n.toNat < Nat.pow 256 width
  · rw [if_neg fun hleft ↦ hfits.mp hleft h, if_pos h]
  · rw [if_pos (hfits.mpr h), if_neg h]

/-- One more byte is shifted in without loss while a register holds at most seven. -/
theorem toNat_shiftIn {n : UInt64} (h : n.toNat < Nat.pow 256 7) (byte : UInt8) :
    (shiftIn byte n).toNat = byte.toNat + 256 * n.toNat := by
  have hbyte : byte.toNat < 2 ^ 8 := byte.toNat_lt
  have hword : n.toNat < 0x100000000000000 := h
  have hshift : n.toNat <<< 8 % 2 ^ 64 = n.toNat <<< 8 := by
    rw [Nat.shiftLeft_eq]
    omega
  rw [shiftIn, UInt64.toNat_or, UInt64.toNat_shiftLeft, UInt8.toNat_toUInt64]
  simp only [UInt64.reduceToNat, Nat.reduceMod, hshift]
  rw [← Nat.shiftLeft_add_eq_or_of_lt hbyte, Nat.shiftLeft_eq]
  omega

theorem toNat_foldr_shiftIn {b : Blob} (h : b.length ≤ 8) :
    (b.foldr shiftIn 0).toNat = value b := by
  induction b with
  | nil => rfl
  | cons byte b ih =>
    rw [List.length_cons] at h
    have hrest := ih (Nat.le_of_succ_le h)
    rw [List.foldr_cons, toNat_shiftIn, hrest, value_cons]
    rw [hrest]
    exact Nat.lt_of_lt_of_le (value_lt b) (pow_le_pow (Nat.le_of_succ_le_succ h))

theorem toNat_shiftedIn (b : Blob) : (shiftedIn b).toNat = decode b :=
  toNat_foldr_shiftIn (List.length_take_le 8 b)

end LittleEndian

/-! ## Both directions -/

open LittleEndian (encode? decode shiftedOut? shiftedIn encode?_decode_eq_self_iff shiftedOut?_eq
  toNat_shiftedIn isSome_encode?_iff length_bytes decode_bytes word_lt)

/-- **Words and their bytes.** A 64-bit word is encoded into a number of bytes if it is less than
that power of 256. The encoding has that many bytes and decodes to the word. A list of bytes is the
encoding of what it decodes to if it has at most eight of them, and a longer one exactly if all
others are zero. Registers of 64 bits compute the same. -/
theorem word_bytes_correspond (n : UInt64) (width : Nat) (b : Blob) :
    ((∃ c, encode? n.toNat width = some c) ↔ n.toNat < Nat.pow 256 width) ∧
      (∀ c, encode? n.toNat width = some c → c.length = width ∧ decode c = n.toNat) ∧
      (b.length ≤ 8 → encode? (decode b) b.length = some b) ∧
      (8 < b.length → (encode? (decode b) b.length = some b ↔ ∀ byte ∈ b.drop 8, byte = 0)) ∧
      shiftedOut? n width = encode? n.toNat width ∧ (shiftedIn b).toNat = decode b := by
  refine ⟨?_, fun c hc ↦ ?_, fun hshort ↦ ?_, fun _ ↦ encode?_decode_eq_self_iff,
    shiftedOut?_eq n width, toNat_shiftedIn b⟩
  · rw [← Option.isSome_iff_exists, isSome_encode?_iff]
  · have hfits := isSome_encode?_iff.mp (Option.isSome_of_eq_some hc)
    rw [encode?, if_pos hfits] at hc
    obtain rfl := Option.some.inj hc
    exact ⟨length_bytes width n.toNat, decode_bytes hfits (word_lt n)⟩
  · rw [encode?_decode_eq_self_iff, List.drop_eq_nil_of_le hshort]
    exact fun byte hbyte ↦ absurd hbyte List.not_mem_nil

/-- Nine bytes, of which eight are decoded. -/
def nineBytes : Blob := [0x01, 0x02, 0x03, 0x04, 0x05, 0x06, 0x07, 0x08, 0x09]

theorem word_bytes_correspond_at_nine_bytes :
    encode? 0xFFFFFFFFFFFFFFFF 9 = some (List.replicate 8 0xFF ++ [0x00]) ∧
      decode (List.replicate 8 0xFF ++ [0x00]) = 0xFFFFFFFFFFFFFFFF ∧
      8 < nineBytes.length ∧ encode? (decode nineBytes) nineBytes.length ≠ some nineBytes ∧
      (nineBytes.take 8).length ≤ 8 ∧
      encode? (decode (nineBytes.take 8)) (nineBytes.take 8).length = some (nineBytes.take 8) := by
  have hcode : encode? 0xFFFFFFFFFFFFFFFF 9 = some (List.replicate 8 0xFF ++ [0x00]) := by
    decide
  have hlong : 8 < nineBytes.length := by decide
  have hshort : (nineBytes.take 8).length ≤ 8 := by decide
  obtain ⟨-, hreads, -, hexact, -⟩ := word_bytes_correspond 0xFFFFFFFFFFFFFFFF 9 nineBytes
  refine ⟨hcode, (hreads _ hcode).2, hlong, fun h ↦ ?_, hshort,
    (word_bytes_correspond 0 0 (nineBytes.take 8)).2.2.1 hshort⟩
  exact absurd ((hexact hlong).mp h) (by decide)

end NativeApi

import NativeApi.Proofs.Numerals

/-!
# Integer literals

A literal spells an integer: a magnitude in decimal, or in hexadecimal behind `0x`, with at most one
sign in front. `IntegerLiteral.Spells` is this grammar, without any bound. A literal is read from a
text that spells an integer whose magnitude a word of 64 bits holds, and a signed number from one
that spells an integer within the bounds of a signed word (`literals_read_and_print`).

A literal is printed in the one canonical form of its integer, so it is read back from there.

The signed number is an unbounded integer here. `IntegerLiteral.register?` takes it from the
magnitude in registers of 64 bits, where the least number has to be treated apart, since its
magnitude is no signed word.
-/

namespace NativeApi

open Text (Numeral CanonicalNumeral)

theorem Text.signed?_eq_some {t : Text} {i : Int} :
    Text.signed? t = some i ↔
      ∃ l, IntegerLiteral.ofText? t = some l ∧ l.toInt = i ∧
        -Text.signedBound ≤ i ∧ i < Text.signedBound := by
  rw [Text.signed?, Option.filter_eq_some_iff, Option.map_eq_some_iff, decide_eq_true_iff]
  constructor
  · rintro ⟨⟨l, hl, hi⟩, h⟩
    exact ⟨l, hl, hi, h⟩
  · rintro ⟨l, hl, hi, h⟩
    exact ⟨⟨l, hl, hi⟩, h⟩

namespace IntegerLiteral

/-! ## Grammar -/

/-- A magnitude: decimal digits, or hexadecimal ones behind `0x` or `0X`. -/
inductive Magnitude : Text → Nat → Prop
  | decimal {t : Text} {n : Nat} (h : Numeral 10 t n) : Magnitude t n
  | hexadecimal {t : Text} {n : Nat} {x : UInt8} (hx : x = 0x78 ∨ x = 0x58)
      (h : Numeral 16 t n) : Magnitude (0x30 :: x :: t) n

/-- A magnitude with no sign, a plus sign or a minus sign in front. -/
inductive Spells : Text → Int → Prop
  | plain {t : Text} {n : Nat} (h : Magnitude t n) : Spells t n
  | plus {t : Text} {n : Nat} (h : Magnitude t n) : Spells (0x2B :: t) n
  | minus {t : Text} {n : Nat} (h : Magnitude t n) : Spells (0x2D :: t) (-n)

/-- The canonical text of an integer: the canonical numeral of its magnitude, behind a minus sign if
it is below zero. -/
def Canonical (t : Text) (i : Int) : Prop :=
  ∃ digits, CanonicalNumeral digits i.natAbs ∧ t = if i < 0 then 0x2D :: digits else digits

/-- The literal of an integer; zero has no sign. -/
def ofInt (i : Int) : IntegerLiteral := ⟨i.natAbs, decide (i < 0)⟩

variable {t : Text} {l : IntegerLiteral} {i : Int} {n : Nat}

@[simp] theorem toInt_ofInt (i : Int) : (ofInt i).toInt = i := by
  rw [toInt, ofInt]
  by_cases h : i < 0
  · rw [if_pos (decide_eq_true h)]
    exact (Int.eq_neg_natAbs_of_nonpos (Int.le_of_lt h)).symm
  · rw [if_neg (by simpa using h)]
    exact Int.natAbs_of_nonneg (Int.not_lt.mp h)

/-! ## Magnitudes -/

/-- No decimal numeral starts as a hexadecimal magnitude does. -/
theorem not_numeral_ten {x : UInt8} (hx : x = 0x78 ∨ x = 0x58) (b : UInt8) (t : Text) (n : Nat) :
    ¬Numeral 10 (b :: x :: t) n := by
  intro h
  have hdigit := Text.isDigit_iff.mpr (h.exists_digit (List.mem_cons_of_mem _ List.mem_cons_self))
  rcases hx with rfl | rfl
  · exact absurd hdigit (by decide)
  · exact absurd hdigit (by decide)

theorem word?_eq_some_iff {base : Nat} :
    Text.word? base t = some n ↔ Numeral base t n ∧ n < Text.wordBound := by
  rw [Text.word?, Option.filter_eq_some_iff, decide_eq_true_iff, Text.number?_eq_some_iff]

theorem magnitude?_eq_some_iff :
    magnitude? t = some n ↔ Magnitude t n ∧ n < Text.wordBound := by
  have hshort (h : ∀ x u, t = 0x30 :: x :: u → ¬(x = 0x78 ∨ x = 0x58)) :
      Text.word? 10 t = some n ↔ Magnitude t n ∧ n < Text.wordBound := by
    rw [word?_eq_some_iff]
    refine and_congr_left fun _ ↦ ⟨.decimal, fun hm ↦ ?_⟩
    cases hm with
    | decimal hn => exact hn
    | hexadecimal hx => exact absurd hx (h _ _ rfl)
  match t with
  | [] => exact hshort nofun
  | [b] => exact hshort nofun
  | zero :: x :: digits =>
    rw [magnitude?]
    split
    · rename_i hmark
      obtain ⟨rfl, hx⟩ := hmark
      rw [word?_eq_some_iff]
      refine and_congr_left fun _ ↦ ⟨.hexadecimal hx, fun hm ↦ ?_⟩
      cases hm with
      | decimal hn => exact absurd hn (not_numeral_ten hx _ _ _)
      | hexadecimal _ hn => exact hn
    · rename_i hmark
      refine hshort fun y u h hy ↦ hmark ?_
      cases h
      exact ⟨rfl, hy⟩

/-! ## Signs -/

/-- A magnitude starts with a digit, so what is in front of it can be told from it. -/
theorem Magnitude.splitSign_eq (h : Magnitude t n) : splitSign t = (false, t) := by
  have hfirst : ∀ b ∈ t.head?, Text.isDigit b = true := by
    cases h with
    | decimal hn =>
      exact fun b hb ↦ Text.isDigit_iff.mpr (hn.exists_digit (List.mem_of_mem_head? hb))
    | hexadecimal =>
      intro b hb
      cases hb
      decide
  cases t with
  | nil => rfl
  | cons b t =>
    have hb : Text.isDigit b = true := hfirst b rfl
    have hminus : b ≠ 0x2D := by
      rintro rfl
      exact absurd hb (by decide)
    have hplus : b ≠ 0x2B := by
      rintro rfl
      exact absurd hb (by decide)
    rw [splitSign, if_neg hminus, if_neg hplus]

theorem spells_iff : Spells t i ↔
    ∃ n, Magnitude (splitSign t).2 n ∧ i = if (splitSign t).1 then -(n : Int) else n := by
  constructor
  · intro h
    cases h with
    | plain h =>
      rw [h.splitSign_eq]
      exact ⟨_, h, rfl⟩
    | plus h => exact ⟨_, h, rfl⟩
    | minus h => exact ⟨_, h, rfl⟩
  · rintro ⟨n, h, rfl⟩
    match t with
    | [] => exact .plain h
    | b :: t =>
      by_cases hminus : b = 0x2D
      · subst hminus
        exact .minus h
      · by_cases hplus : b = 0x2B
        · subst hplus
          exact .plus h
        · simp only [splitSign, if_neg hminus, if_neg hplus] at h ⊢
          exact .plain h

theorem Magnitude.unique {m : Nat} (h : Magnitude t n) (h' : Magnitude t m) : n = m := by
  have hsame {base : Nat} {u : Text} (h : Numeral base u n) (h' : Numeral base u m) : n = m := by
    rw [← Text.number?_eq_some_iff] at h h'
    exact Option.some.inj (h.symm.trans h')
  cases h with
  | decimal hn =>
    cases h' with
    | decimal hm => exact hsame hn hm
    | hexadecimal hx => exact absurd hn (not_numeral_ten hx _ _ _)
  | hexadecimal hx hn =>
    cases h' with
    | decimal hm => exact absurd hm (not_numeral_ten hx _ _ _)
    | hexadecimal _ hm => exact hsame hn hm

/-- A text spells one integer at most. -/
theorem Spells.unique {j : Int} (h : Spells t i) (h' : Spells t j) : i = j := by
  obtain ⟨n, hn, rfl⟩ := spells_iff.mp h
  obtain ⟨m, hm, rfl⟩ := spells_iff.mp h'
  rw [hn.unique hm]

/-! ## Literals -/

/-- **Reading literals.** A literal is read from a text that spells an integer whose magnitude is a
word of 64 bits, and is the literal of that integer. -/
theorem ofText?_eq_some_iff :
    ofText? t = some l ↔ ∃ i, Spells t i ∧ i.natAbs < Text.wordBound ∧ l = ofInt i := by
  simp only [ofText?, Option.map_eq_some_iff, magnitude?_eq_some_iff, spells_iff]
  have hsigned (n : Nat) (minus : Bool) :
      ofInt (if minus then -(n : Int) else n) = ⟨n, minus && n != 0⟩ := by
    cases minus with
    | false => simp [ofInt]
    | true =>
      have hneg : decide (-(n : Int) < 0) = (n != 0) := by
        rw [Bool.eq_iff_iff, decide_eq_true_iff, bne_iff_ne]
        omega
      rw [if_pos rfl, ofInt, Int.natAbs_neg, Int.natAbs_natCast, hneg, Bool.true_and]
  have habs (n : Nat) (minus : Bool) : (if minus then -(n : Int) else n).natAbs = n := by
    cases minus <;> simp
  constructor
  · rintro ⟨n, ⟨hm, hn⟩, rfl⟩
    exact ⟨_, ⟨n, hm, rfl⟩, (habs n _).symm ▸ hn, (hsigned n _).symm⟩
  · rintro ⟨i, ⟨n, hm, rfl⟩, hn, rfl⟩
    exact ⟨n, ⟨hm, habs n _ ▸ hn⟩, (hsigned n _).symm⟩

theorem signed?_eq_some_iff : Text.signed? t = some i ↔
    Spells t i ∧ -Text.signedBound ≤ i ∧ i < Text.signedBound := by
  rw [Text.signed?_eq_some]
  constructor
  · rintro ⟨l, hl, rfl, hlower, hupper⟩
    obtain ⟨i, hspells, -, rfl⟩ := ofText?_eq_some_iff.mp hl
    rw [toInt_ofInt] at hlower hupper ⊢
    exact ⟨hspells, hlower, hupper⟩
  · rintro ⟨hspells, hlower, hupper⟩
    have hword : i.natAbs < Text.wordBound := by
      rw [Text.signedBound] at hlower hupper
      rw [Text.wordBound]
      omega
    exact ⟨ofInt i, ofText?_eq_some_iff.mpr ⟨i, hspells, hword, rfl⟩, toInt_ofInt i, hlower,
      hupper⟩

/-! ## Texts -/

theorem canonical_iff : Canonical t i ↔ t = (ofInt i).text := by
  simp only [Canonical, Text.canonicalNumeral_iff, exists_eq_left, text, ofInt, decide_eq_true_iff]
  exact Iff.rfl

theorem Canonical.spells (h : Canonical t i) : Spells t i := by
  obtain ⟨digits, ⟨hdigits, -⟩, rfl⟩ := h
  split
  · rename_i hi
    have habs := Int.eq_neg_natAbs_of_nonpos (Int.le_of_lt hi)
    conv_rhs => rw [habs]
    exact .minus (.decimal hdigits)
  · rename_i hi
    have habs := Int.natAbs_of_nonneg (Int.not_lt.mp hi)
    conv_rhs => rw [← habs]
    exact .plain (.decimal hdigits)

theorem ofText?_text_ofInt (h : i.natAbs < Text.wordBound) :
    ofText? (ofInt i).text = some (ofInt i) :=
  ofText?_eq_some_iff.mpr ⟨i, (canonical_iff.mpr rfl).spells, h, rfl⟩

/-! ## Registers -/

/-- The signed word of a literal, from its magnitude in a register. Above zero the magnitudes end
one below the greatest one below zero. -/
def register? (l : IntegerLiteral) : Option Int64 :=
  let magnitude := UInt64.ofNat l.magnitude
  if l.negative then
    if 0x8000000000000000 < magnitude then none
    else if magnitude = 0x8000000000000000 then some Int64.minValue
    else some (-magnitude.toInt64)
  else if 0x7FFFFFFFFFFFFFFF < magnitude then none
  else some magnitude.toInt64

/-- Nothing is lost in the registers: the signed word is the integer that the literal denotes, and
there is none exactly if no signed word is that integer. -/
theorem map_toInt_register? (h : l.magnitude < Text.wordBound) :
    l.register?.map Int64.toInt = if -Text.signedBound ≤ l.toInt ∧ l.toInt < Text.signedBound
      then some l.toInt else none := by
  obtain ⟨m, negative⟩ := l
  have hm : (UInt64.ofNat m).toNat = m := UInt64.toNat_ofNat_of_lt' h
  simp only [register?, toInt, Text.signedBound, UInt64.lt_iff_toNat_lt, ← UInt64.toNat_inj, hm,
    UInt64.reduceToNat, UInt64.toInt64_ofNat']
  cases negative with
  | false =>
    by_cases hm : 0x7FFFFFFFFFFFFFFF < m
    · rw [if_neg Bool.false_ne_true, if_pos hm, if_neg Bool.false_ne_true, if_neg (by omega)]
      rfl
    · have hword : m < 2 ^ 63 := by omega
      rw [if_neg Bool.false_ne_true, if_neg hm, if_neg Bool.false_ne_true, if_pos (by omega),
        Option.map_some, Int64.toInt_ofNat_of_lt hword]
  | true =>
    by_cases hm : 0x8000000000000000 < m
    · rw [if_pos rfl, if_pos hm, if_pos rfl, if_neg (by omega)]
      rfl
    · have hword : m ≤ 2 ^ 63 := by omega
      rw [if_pos rfl, if_neg hm, if_pos rfl]
      by_cases hleast : m = 0x8000000000000000
      · rw [if_pos hleast, hleast]
        rfl
      · rw [if_neg hleast, Option.map_some, Int64.toInt_neg_ofNat_of_le hword, if_pos (by omega)]

theorem map_toInt_bind_register? (t : Text) :
    ((ofText? t).bind register?).map Int64.toInt = Text.signed? t := by
  rw [Text.signed?]
  cases hl : ofText? t with
  | none => rfl
  | some l =>
    obtain ⟨i, -, hword, rfl⟩ := ofText?_eq_some_iff.mp hl
    rw [Option.bind_some, map_toInt_register? hword, Option.map_some, Option.filter_some]
    simp only [decide_eq_true_iff]

end IntegerLiteral

open IntegerLiteral (Spells Canonical register? ofText?)

/-- **Reading and printing literals.** A literal is read exactly from the texts that spell an
integer whose magnitude is below `2 ^ 64`: it is that magnitude, with a sign below zero. A signed
number is read exactly from those that spell one from `-2 ^ 63` up to `2 ^ 63 - 1`, and is what they
spell; registers of 64 bits compute it without loss. A literal that is read is printed as the
canonical text of its integer, and is read back from there. -/
theorem literals_read_and_print (t : Text) :
    (∀ l, ofText? t = some l ↔
      ∃ i, Spells t i ∧ i.natAbs < 0x10000000000000000 ∧ l = ⟨i.natAbs, decide (i < 0)⟩) ∧
      (∀ i, Text.signed? t = some i ↔
        Spells t i ∧ -0x8000000000000000 ≤ i ∧ i < 0x8000000000000000) ∧
      ((ofText? t).bind register?).map Int64.toInt = Text.signed? t ∧
      ∀ l, ofText? t = some l →
        (∀ u, Canonical u l.toInt ↔ u = l.text) ∧ ofText? l.text = some l := by
  refine ⟨fun l ↦ IntegerLiteral.ofText?_eq_some_iff, fun i ↦ IntegerLiteral.signed?_eq_some_iff,
    IntegerLiteral.map_toInt_bind_register? t, fun l hl ↦ ?_⟩
  obtain ⟨i, -, hword, rfl⟩ := IntegerLiteral.ofText?_eq_some_iff.mp hl
  rw [IntegerLiteral.toInt_ofInt]
  exact ⟨fun u ↦ IntegerLiteral.canonical_iff, IntegerLiteral.ofText?_text_ofInt hword⟩

/-- The least signed word in hexadecimal, with zeros in front. -/
def leastWord : Text := "-0x008000000000000000"

theorem literals_read_and_print_of_least_word :
    ofText? leastWord = some ⟨0x8000000000000000, true⟩ ∧
      Spells leastWord (-0x8000000000000000) ∧
      Text.signed? leastWord = some (-0x8000000000000000) ∧
      Canonical "-9223372036854775808" (-0x8000000000000000) ∧
      ofText? "-9223372036854775808" = some ⟨0x8000000000000000, true⟩ := by
  have hread : ofText? leastWord = some ⟨0x8000000000000000, true⟩ := by decide
  have hsigned : Text.signed? leastWord = some (-0x8000000000000000) := by decide
  have htext : IntegerLiteral.text ⟨0x8000000000000000, true⟩ = "-9223372036854775808" := by
    decide
  obtain ⟨-, hword, -, hprint⟩ := literals_read_and_print leastWord
  obtain ⟨hcanonical, hback⟩ := hprint _ hread
  rw [htext] at hback
  exact ⟨hread, ((hword _).mp hsigned).1, hsigned, (hcanonical _).mpr htext.symm, hback⟩

end NativeApi

import NativeApi.Guid

/-!
# Texts of GUIDs

A GUID is written as five groups of hexadecimal digits with dashes between them, and may have braces
around it. `Guid.isSome_ofText?_iff` says that these are the texts that are read, and
`Guid.ofText?_eq_some_iff` that a text is read as the bytes that its digits denote.
-/

namespace NativeApi

/-! ## Hexadecimal digits -/

namespace Text

/-- The decimal digits and the letters from A to F, of either case. -/
def isHexDigit (b : UInt8) : Bool :=
  isDigit b || (0x61 ≤ b && b ≤ 0x66) || (0x41 ≤ b && b ≤ 0x46)

theorem isSome_digitValue?_iff {b : UInt8} : (digitValue? b).isSome ↔ isHexDigit b := by
  rw [digitValue?, isHexDigit]
  cases isDigit b
  · cases (0x61 ≤ b && b ≤ 0x66 : Bool)
    · cases (0x41 ≤ b && b ≤ 0x46 : Bool) <;> simp
    · simp
  · simp

end Text

namespace Hex

/-- An even number of hexadecimal digits denotes a blob of half the length. -/
theorem exists_ofDigits? {t : Text} {n : Nat} (hlength : t.length = 2 * n)
    (h : ∀ b ∈ t, Text.isHexDigit b) : ∃ blob, ofDigits? t = some blob ∧ blob.length = n := by
  induction n generalizing t with
  | zero =>
    rw [List.eq_nil_of_length_eq_zero hlength]
    exact ⟨[], rfl, rfl⟩
  | succ n ih =>
    obtain ⟨high, low, rest, rfl⟩ : ∃ high low rest, t = high :: low :: rest := by
      match t, hlength with
      | high :: low :: rest, _ => exact ⟨high, low, rest, rfl⟩
    rw [List.forall_mem_cons, List.forall_mem_cons] at h
    obtain ⟨hhigh, hlow, hrest⟩ := h
    obtain ⟨v, hv⟩ := Option.isSome_iff_exists.mp (Text.isSome_digitValue?_iff.mpr hhigh)
    obtain ⟨w, hw⟩ := Option.isSome_iff_exists.mp (Text.isSome_digitValue?_iff.mpr hlow)
    have hhalf : rest.length = 2 * n := by
      simp only [List.length_cons] at hlength
      omega
    obtain ⟨blob, hblob, hcount⟩ := ih hhalf hrest
    refine ⟨UInt8.ofNat (16 * v + w) :: blob, ?_, ?_⟩
    · simp [ofDigits?, hv, hw, hblob]
    · rw [List.length_cons, hcount]

/-- Nothing but hexadecimal digits denotes a blob. -/
theorem isHexDigit_of_ofDigits? {t : Text} {blob : Blob} (h : ofDigits? t = some blob) :
    ∀ b ∈ t, Text.isHexDigit b := by
  induction t using ofDigits?.induct generalizing blob with
  | case1 => exact fun b hb ↦ absurd hb List.not_mem_nil
  | case2 b => cases h
  | case3 high low rest ih =>
    simp only [ofDigits?, Option.bind_eq_bind, Option.bind_eq_some_iff] at h
    obtain ⟨v, hv, w, hw, tail, htail, -⟩ := h
    rw [List.forall_mem_cons, List.forall_mem_cons]
    refine ⟨?_, ?_, ih htail⟩
    · exact Text.isSome_digitValue?_iff.mp (Option.isSome_of_eq_some hv)
    · exact Text.isSome_digitValue?_iff.mp (Option.isSome_of_eq_some hw)

end Hex

/-! ## GUIDs -/

namespace Guid

/-- Five groups of hexadecimal digits between dashes, with braces around them or without. -/
def Written (t : Text) : Prop :=
  ∃ groups : List Text, groups.map List.length = [8, 4, 4, 4, 12] ∧
    (∀ group ∈ groups, ∀ b ∈ group, Text.isHexDigit b) ∧
    (t = Text.joinWith dash groups ∨ t = 0x7B :: (Text.joinWith dash groups ++ [0x7D]))

/-- Sixteen bytes are read from groups that hold enough digits. -/
theorem isSome_bind_ofBytes?_iff {groups : List Text} (h : groups.map List.length = groupLengths) :
    ((Hex.ofDigits? groups.flatten).bind ofBytes?).isSome ↔
      ∀ group ∈ groups, ∀ b ∈ group, Text.isHexDigit b := by
  have hlength : groups.flatten.length = 2 * 16 := by
    rw [List.length_flatten, h]
    rfl
  constructor
  · intro hsome group hgroup b hb
    obtain ⟨g, hg⟩ := Option.isSome_iff_exists.mp hsome
    obtain ⟨blob, hblob, -⟩ := Option.bind_eq_some_iff.mp hg
    exact Hex.isHexDigit_of_ofDigits? hblob b (List.mem_flatten_of_mem hgroup hb)
  · intro hdigits
    obtain ⟨blob, hblob, hcount⟩ := Hex.exists_ofDigits? hlength fun b hb ↦ by
      obtain ⟨group, hgroup, hb⟩ := List.mem_flatten.mp hb
      exact hdigits group hgroup b hb
    rw [hblob, Option.bind_some, ofBytes?, dif_pos hcount]
    rfl

/-! ### Groups -/

/-- Five groups of digits, and the text that they make up with dashes between them. -/
structure Groups (groups : List Text) (u : Text) : Prop where
  lengths : groups.map List.length = groupLengths
  digits : ∀ group ∈ groups, ∀ b ∈ group, Text.isHexDigit b
  eq_joinWith : u = Text.joinWith dash groups

theorem ne_dash_of_isHexDigit {b : UInt8} (h : Text.isHexDigit b) : b ≠ dash := by
  rintro rfl
  exact absurd h (by decide)

namespace Groups

variable {groups : List Text} {u : Text}

theorem ne_nil (h : Groups groups u) : groups ≠ [] := by
  rintro rfl
  cases h.lengths

theorem dash_notMem (h : Groups groups u) : ∀ group ∈ groups, dash ∉ group := by
  intro group hgroup hmem
  exact ne_dash_of_isHexDigit (h.digits group hgroup dash hmem) rfl

theorem splitOn_eq (h : Groups groups u) : Text.splitOn dash u = groups := by
  rw [h.eq_joinWith, Text.splitOn_joinWith h.ne_nil h.dash_notMem]

end Groups

variable {t : Text} {g : Guid}

theorem ofBytes?_eq_some_iff {b : Blob} : ofBytes? b = some g ↔ b = g.bytes := by
  rw [ofBytes?]
  constructor
  · intro h
    split at h
    · cases h
      rfl
    · cases h
  · rintro rfl
    rw [dif_pos g.length_bytes]

/-- A text is read as a GUID if it consists of groups whose digits denote its bytes. -/
theorem ofText?_eq_some_iff : ofText? t = some g ↔
    ∃ groups, Groups groups (unbraced t) ∧ Hex.ofDigits? groups.flatten = some g.bytes := by
  rw [ofText?]
  constructor
  · intro h
    split at h
    · rename_i hlengths
      have hdigits := (isSome_bind_ofBytes?_iff hlengths).mp (Option.isSome_of_eq_some h)
      obtain ⟨b, hb, hg⟩ := Option.bind_eq_some_iff.mp h
      refine ⟨_, ⟨hlengths, hdigits, (Text.joinWith_splitOn _ _).symm⟩, ?_⟩
      rw [hb, ofBytes?_eq_some_iff.mp hg]
    · cases h
  · rintro ⟨groups, hgroups, hbytes⟩
    rw [hgroups.splitOn_eq, if_pos hgroups.lengths, hbytes, Option.bind_some,
      ofBytes?_eq_some_iff]

theorem isSome_ofText?_iff_groups : (ofText? t).isSome ↔ ∃ groups, Groups groups (unbraced t) := by
  constructor
  · intro h
    obtain ⟨g, hg⟩ := Option.isSome_iff_exists.mp h
    obtain ⟨groups, hgroups, -⟩ := ofText?_eq_some_iff.mp hg
    exact ⟨groups, hgroups⟩
  · rintro ⟨groups, hgroups⟩
    rw [ofText?, hgroups.splitOn_eq, if_pos hgroups.lengths]
    exact (isSome_bind_ofBytes?_iff hgroups.lengths).mpr hgroups.digits

/-! ### Braces -/

theorem unbraced_braces (t : Text) : unbraced (0x7B :: (t ++ [0x7D])) = t := by
  have h : 2 ≤ (0x7B :: (t ++ [0x7D])).length ∧ (0x7B :: (t ++ [0x7D])).head? = some 0x7B ∧
      (0x7B :: (t ++ [0x7D])).getLast? = some 0x7D := by
    refine ⟨?_, rfl, ?_⟩
    · rw [List.length_cons, List.length_append]
      exact Nat.succ_le_succ (Nat.le_add_left 1 t.length)
    · rw [← List.cons_append, List.getLast?_concat]
  rw [unbraced, if_pos h, List.tail_cons, List.dropLast_concat]

theorem unbraced_of_head?_ne {t : Text} (h : t.head? ≠ some 0x7B) : unbraced t = t := by
  rw [unbraced, if_neg fun hbraces ↦ h hbraces.2.1]

/-- Either there were no braces to take off, or they can be put back. -/
theorem eq_unbraced_or (t : Text) :
    t = unbraced t ∨ t = 0x7B :: (unbraced t ++ [0x7D]) := by
  rw [unbraced]
  split
  · rename_i h
    obtain ⟨hlength, hhead, hlast⟩ := h
    obtain ⟨front, rfl⟩ := List.getLast?_eq_some_iff.mp hlast
    cases front with
    | nil => exact absurd hlength (by decide)
    | cons b front =>
      cases hhead
      rw [List.cons_append, List.tail_cons, List.dropLast_concat]
      exact .inr rfl
  · exact .inl rfl

/-- **Well-formed texts.** The texts that are read as a GUID are those that are written as one. -/
theorem isSome_ofText?_iff {t : Text} : (ofText? t).isSome ↔ Written t := by
  rw [isSome_ofText?_iff_groups]
  constructor
  · rintro ⟨groups, hlengths, hdigits, hjoin⟩
    refine ⟨groups, hlengths, hdigits, ?_⟩
    rw [← hjoin]
    exact eq_unbraced_or t
  · rintro ⟨groups, hlengths, hdigits, rfl | rfl⟩
    · refine ⟨groups, hlengths, hdigits, unbraced_of_head?_ne fun hhead ↦ ?_⟩
      obtain ⟨group, others, rfl⟩ : ∃ group others, groups = group :: others := by
        refine List.exists_cons_of_ne_nil ?_
        rintro rfl
        cases hlengths
      obtain ⟨hlength, -⟩ := List.cons.inj hlengths
      obtain ⟨b, digits, rfl⟩ := List.exists_cons_of_length_pos (by omega : 0 < group.length)
      -- A brace in front would be a digit of the first group.
      rw [Text.head?_joinWith, Option.some.injEq] at hhead
      have hdigit := hdigits (b :: digits) List.mem_cons_self b List.mem_cons_self
      rw [hhead] at hdigit
      exact absurd hdigit (by decide)
    · exact ⟨groups, hlengths, hdigits, unbraced_braces _⟩

end Guid

end NativeApi

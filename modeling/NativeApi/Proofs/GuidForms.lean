import NativeApi.Blob.Attribute
import NativeApi.Proofs.HexText
import NativeApi.Proofs.OneLine
import NativeApi.Proofs.Reachable

/-!
# Texts, bytes and blobs of a GUID

A GUID has three forms: its text, its sixteen bytes and the blob of an attribute, which begins with
three reversed words. `guid_forms_agree` says that each form can be read back from the next one.

A text can be read in two ways. One splits it at dashes and looks at the lengths of the groups. The
other, `walk`, goes over the text by offsets and takes two bytes at a time, as if the second were
always there. What keeps it inside the text is that the bytes read so far and the dashes met so far
account for the offset: a digit with a dash behind it, or with nothing behind it, is never the first
of two.
-/

namespace NativeApi

namespace Guid

/-! ## Canonical texts -/

variable {t u : Text} {g : Guid}

/-- The digits of a GUID, by groups. -/
def textGroups (g : Guid) : List Text :=
  [Hex.digits (g.bytes.take 4), Hex.digits ((g.bytes.drop 4).take 2),
    Hex.digits ((g.bytes.drop 6).take 2), Hex.digits ((g.bytes.drop 8).take 2),
    Hex.digits (g.bytes.drop 10)]

theorem flatten_textGroups (g : Guid) : g.textGroups.flatten = Hex.digits g.bytes := by
  have hcut (b : Blob) (n k : Nat) : (b.drop n).take k ++ b.drop (n + k) = b.drop n := by
    rw [← List.drop_drop, List.take_append_drop]
  rw [textGroups]
  simp only [List.flatten_cons, List.flatten_nil, List.append_nil, ← Hex.digits_append]
  rw [hcut g.bytes 8 2, hcut g.bytes 6 2, hcut g.bytes 4 2, List.take_append_drop]

theorem groups_text (g : Guid) : Groups g.textGroups g.text where
  lengths := by
    simp only [textGroups, List.map_cons, List.map_nil, Hex.length_digits, List.length_take,
      List.length_drop, g.length_bytes]
    rfl
  digits group hgroup b hb := by
    refine Hex.forall_mem_digits (Q := fun b ↦ Text.isHexDigit b) (by decide) g.bytes b ?_
    rw [← flatten_textGroups]
    exact List.mem_flatten_of_mem hgroup hb
  eq_joinWith := rfl

/-- No brace is taken off a canonical text. -/
theorem unbraced_text (g : Guid) : unbraced g.text = g.text := by
  refine unbraced_of_head?_ne fun hhead ↦ ?_
  have hbrace := forall_mem_text (Q := (· ≠ 0x7B)) (by decide) (by decide) g
  exact hbrace 0x7B (List.mem_of_head? hhead) rfl

/-- A GUID that is written is read back. -/
theorem ofText?_text (g : Guid) : ofText? g.text = some g := by
  refine ofText?_eq_some_iff.mpr ⟨g.textGroups, ?_, ?_⟩
  · rw [unbraced_text]
    exact g.groups_text
  · rw [flatten_textGroups, Hex.ofDigits?_digits]

theorem toUpper_joinWith (groups : List Text) :
    Text.toUpper (Text.joinWith dash groups) = Text.joinWith dash (groups.map Text.toUpper) := by
  induction groups with
  | nil => rfl
  | cons group others ih =>
    by_cases hothers : others = []
    · rw [hothers, List.map_singleton, Text.joinWith_singleton, Text.joinWith_singleton]
    · have hmapped : others.map Text.toUpper ≠ [] := by rwa [ne_eq, List.map_eq_nil_iff]
      rw [List.map_cons, Text.joinWith_cons _ _ hothers, Text.joinWith_cons _ _ hmapped, ← ih]
      simp only [Text.toUpper, List.map_append, List.map_cons]
      rfl

/-- A GUID that is read is written in upper case and without braces. -/
theorem text_of_ofText? (h : ofText? t = some g) : g.text = Text.toUpper (unbraced t) := by
  obtain ⟨groups, hgroups, hbytes⟩ := ofText?_eq_some_iff.mp h
  -- Both texts have groups of the same lengths, so it is enough that their digits are the same.
  have hsame : g.textGroups = groups.map Text.toUpper := by
    rw [List.eq_iff_flatten_eq, flatten_textGroups, Hex.digits_of_ofDigits? hbytes,
      g.groups_text.lengths, ← hgroups.lengths, List.map_map]
    refine ⟨List.map_flatten, List.map_congr_left fun group _ ↦ ?_⟩
    exact (List.length_map ..).symm
  rw [g.groups_text.eq_joinWith, hsame, hgroups.eq_joinWith, toUpper_joinWith]

/-! ## Offsets -/

/-- Where the dashes stand. -/
def dashOffsets : List Nat := [8, 13, 18, 23]

/-- What may stand at an offset: a dash at four of them, and a hexadecimal digit everywhere else. -/
def Allowed (i : Nat) (b : UInt8) : Prop :=
  if i ∈ dashOffsets then b = dash else Text.isHexDigit b

/-- Every byte of a text is allowed, if the text begins at an offset. -/
def Fits (p : Nat) (v : Text) : Prop := ∀ i b, v[i]? = some b → Allowed (p + i) b

/-- The form of a text without braces, byte by byte. -/
def Shaped (u : Text) : Prop := u.length = 36 ∧ ∀ i b, u[i]? = some b → Allowed i b

section Offsets

variable {p n : Nat} {b : UInt8} {group rest v : Text}

theorem allowed_dash_iff (h : p ∈ dashOffsets) : Allowed p b ↔ b = dash := by
  rw [Allowed, if_pos h]

theorem allowed_digit_iff (h : p ∉ dashOffsets) : Allowed p b ↔ Text.isHexDigit b := by
  rw [Allowed, if_neg h]

theorem shaped_iff : Shaped u ↔ u.length = 36 ∧ Fits 0 u := by
  simp only [Shaped, Fits, Nat.zero_add]

theorem fits_nil (p : Nat) : Fits p [] := by
  intro i b h
  cases h

theorem fits_cons_iff : Fits p (b :: v) ↔ Allowed p b ∧ Fits (p + 1) v := by
  constructor
  · intro h
    refine ⟨h 0 b rfl, fun i c hc ↦ ?_⟩
    rw [Nat.add_right_comm]
    exact h (i + 1) c hc
  · rintro ⟨hb, hv⟩ i c hc
    cases i with
    | zero =>
      cases hc
      exact hb
    | succ i =>
      rw [← Nat.add_assoc, Nat.add_right_comm]
      exact hv i c hc

/-- A group is a stretch without dash offsets. -/
theorem fits_group_append_iff (hlength : group.length = n)
    (hoffsets : ∀ i < n, p + i ∉ dashOffsets) :
    Fits p (group ++ rest) ↔ (∀ b ∈ group, Text.isHexDigit b) ∧ Fits (p + n) rest := by
  induction group generalizing p n with
  | nil =>
    subst hlength
    exact (and_iff_right fun b hb ↦ absurd hb List.not_mem_nil).symm
  | cons b group ih =>
    subst hlength
    have hnext (i : Nat) (hi : i < group.length) : p + 1 + i ∉ dashOffsets := by
      rw [Nat.add_assoc, Nat.add_comm 1]
      exact hoffsets (i + 1) (Nat.succ_lt_succ hi)
    rw [List.cons_append, fits_cons_iff, ih rfl hnext, List.forall_mem_cons, List.length_cons,
      allowed_digit_iff (p := p) (hoffsets 0 (Nat.succ_pos _)), and_assoc, Nat.add_assoc,
      Nat.add_comm 1]

/-- A group with the dash behind it. -/
theorem fits_group_cons_iff (hlength : group.length = n)
    (hoffsets : ∀ i < n, p + i ∉ dashOffsets) (hdash : p + n ∈ dashOffsets) :
    Fits p (group ++ b :: rest) ↔
      (∀ b ∈ group, Text.isHexDigit b) ∧ b = dash ∧ Fits (p + n + 1) rest := by
  rw [fits_group_append_iff hlength hoffsets, fits_cons_iff, allowed_dash_iff hdash]

theorem exists_cut (h : n < u.length) :
    ∃ group b rest, group.length = n ∧ u = group ++ b :: rest := by
  refine ⟨u.take n, u[n], u.drop (n + 1), List.length_take_of_le h.le, ?_⟩
  rw [← List.drop_eq_getElem_cons h, List.take_append_drop]

/-- There are five groups, whatever holds of their bytes. -/
theorem eq_five_of_lengths {groups : List Text} (h : groups.map List.length = groupLengths) :
    ∃ g₀ g₁ g₂ g₃ g₄, groups = [g₀, g₁, g₂, g₃, g₄] ∧ g₀.length = 8 ∧ g₁.length = 4 ∧
      g₂.length = 4 ∧ g₃.length = 4 ∧ g₄.length = 12 := by
  simp only [groupLengths, List.map_eq_cons_iff, List.map_eq_nil_iff] at h
  obtain ⟨g₀, _, rfl, h₀, g₁, _, rfl, h₁, g₂, _, rfl, h₂, g₃, _, rfl, h₃, g₄, _, rfl, h₄, rfl⟩ := h
  exact ⟨g₀, g₁, g₂, g₃, g₄, rfl, h₀, h₁, h₂, h₃, h₄⟩

theorem joinWith_five (g₀ g₁ g₂ g₃ g₄ : Text) : Text.joinWith dash [g₀, g₁, g₂, g₃, g₄] =
    g₀ ++ dash :: (g₁ ++ dash :: (g₂ ++ dash :: (g₃ ++ dash :: g₄))) := by
  simp [Text.joinWith, List.intercalate]

/-- Five stretches of the lengths of the groups, with a byte between any two of them, have the form
if they are groups of digits and the bytes are dashes. -/
theorem fits_five_iff {g₀ g₁ g₂ g₃ g₄ : Text} {c₀ c₁ c₂ c₃ : UInt8} (h₀ : g₀.length = 8)
    (h₁ : g₁.length = 4) (h₂ : g₂.length = 4) (h₃ : g₃.length = 4) (h₄ : g₄.length = 12) :
    Fits 0 (g₀ ++ c₀ :: (g₁ ++ c₁ :: (g₂ ++ c₂ :: (g₃ ++ c₃ :: g₄)))) ↔
      (∀ group ∈ [g₀, g₁, g₂, g₃, g₄], ∀ b ∈ group, Text.isHexDigit b) ∧
        c₀ = dash ∧ c₁ = dash ∧ c₂ = dash ∧ c₃ = dash := by
  have hlast : Fits 24 g₄ ↔ ∀ b ∈ g₄, Text.isHexDigit b := by
    rw [← List.append_nil g₄, fits_group_append_iff h₄ (by decide), List.append_nil,
      and_iff_left (fits_nil _)]
  rw [fits_group_cons_iff h₀ (by decide) (by decide),
    fits_group_cons_iff h₁ (by decide) (by decide), fits_group_cons_iff h₂ (by decide) (by decide),
    fits_group_cons_iff h₃ (by decide) (by decide), hlast]
  simp only [List.forall_mem_cons, List.not_mem_nil, false_imp_iff, implies_true, and_true]
  tauto

/-- The two descriptions of a text, by groups and by offsets, agree. -/
theorem shaped_iff_groups : Shaped u ↔ ∃ groups, Groups groups u := by
  rw [shaped_iff]
  constructor
  · rintro ⟨hlength, hfits⟩
    obtain ⟨g₀, c₀, r₀, h₀, rfl⟩ := exists_cut (n := 8) (u := u) (by omega)
    rw [List.length_append, List.length_cons] at hlength
    obtain ⟨g₁, c₁, r₁, h₁, rfl⟩ := exists_cut (n := 4) (u := r₀) (by omega)
    rw [List.length_append, List.length_cons] at hlength
    obtain ⟨g₂, c₂, r₂, h₂, rfl⟩ := exists_cut (n := 4) (u := r₁) (by omega)
    rw [List.length_append, List.length_cons] at hlength
    obtain ⟨g₃, c₃, g₄, h₃, rfl⟩ := exists_cut (n := 4) (u := r₂) (by omega)
    rw [List.length_append, List.length_cons] at hlength
    have h₄ : g₄.length = 12 := by omega
    obtain ⟨hdigits, rfl, rfl, rfl, rfl⟩ := (fits_five_iff h₀ h₁ h₂ h₃ h₄).mp hfits
    refine ⟨[g₀, g₁, g₂, g₃, g₄], ?_, hdigits, (joinWith_five ..).symm⟩
    simp only [List.map_cons, List.map_nil, h₀, h₁, h₂, h₃, h₄]
    rfl
  · rintro ⟨groups, hgroups⟩
    obtain ⟨g₀, g₁, g₂, g₃, g₄, rfl, h₀, h₁, h₂, h₃, h₄⟩ := eq_five_of_lengths hgroups.lengths
    rw [hgroups.eq_joinWith, joinWith_five]
    refine ⟨?_, (fits_five_iff h₀ h₁ h₂ h₃ h₄).mpr ⟨hgroups.digits, rfl, rfl, rfl, rfl⟩⟩
    simp only [List.length_append, List.length_cons, h₀, h₁, h₂, h₃, h₄]

end Offsets

/-! ## Walking over a text -/

/-- What a walk comes to. A walk is `outside` if it asks for a byte that the text does not have. -/
inductive Walk
  | outside
  | refused
  | read (bytes : Blob)
  deriving DecidableEq, Repr

/-- Goes on over a text at an offset, with the bytes that have been read so far. -/
def walk (u : Text) (p : Nat) (bytes : Blob) : Walk :=
  if p < u.length then
    if p ∈ dashOffsets then
      if u[p]? = some dash then walk u (p + 1) bytes else .refused
    else
      match u[p]?, u[p + 1]? with
      | some high, some low =>
        match Text.digitValue? high, Text.digitValue? low with
        | some h, some l =>
          if bytes.length < 16 then walk u (p + 2) (bytes ++ [UInt8.ofNat (16 * h + l)])
          else .refused
        | _, _ => .refused
      | _, _ => .outside
  else if bytes.length = 16 then .read bytes else .refused
termination_by u.length - p

/-- Walks over a text from its beginning, if it has the right length without its braces. -/
def walked (t : Text) : Walk :=
  if (unbraced t).length = 36 then walk (unbraced t) 0 [] else .refused

/-- How many dashes stand before an offset. -/
def dashesBefore (p : Nat) : Nat := dashOffsets.countP (· < p)

theorem dashesBefore_succ : ∀ p ∈ dashOffsets, dashesBefore (p + 1) = dashesBefore p + 1 := by
  decide

/-- Where digits are due and an even number of them has been taken, the next two are there. -/
theorem room_for_pair : ∀ p < 36, p ∉ dashOffsets → (p - dashesBefore p) % 2 = 0 →
    p - dashesBefore p < 32 ∧ p + 1 < 36 ∧ p + 1 ∉ dashOffsets ∧
      dashesBefore (p + 2) = dashesBefore p := by decide

/-- The bytes that have been read and the dashes that have been met account for an offset. -/
def Accounts (p : Nat) (bytes : Blob) : Prop := p = 2 * bytes.length + dashesBefore p

namespace Accounts

variable {p : Nat} {bytes : Blob}

theorem zero : Accounts 0 [] := by
  rw [Accounts]
  decide

theorem dash (h : Accounts p bytes) (hp : p ∈ dashOffsets) : Accounts (p + 1) bytes := by
  rw [Accounts] at h
  rw [Accounts, dashesBefore_succ p hp]
  omega

theorem pair (h : Accounts p bytes) (hp : p ∉ dashOffsets) (hlt : p < 36) :
    bytes.length < 16 ∧ p + 1 < 36 ∧ p + 1 ∉ dashOffsets ∧
      ∀ byte, Accounts (p + 2) (bytes ++ [byte]) := by
  rw [Accounts] at h
  obtain ⟨hroom, hinside, hnext, hsame⟩ := room_for_pair p hlt hp (by omega)
  refine ⟨by omega, hinside, hnext, fun byte ↦ ?_⟩
  rw [Accounts, hsame, List.length_append, List.length_singleton]
  omega

theorem length_eq (h : Accounts 36 bytes) : bytes.length = 16 := by
  have hdashes : dashesBefore 36 = 4 := by decide
  rw [Accounts, hdashes] at h
  omega

end Accounts

theorem filter_cons_of_isHexDigit {b : UInt8} (h : Text.isHexDigit b) (v : Text) :
    (b :: v).filter (· ≠ dash) = b :: v.filter (· ≠ dash) :=
  List.filter_cons_of_pos (decide_eq_true (ne_dash_of_isHexDigit h))

/-- What a walk over the rest of a text has to come to: the bytes that the digits of the rest denote
are read if it has the form, and it is refused if it does not. -/
def Decides (p : Nat) (v : Text) (bytes : Blob) (w : Walk) : Prop :=
  ¬Fits p v ∧ w = .refused ∨
    Fits p v ∧ ∃ b, Hex.ofDigits? (v.filter (· ≠ dash)) = some b ∧ w = .read (bytes ++ b)

namespace Decides

variable {p : Nat} {v : Text} {bytes : Blob} {w : Walk}

theorem end_of_text : Decides p [] bytes (.read bytes) :=
  .inr ⟨fits_nil p, [], rfl, by rw [List.append_nil]⟩

theorem refused (h : ¬Fits p v) : Decides p v bytes .refused := .inl ⟨h, rfl⟩

theorem dash (hp : p ∈ dashOffsets) (h : Decides (p + 1) v bytes w) :
    Decides p (dash :: v) bytes w := by
  have hfits : Fits p (Guid.dash :: v) ↔ Fits (p + 1) v := by
    rw [fits_cons_iff, allowed_dash_iff hp, and_iff_right rfl]
  rwa [Decides, hfits, List.filter_cons_of_neg (by decide)]

theorem pair {high low : UInt8} {x y : Nat} (hp : p ∉ dashOffsets) (hnext : p + 1 ∉ dashOffsets)
    (hhigh : Text.digitValue? high = some x) (hlow : Text.digitValue? low = some y)
    (h : Decides (p + 2) v (bytes ++ [UInt8.ofNat (16 * x + y)]) w) :
    Decides p (high :: low :: v) bytes w := by
  have hhighdigit := Text.isSome_digitValue?_iff.mp (Option.isSome_of_eq_some hhigh)
  have hlowdigit := Text.isSome_digitValue?_iff.mp (Option.isSome_of_eq_some hlow)
  have hfits : Fits p (high :: low :: v) ↔ Fits (p + 2) v := by
    rw [fits_cons_iff, fits_cons_iff, allowed_digit_iff hp, allowed_digit_iff hnext,
      and_iff_right hhighdigit, and_iff_right hlowdigit]
  rw [Decides, hfits, filter_cons_of_isHexDigit hhighdigit, filter_cons_of_isHexDigit hlowdigit]
  obtain ⟨hv, hw⟩ | ⟨hv, b, hb, hw⟩ := h
  · exact .inl ⟨hv, hw⟩
  · refine .inr ⟨hv, UInt8.ofNat (16 * x + y) :: b, ?_, ?_⟩
    · rw [Hex.ofDigits?, hhigh, hlow, hb]
      rfl
    · rw [hw, List.append_assoc, List.singleton_append]

end Decides

theorem drop_of_getElem? {p : Nat} {b : UInt8} (h : u[p]? = some b) :
    u.drop p = b :: u.drop (p + 1) := by
  obtain ⟨hlt, hb⟩ := List.getElem?_eq_some_iff.mp h
  rw [List.drop_eq_getElem_cons hlt, hb]

/-- From an offset that is accounted for, a walk decides the rest of a text. -/
theorem walk_spec {p : Nat} {bytes : Blob} (hlength : u.length = 36) (h : Accounts p bytes)
    (hp : p ≤ 36) : Decides p (u.drop p) bytes (walk u p bytes) := by
  fun_induction walk u p bytes with
  | case1 p bytes hlt hoffset hdash ih =>
    rw [drop_of_getElem? hdash]
    exact .dash hoffset (ih (h.dash hoffset) (hlength ▸ hlt))
  | case2 p bytes hlt hoffset hdash =>
    refine .refused fun hfits ↦ hdash ?_
    rw [List.drop_eq_getElem_cons hlt, fits_cons_iff, allowed_dash_iff hoffset] at hfits
    rw [List.getElem?_eq_getElem hlt, hfits.1]
  | case3 p bytes hlt hoffset high low hlow hhigh x y hy hx hroom ih =>
    obtain ⟨-, hinside, hnext, haccounts⟩ := h.pair hoffset (hlength ▸ hlt)
    rw [drop_of_getElem? hhigh, drop_of_getElem? hlow]
    exact .pair hoffset hnext hx hy (ih (haccounts _) hinside)
  | case4 p bytes hlt hoffset high low hlow hhigh x y hy hx hroom =>
    exact absurd (h.pair hoffset (hlength ▸ hlt)).1 hroom
  | case5 p bytes hlt hoffset high low hlow hhigh hvalues =>
    obtain ⟨-, -, hnext, -⟩ := h.pair hoffset (hlength ▸ hlt)
    refine .refused fun hfits ↦ ?_
    rw [drop_of_getElem? hhigh, drop_of_getElem? hlow, fits_cons_iff, fits_cons_iff,
      allowed_digit_iff hoffset, allowed_digit_iff hnext] at hfits
    obtain ⟨x, hx⟩ := Option.isSome_iff_exists.mp (Text.isSome_digitValue?_iff.mpr hfits.1)
    obtain ⟨y, hy⟩ := Option.isSome_iff_exists.mp (Text.isSome_digitValue?_iff.mpr hfits.2.1)
    exact hvalues x y hx hy
  | case6 p bytes hlt hoffset hinside =>
    have hnext : p + 1 < u.length := hlength ▸ (h.pair hoffset (hlength ▸ hlt)).2.1
    exact absurd (List.getElem?_eq_getElem hnext) (hinside _ _ (List.getElem?_eq_getElem hlt))
  | case7 p bytes hend hread =>
    rw [List.drop_eq_nil_of_le (Nat.le_of_not_lt hend)]
    exact .end_of_text
  | case8 p bytes hend hread =>
    obtain rfl : p = 36 := Nat.le_antisymm hp (hlength ▸ Nat.le_of_not_lt hend)
    exact absurd h.length_eq hread

theorem filter_joinWith {groups : List Text} (h : ∀ group ∈ groups, dash ∉ group) :
    (Text.joinWith dash groups).filter (· ≠ dash) = groups.flatten := by
  induction groups with
  | nil => rfl
  | cons group others ih =>
    obtain ⟨hgroup, hrest⟩ := List.forall_mem_cons.mp h
    have hself : group.filter (· ≠ dash) = group :=
      List.filter_eq_self.mpr fun b hb ↦ decide_eq_true fun hdash ↦ hgroup (hdash ▸ hb)
    by_cases hothers : others = []
    · rw [hothers, Text.joinWith_singleton, hself, List.flatten_singleton]
    · rw [Text.joinWith_cons _ _ hothers, List.filter_append, hself,
        List.filter_cons_of_neg (by decide), ih hrest, List.flatten_cons]

/-- A walk never asks for a byte that the text does not have, and reads and refuses what splitting
at the dashes does. -/
theorem walked_eq (t : Text) :
    walked t = (ofText? t).elim .refused fun g ↦ .read g.bytes := by
  have hiff : (ofText? t).isSome ↔ Shaped (unbraced t) := by
    rw [isSome_ofText?_iff_groups, shaped_iff_groups]
  have hnone (h : ¬Shaped (unbraced t)) : ofText? t = none := by
    rwa [← hiff, Option.not_isSome_iff_eq_none] at h
  rw [walked]
  by_cases hlength : (unbraced t).length = 36
  · rw [if_pos hlength]
    have hwalk := walk_spec hlength .zero (Nat.zero_le 36)
    rw [List.drop_zero] at hwalk
    obtain ⟨hfits, hrefused⟩ | ⟨hfits, b, hb, hread⟩ := hwalk
    · rw [hrefused, hnone fun h ↦ hfits (shaped_iff.mp h).2]
      rfl
    · obtain ⟨g, hg⟩ := Option.isSome_iff_exists.mp (hiff.mpr (shaped_iff.mpr ⟨hlength, hfits⟩))
      obtain ⟨groups, hgroups, hbytes⟩ := ofText?_eq_some_iff.mp hg
      rw [hgroups.eq_joinWith, filter_joinWith hgroups.dash_notMem, hbytes] at hb
      rw [hread, hg, ← Option.some.inj hb]
      rfl
  · rw [if_neg hlength, hnone fun h ↦ hlength h.1]
    rfl

/-! ## Blobs -/

theorem reorder_reorder (g : Guid) : g.reorder.reorder = g := by
  match g with
  | ⟨_ :: _ :: _ :: _ :: _ :: _ :: _ :: _ :: _, _⟩ => rfl

/-- The GUID of sixteen bytes in the order of blobs. Each byte is named by its place in the text: of
the first three groups, a blob has the last byte first. -/
def ofBlobBytes? : Blob → Option Guid
  | [b₃, b₂, b₁, b₀, b₅, b₄, b₇, b₆, b₈, b₉, b₁₀, b₁₁, b₁₂, b₁₃, b₁₄, b₁₅] =>
    some ⟨[b₀, b₁, b₂, b₃, b₄, b₅, b₆, b₇, b₈, b₉, b₁₀, b₁₁, b₁₂, b₁₃, b₁₄, b₁₅], rfl⟩
  | _ => none

/-- Reads the blob of an attribute that has a GUID as its argument: the prolog `01 00`, sixteen
bytes, and two zero bytes at the end. -/
def ofBlob? (b : Blob) : Option Guid :=
  if b.take 2 = [0x01, 0x00] ∧ b.drop 18 = [0x00, 0x00] then ofBlobBytes? ((b.drop 2).take 16)
  else none

/-- Where each byte of a blob stands in the text. -/
theorem map_some_bytes_reorder (g : Guid) : g.reorder.bytes.map some
      = [3, 2, 1, 0, 5, 4, 7, 6, 8, 9, 10, 11, 12, 13, 14, 15].map (g.bytes[·]?) := by
  match g with
  | ⟨[_, _, _, _, _, _, _, _, _, _, _, _, _, _, _, _], _⟩ => rfl

theorem ofBlobBytes?_eq_some_iff {b : Blob} : ofBlobBytes? b = some g ↔ b = g.reorder.bytes := by
  constructor
  · intro h
    unfold ofBlobBytes? at h
    split at h
    · cases h
      rfl
    · cases h
  · rintro rfl
    match g with
    | ⟨[_, _, _, _, _, _, _, _, _, _, _, _, _, _, _, _], _⟩ => rfl

/-- A GUID is read from its blob and from no other. -/
theorem ofBlob?_eq_some_iff {b : Blob} : ofBlob? b = some g ↔ b = Attribute.guid g := by
  have hguid : Attribute.guid g = [0x01, 0x00] ++ (g.reorder.bytes ++ [0x00, 0x00]) := rfl
  rw [ofBlob?, hguid]
  constructor
  · intro h
    split at h
    · rename_i hframe
      obtain ⟨hprolog, hend⟩ := hframe
      have hbytes := ofBlobBytes?_eq_some_iff.mp h
      calc b = b.take 2 ++ ((b.drop 2).take 16 ++ (b.drop 2).drop 16) := by
            rw [List.take_append_drop, List.take_append_drop]
        _ = [0x01, 0x00] ++ (g.reorder.bytes ++ [0x00, 0x00]) := by
            rw [hprolog, hbytes, List.drop_drop, hend]
    · cases h
  · rintro rfl
    have hlength := g.reorder.length_bytes
    have hend : ([0x01, 0x00] ++ (g.reorder.bytes ++ [0x00, 0x00])).drop 18 = [0x00, 0x00] := by
      rw [← List.append_assoc]
      exact List.drop_left' (by rw [List.length_append, hlength]; rfl)
    have hbytes : (([0x01, 0x00] ++ (g.reorder.bytes ++ [0x00, 0x00])).drop 2).take 16
        = g.reorder.bytes := List.take_left' hlength
    rw [if_pos ⟨rfl, hend⟩, hbytes]
    exact ofBlobBytes?_eq_some_iff.mpr rfl

end Guid

/-! ### Comments beside blobs -/

namespace State

theorem guids_add_cases (s : State) (e : Entry) :
    (∃ c, e = .guid c ∧ (s.add e).model.guids = s.model.guids ++ [c]) ∨
      (s.add e).model.guids = s.model.guids := by
  cases e with
  | guid c => exact .inl ⟨c, rfl, rfl⟩
  | argument a =>
    refine .inr ?_
    simp only [add]
    split
    · rfl
    · rename_i slot hslot
      cases slot <;> rfl
  | _ =>
    refine .inr ?_
    simp only [add]
    try split
    all_goals rfl

end State

/-- The comment beside a constant shows the GUID of the constant. -/
theorem Visited.display_eq {s : State} (h : Visited s) :
    ∀ c ∈ s.model.guids, c.display = c.guid.text := by
  refine h.induction (P := fun s ↦ ∀ c ∈ s.model.guids, c.display = c.guid.text) ?_ ?_
  · intro c hc
    exact absurd hc List.not_mem_nil
  · intro s d e ih hread
    obtain ⟨c, rfl, hguids⟩ | hguids := s.guids_add_cases e
    · rw [hguids]
      refine forall_mem_append_singleton ih ?_
      cases (State.read_eq_ok.mp hread).1
      rfl
    · rwa [hguids]

/-! ## All forms -/

/-- **Texts, bytes and blobs of a GUID.** A GUID is read back from its text and from its blob, which
has the bytes of the first three groups turned around, behind `01 00` and before two zero bytes. The
texts that are read are those that have the form, byte by byte, without their braces. Walking over a
text by offsets reads the same as splitting it and never asks for a byte behind the end. What has
been read is written as the text without braces, in upper case. So the comment beside the blob of a
constant is what the GUID in the blob is written as. -/
theorem guid_forms_agree (g : Guid) (t : Text) :
    Guid.ofText? g.text = some g ∧
      ((Guid.ofText? t).isSome ↔ Guid.Shaped (Guid.unbraced t)) ∧
      Guid.walked t = (Guid.ofText? t).elim .refused (fun h ↦ .read h.bytes) ∧
      (∀ h, Guid.ofText? t = some h → h.text = Text.toUpper (Guid.unbraced t)) ∧
      g.reorder.reorder = g ∧
      g.reorder.bytes.map some
        = [3, 2, 1, 0, 5, 4, 7, 6, 8, 9, 10, 11, 12, 13, 14, 15].map (g.bytes[·]?) ∧
      (∀ b, Guid.ofBlob? b = some g ↔ b = Attribute.guid g) ∧
      ∀ s, Visited s → ∀ c ∈ s.model.guids,
        (Guid.ofBlob? (Attribute.guid c.guid)).map Guid.text = some c.display := by
  refine ⟨g.ofText?_text, ?_, Guid.walked_eq t, fun _ ↦ Guid.text_of_ofText?, g.reorder_reorder,
    g.map_some_bytes_reorder, fun b ↦ Guid.ofBlob?_eq_some_iff, ?_⟩
  · rw [Guid.isSome_ofText?_iff_groups, Guid.shaped_iff_groups]
  · intro s hs c hc
    rw [Guid.ofBlob?_eq_some_iff.mpr rfl, Option.map_some, hs.display_eq c hc]

/-- A text in lower case and with braces. -/
def bracedText : Text := "\x7b23170f69-40c1-278a-0000-000100020000\x7d"

/-- The state behind a constant that is declared with such a text. -/
def constantState : State :=
  let call := Call.source (fun _ ↦ none)
    ⟨"ids", ["meta\tApi\t1.0.0.0", "guid\tId\t\x7b23170f69-40c1-278a-0000-000100020000\x7d"]⟩
  (call.perform Session.initial).session.state

/-- The blob of the constant. -/
def constantBlob : Blob :=
  [0x01, 0x00, 0x69, 0x0F, 0x17, 0x23, 0xC1, 0x40, 0x8A, 0x27, 0x00, 0x00, 0x00, 0x01, 0x00, 0x02,
    0x00, 0x00, 0x00, 0x00]

theorem guid_forms_agree_for_braced_text :
    Guid.ofText? bracedText = some (Guid.ofInterface 1 2) ∧
      (Guid.ofInterface 1 2).text = "23170F69-40C1-278A-0000-000100020000" ∧
      Guid.ofBlob? constantBlob = some (Guid.ofInterface 1 2) ∧
      Visited constantState ∧
      constantState.model.guids = [⟨"Id", Guid.ofInterface 1 2, (Guid.ofInterface 1 2).text⟩] ∧
      (Guid.ofBlob? (Attribute.guid (Guid.ofInterface 1 2))).map Guid.text
        = some (Guid.ofInterface 1 2).text := by
  have htext : Guid.ofText? bracedText = some (Guid.ofInterface 1 2) := by decide
  have hvisited : Visited constantState := Reachable.visited (.call .initial _)
  have hguids : constantState.model.guids
      = [⟨"Id", Guid.ofInterface 1 2, (Guid.ofInterface 1 2).text⟩] := by decide +kernel
  obtain ⟨-, -, -, hupper, -, -, hblob, hcomment⟩ :=
    guid_forms_agree (Guid.ofInterface 1 2) bracedText
  refine ⟨htext, ?_, (hblob constantBlob).mpr (by decide), hvisited, hguids, ?_⟩
  · rw [hupper _ htext]
    decide
  · refine hcomment _ hvisited ⟨"Id", Guid.ofInterface 1 2, _⟩ ?_
    rw [hguids]
    exact List.mem_singleton_self _

end NativeApi

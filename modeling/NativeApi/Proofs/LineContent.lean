import Mathlib.Data.List.DropRight
import NativeApi.Command.Line

/-!
# What is left of a line

Three things at the end of a line say nothing: its terminator, a comment, and the white space before
a comment. The rest is what the line holds (`Line.content`), and the line is read from it alone.
White space at the end is not dropped where no comment follows, so `Remark` has the white space and
the comment in one.

A line that holds nothing is idle: it is white space throughout or a remark
(`Line.ofText_eq_blank_iff`).
-/

namespace NativeApi

namespace Text

/-! ## Final bytes -/

variable {p : UInt8 → Bool} {t u : Text} {b : UInt8}

theorem dropTrailing_append_singleton (p : UInt8 → Bool) (t : Text) (b : UInt8) :
    dropTrailing p (t ++ [b]) = if p b then dropTrailing p t else t ++ [b] := by
  induction t with
  | nil => rfl
  | cons c t ih =>
    rw [dropTrailing] at ih
    rw [List.cons_append, dropTrailing, List.foldr_cons, ih]
    by_cases hb : p b = true
    · rw [if_pos hb, if_pos hb]
      rfl
    · rw [if_neg hb, if_neg hb]
      simp

theorem dropTrailing_eq_rdropWhile (p : UInt8 → Bool) (t : Text) :
    dropTrailing p t = t.rdropWhile p := by
  induction t using List.reverseRecOn with
  | nil => rfl
  | append_singleton t b ih => rw [dropTrailing_append_singleton, List.rdropWhile_concat, ih]

theorem dropTrailing_append_of_forall (h : ∀ b ∈ u, p b = true) (t : Text) :
    dropTrailing p (t ++ u) = dropTrailing p t := by
  induction u using List.reverseRecOn with
  | nil => rw [List.append_nil]
  | append_singleton u b ih =>
    have hb : p b = true := h b (List.mem_append_right _ List.mem_cons_self)
    rw [← List.append_assoc, dropTrailing_append_singleton, if_pos hb]
    exact ih fun c hc ↦ h c (List.mem_append_left _ hc)

/-- A byte that stays keeps all bytes before it. -/
theorem dropTrailing_append_cons (h : p b = false) (t u : Text) :
    dropTrailing p (t ++ b :: u) = t ++ b :: dropTrailing p u := by
  induction u using List.reverseRecOn with
  | nil =>
    rw [dropTrailing_append_singleton, if_neg (Bool.eq_false_iff.mp h)]
    rfl
  | append_singleton u c ih =>
    rw [← List.cons_append, ← List.append_assoc, dropTrailing_append_singleton, ih,
      dropTrailing_append_singleton]
    split
    · rfl
    · rw [List.append_assoc, List.cons_append]

theorem dropTrailing_eq_self (h : ∀ b ∈ t.getLast?, p b = false) : dropTrailing p t = t := by
  rw [dropTrailing_eq_rdropWhile, List.rdropWhile_eq_self_iff]
  intro hne hlast
  rw [h _ (List.getLast?_eq_getLast_of_ne_nil hne)] at hlast
  exact Bool.false_ne_true hlast

/-- What is dropped are final bytes with the property. -/
theorem exists_dropTrailing_append (p : UInt8 → Bool) (t : Text) :
    ∃ u : Text, (∀ b ∈ u, p b = true) ∧ t = dropTrailing p t ++ u := by
  refine ⟨t.rtakeWhile p, fun b hb ↦ List.mem_rtakeWhile_imp hb, ?_⟩
  rw [dropTrailing_eq_rdropWhile, List.rdropWhile_append_rtakeWhile]

/-! ## Remarks -/

/-- White space and a comment behind it. -/
inductive Remark : Text → Prop
  | mk {space : Text} (h : ∀ b ∈ space, isSpace b = true) (words : Text) :
      Remark (space ++ hash :: words)

/-- Nothing but white space, or a remark. -/
def Idle (t : Text) : Prop := (∀ b ∈ t, isSpace b = true) ∨ Remark t

theorem isSpace_of_isTerminator (h : isTerminator b = true) : isSpace b = true := by
  rw [isTerminator, Bool.or_eq_true, beq_iff_eq, beq_iff_eq] at h
  rcases h with rfl | rfl <;> rfl

end Text

open Text (hash isSpace isTerminator dropTrailing)

namespace Line

variable {t u : Text}

/-! ## Terminators -/

theorem content_append_of_isTerminator (h : ∀ b ∈ u, isTerminator b = true) (t : Text) :
    content (t ++ u) = content t := by
  rw [content, content, Text.dropTrailing_append_of_forall h]

/-- A line is read from its content alone. -/
theorem ofText_congr (h : content t = content u) : ofText t = ofText u := by
  rw [ofText, ofText, h]

theorem ofText_append_of_isTerminator (h : ∀ b ∈ u, isTerminator b = true) (t : Text) :
    ofText (t ++ u) = ofText t := ofText_congr (content_append_of_isTerminator h t)

/-! ## Contents -/

theorem withoutComment_of_hash_notMem (h : hash ∉ t) : withoutComment t = t := by
  rw [withoutComment, if_neg h]

theorem withoutComment_append_hash (h : hash ∉ t) (words : Text) :
    withoutComment (t ++ hash :: words) = dropTrailing isSpace t := by
  have hbefore : ∀ b ∈ t, (b != hash) = true := by
    intro b hb
    rw [bne_iff_ne]
    rintro rfl
    exact h hb
  rw [withoutComment, if_pos (List.mem_append_right _ List.mem_cons_self),
    List.takeWhile_append_of_pos hbefore, List.takeWhile_cons_of_neg (by decide), List.append_nil]

/-- A text is the content of a line of its own if it has something to show and neither a comment nor
a terminator. -/
theorem content_eq_self (hhash : hash ∉ t) (hlast : ∀ b ∈ t.getLast?, isTerminator b = false)
    (hshown : ∃ b ∈ t, isSpace b = false) : content t = t := by
  have hnot : ¬t.all isSpace = true := by
    obtain ⟨b, hb, hspace⟩ := hshown
    rw [List.all_eq_true]
    intro hall
    rw [hall b hb] at hspace
    cases hspace
  simp only [content, Text.dropTrailing_eq_self hlast, withoutComment_of_hash_notMem hhash,
    if_neg hnot]

/-- A remark is cut off, if the text before it does not end in white space of its own. -/
theorem content_append_remark (hhash : hash ∉ t) (hlast : ∀ b ∈ t.getLast?, isSpace b = false)
    (h : u.Remark) : content (t ++ u) = if t.all isSpace then [] else t := by
  obtain @⟨space, hspace, words⟩ := h
  have hbefore : hash ∉ t ++ space := by
    rw [List.mem_append, not_or]
    refine ⟨hhash, fun hmem ↦ ?_⟩
    exact absurd (hspace hash hmem) (by decide)
  -- The `#` is no terminator, so only bytes of the comment are dropped with the terminator.
  have hcut : withoutComment (dropTrailing isTerminator (t ++ (space ++ hash :: words))) = t := by
    rw [← List.append_assoc, Text.dropTrailing_append_cons (by decide),
      withoutComment_append_hash hbefore, Text.dropTrailing_append_of_forall hspace,
      Text.dropTrailing_eq_self hlast]
  simp only [content, hcut]

/-! ## Idle lines -/

theorem content_eq_nil_iff : content t = [] ↔ t.Idle := by
  obtain ⟨ending, hending, ht⟩ := Text.exists_dropTrailing_append isTerminator t
  have hspaces : ∀ b ∈ ending, isSpace b = true :=
    fun b hb ↦ Text.isSpace_of_isTerminator (hending b hb)
  constructor
  · intro h
    have hall : ∀ b ∈ withoutComment (dropTrailing isTerminator t), isSpace b = true := by
      rw [← List.all_eq_true]
      by_contra hnot
      simp only [content, if_neg hnot] at h
      rw [h] at hnot
      exact hnot rfl
    by_cases hhash : hash ∈ dropTrailing isTerminator t
    · obtain ⟨before, words, hsplit, hbefore⟩ := List.eq_append_cons_of_mem hhash
      obtain ⟨space, hspace, hdrop⟩ := Text.exists_dropTrailing_append isSpace before
      rw [hsplit, withoutComment_append_hash hbefore] at hall
      refine .inr ?_
      rw [ht, hsplit, List.append_assoc, List.cons_append]
      refine .mk (fun b hb ↦ ?_) _
      rw [hdrop, List.mem_append] at hb
      exact hb.elim (hall b) (hspace b)
    · rw [withoutComment_of_hash_notMem hhash] at hall
      refine .inl fun b hb ↦ ?_
      rw [ht, List.mem_append] at hb
      exact hb.elim (hall b) (hspaces b)
  · rintro (hspace | hremark)
    · have hbefore : ∀ b ∈ dropTrailing isTerminator t, isSpace b = true := by
        intro b hb
        exact hspace b (ht ▸ List.mem_append_left _ hb)
      have hhash : hash ∉ dropTrailing isTerminator t :=
        fun hmem ↦ absurd (hbefore hash hmem) (by decide)
      simp only [content, withoutComment_of_hash_notMem hhash]
      rw [if_pos (List.all_eq_true.mpr hbefore)]
    · exact content_append_remark (t := []) List.not_mem_nil (fun _ hb ↦ by cases hb) hremark

theorem ofFields_ne_blank {fields : List Text} (h : fields ≠ []) : ofFields fields ≠ .blank := by
  obtain ⟨word, operands, rfl⟩ := List.exists_cons_of_ne_nil h
  rw [ofFields]
  cases Keyword.ofText? word <;> exact fun hblank ↦ Line.noConfusion hblank

/-- **Idle lines.** A line holds nothing exactly if it is idle. -/
theorem ofText_eq_blank_iff : ofText t = .blank ↔ t.Idle := by
  rw [← content_eq_nil_iff, ofText]
  split
  · rename_i h
    exact iff_of_true rfl h
  · rename_i h
    exact iff_of_false (ofFields_ne_blank (Text.splitOn_ne_nil _ _)) h

end Line

end NativeApi

import NativeApi.Proofs.Writing

/-!
# Comments behind lines

White space at the end of a line belongs to the last field, unless a comment follows: a comment ends
the line where the white space before it begins. So a line with a comment behind it is read as the
line without its final white space (`Line.ofText_append_comment`), and whether the comment changes
what the line means depends on that white space alone. A blank line stays blank. A command stays the
same if its last field ends visibly, and becomes another one, or none, if it does not.
-/

namespace NativeApi

open Text (tab hash isSpace isTerminator dropTrailing)

/-! ## Final white space -/

namespace Text

variable {p q : UInt8 → Bool} {t : Text}

/-- What is left ends in a byte without the property. -/
theorem not_of_mem_getLast?_dropTrailing {b : UInt8} (h : b ∈ (dropTrailing p t).getLast?) :
    p b = false := by
  rw [dropTrailing_eq_rdropWhile] at h
  have hne : t.rdropWhile p ≠ [] := by
    intro hnil
    rw [hnil] at h
    cases h
  rw [List.getLast?_eq_some_getLast hne, Option.mem_some_iff] at h
  rw [← Bool.not_eq_true, ← h]
  exact List.rdropWhile_last_not p t hne

theorem dropTrailing_eq_self_iff :
    dropTrailing p t = t ↔ ∀ b ∈ t.getLast?, p b = false := by
  refine ⟨fun h b hb ↦ ?_, dropTrailing_eq_self⟩
  rw [← h] at hb
  exact not_of_mem_getLast?_dropTrailing hb

/-- Dropping fewer bytes first makes no difference. -/
theorem dropTrailing_dropTrailing (h : ∀ b, q b = true → p b = true) (t : Text) :
    dropTrailing p (dropTrailing q t) = dropTrailing p t := by
  obtain ⟨u, hu, ht⟩ := exists_dropTrailing_append q t
  calc dropTrailing p (dropTrailing q t)
      = dropTrailing p (dropTrailing q t ++ u) :=
        (dropTrailing_append_of_forall (fun b hb ↦ h b (hu b hb)) _).symm
    _ = dropTrailing p t := by rw [← ht]

theorem dropTrailing_eq_nil_iff : dropTrailing p t = [] ↔ t.all p = true := by
  rw [List.all_eq_true]
  refine ⟨fun h ↦ ?_, fun h ↦ dropTrailing_append_of_forall h []⟩
  obtain ⟨u, hu, ht⟩ := exists_dropTrailing_append p t
  rw [ht, h]
  exact hu

/-- The first piece ends with the text or at a separator. -/
theorem splitOn_eq_cons_iff {s : UInt8} {piece : Text} :
    (∃ others, splitOn s t = piece :: others) ↔
      s ∉ piece ∧ (t = piece ∨ ∃ rest, t = piece ++ s :: rest) := by
  constructor
  · rintro ⟨others, hpieces⟩
    refine ⟨not_mem_of_mem_splitOn (hpieces ▸ List.mem_cons_self), ?_⟩
    rw [← joinWith_splitOn s t, hpieces]
    by_cases hothers : others = []
    · exact .inl (by rw [hothers, joinWith_singleton])
    · exact .inr ⟨_, joinWith_cons s piece hothers⟩
  · rintro ⟨hpiece, rfl | ⟨rest, rfl⟩⟩
    · exact ⟨[], splitOn_eq_singleton hpiece⟩
    · exact ⟨_, splitOn_append_cons hpiece rest⟩

theorem hash_notMem_dropTrailing (h : hash ∉ t) (p : UInt8 → Bool) : hash ∉ dropTrailing p t := by
  obtain ⟨u, -, ht⟩ := exists_dropTrailing_append p t
  rw [ht, List.mem_append, not_or] at h
  exact h.1

end Text

/-! ## Contents -/

namespace Line

variable {t : Text}

/-- A line without a comment holds all but its terminator, if it holds anything. -/
theorem content_of_hash_notMem (h : hash ∉ t) :
    content t = if t.all isSpace then [] else dropTrailing isTerminator t := by
  obtain ⟨ending, hending, ht⟩ := Text.exists_dropTrailing_append isTerminator t
  have hspaces : ending.all isSpace = true :=
    List.all_eq_true.mpr fun b hb ↦ Text.isSpace_of_isTerminator (hending b hb)
  have hall : t.all isSpace = (dropTrailing isTerminator t).all isSpace := by
    conv_lhs => rw [ht, List.all_append, hspaces, Bool.and_true]
  simp only [content, withoutComment_of_hash_notMem (Text.hash_notMem_dropTrailing h _), hall]

/-- Of a line with a comment it holds what stands before the comment, without final white space. -/
theorem content_append_comment (h : hash ∉ t) (words : Text) :
    content (t ++ hash :: words) = dropTrailing isSpace t := by
  obtain ⟨space, hspace, ht⟩ := Text.exists_dropTrailing_append isSpace t
  have hcut := content_append_remark (Text.hash_notMem_dropTrailing h isSpace)
    (fun _ hb ↦ Text.not_of_mem_getLast?_dropTrailing hb) (.mk hspace words)
  rw [← List.append_assoc, ← ht] at hcut
  rw [hcut]
  split
  · rename_i hall
    -- White space that ends in no white space is empty.
    have hself := Text.dropTrailing_eq_nil_iff.mpr hall
    rw [Text.dropTrailing_dropTrailing (fun _ hb ↦ hb)] at hself
    exact hself.symm
  · rfl

theorem content_dropTrailing_isSpace (h : hash ∉ t) :
    content (dropTrailing isSpace t) = dropTrailing isSpace t := by
  by_cases hall : (dropTrailing isSpace t).all isSpace = true
  · have hnil := Text.dropTrailing_eq_nil_iff.mpr hall
    rw [Text.dropTrailing_dropTrailing (fun _ hb ↦ hb)] at hnil
    rw [hnil]
    rfl
  · refine content_eq_self (Text.hash_notMem_dropTrailing h isSpace) (fun b hb ↦ ?_) ?_
    · have hspace := Text.not_of_mem_getLast?_dropTrailing hb
      rw [← Bool.not_eq_true] at hspace ⊢
      exact mt Text.isSpace_of_isTerminator hspace
    · simpa using hall

/-- **Comments take white space with them.** A line with a comment behind it is read as the line
without its final white space. -/
theorem ofText_append_comment (h : hash ∉ t) (words : Text) :
    ofText (t ++ hash :: words) = ofText (dropTrailing isSpace t) :=
  ofText_congr ((content_append_comment h words).trans (content_dropTrailing_isSpace h).symm)

/-- What a line holds and the line itself differ in final white space only. -/
theorem dropTrailing_content (h : hash ∉ t) :
    dropTrailing isSpace (content t) = dropTrailing isSpace t := by
  rw [content_of_hash_notMem h]
  split
  · rename_i hall
    exact (Text.dropTrailing_eq_nil_iff.mpr hall).symm
  · exact Text.dropTrailing_dropTrailing (fun _ hb ↦ Text.isSpace_of_isTerminator hb) t

/-- A line is unknown if its first field is no keyword. -/
theorem ofText_eq_unknown_iff {word : Text} :
    ofText t = .unknown word ↔ content t ≠ [] ∧ Keyword.ofText? word = none ∧
      ∃ others, Text.splitOn tab (content t) = word :: others := by
  obtain ⟨first, others, hpieces⟩ :=
    List.exists_cons_of_ne_nil (Text.splitOn_ne_nil tab (content t))
  rw [ofText, hpieces, ofFields]
  constructor
  · intro h
    split at h
    · cases h
    · rename_i hne
      cases hfirst : Keyword.ofText? first with
      | none =>
        rw [hfirst] at h
        cases h
        exact ⟨hne, hfirst, others, rfl⟩
      | some keyword =>
        rw [hfirst] at h
        cases h
  · rintro ⟨hne, hword, rest, hrest⟩
    cases hrest
    rw [if_neg hne, hword]

end Line

/-! ## Lines with a comment behind them -/

namespace Command

variable {k : Command}

theorem content_of_ofText {raw : Text} (h : Line.ofText raw = .command k) :
    Line.content raw = k.written := by
  rw [written, fields_of_ofText h, Text.joinWith_splitOn]

/-- A command ends visibly if what is written of it does. -/
theorem endsVisibly_of_written (h : ∀ b ∈ k.written.getLast?, isSpace b = false) :
    k.EndsVisibly := by
  obtain ⟨init, last, hfields⟩ := (List.eq_nil_or_concat' k.fields).resolve_left k.fields_ne_nil
  rw [written, hfields, Text.getLast?_joinWith] at h
  refine ⟨last, by rw [hfields, List.getLast?_concat]; rfl, ?_⟩
  cases hlast : last.getLast? with
  | some b =>
    rw [hlast] at h
    exact ⟨b, rfl, h b rfl⟩
  | none =>
    rw [hlast, Option.none_or] at h
    split at h
    · rename_i hinit
      -- The only field is the keyword, which is not empty.
      rw [hinit, List.nil_append] at hfields
      rw [List.getLast?_eq_none_iff.mp hlast] at hfields
      exact absurd (List.cons.inj hfields).1 k.keyword.text_ne_nil
    · exact absurd (h tab rfl) (by decide)

end Command

namespace Line

variable {t : Text}

theorem ofText_append_comment_eq_command_iff (h : hash ∉ t) (words : Text) {k : Command}
    (hk : ofText t = .command k) :
    ofText (t ++ hash :: words) = .command k ↔ k.EndsVisibly := by
  have hcontent := Command.content_of_ofText hk
  have htrim := dropTrailing_content h
  rw [hcontent] at htrim
  constructor
  · intro hsame
    have hwritten := Command.content_of_ofText hsame
    rw [content_append_comment h, ← htrim] at hwritten
    exact Command.endsVisibly_of_written (Text.dropTrailing_eq_self_iff.mp hwritten)
  · intro hvisible
    have hself := Text.dropTrailing_eq_self
      fun _ hb ↦ Command.EndsVisibly.not_isSpace_of_mem_getLast? hvisible hb
    rw [← hk]
    exact ofText_congr (by rw [content_append_comment h, ← htrim, hself, hcontent])

theorem ofText_append_comment_eq_unknown_iff (h : hash ∉ t) (words : Text) {word : Text}
    (hword : ofText t = .unknown word) :
    ofText (t ++ hash :: words) = .unknown word ↔ word <+: dropTrailing isSpace t := by
  obtain ⟨hne, hkeyword, hpiece⟩ := ofText_eq_unknown_iff.mp hword
  obtain ⟨htab, hcontent⟩ := Text.splitOn_eq_cons_iff.mp hpiece
  rw [ofText_eq_unknown_iff, content_append_comment h, Text.splitOn_eq_cons_iff]
  constructor
  · rintro ⟨-, -, -, hsame | ⟨rest, hrest⟩⟩
    · exact hsame ▸ List.prefix_refl _
    · exact hrest ▸ List.prefix_append _ _
  · rintro ⟨rest, hrest⟩
    refine ⟨?_, hkeyword, htab, ?_⟩
    · intro hnil
      rw [content_of_hash_notMem h, if_pos (Text.dropTrailing_eq_nil_iff.mp hnil)] at hne
      exact hne rfl
    · -- Behind the word the line goes on with a tab, so what is left of it does so, or ends.
      obtain ⟨space, -, hline⟩ := Text.exists_dropTrailing_append isSpace (content t)
      rw [dropTrailing_content h, ← hrest, List.append_assoc] at hline
      rw [← hrest]
      cases rest with
      | nil => exact .inl (List.append_nil word)
      | cons b rest =>
        rcases hcontent with hsame | ⟨others, hothers⟩
        · rw [hline] at hsame
          exact absurd (List.append_right_eq_self.mp hsame) (List.cons_ne_nil _ _)
        · rw [hline] at hothers
          obtain ⟨rfl, -⟩ := List.cons.inj (List.append_cancel_left hothers)
          exact .inr ⟨rest, rfl⟩

end Line

/-- **What a comment changes.** A line with a comment behind it is read as the line without its
final white space. So a blank line stays blank, a command stays the same exactly if its last field
ends visibly, and an unknown word stays the same exactly if no part of it is final white space. -/
theorem comment_keeps_meaning_iff {t : Text} (h : hash ∉ t) (words : Text) :
    Line.ofText (t ++ hash :: words) = Line.ofText (dropTrailing isSpace t) ∧
      (Line.ofText t = .blank → Line.ofText (t ++ hash :: words) = .blank) ∧
      (∀ k, Line.ofText t = .command k →
        (Line.ofText (t ++ hash :: words) = .command k ↔ k.EndsVisibly)) ∧
      ∀ word, Line.ofText t = .unknown word →
        (Line.ofText (t ++ hash :: words) = .unknown word ↔ word <+: dropTrailing isSpace t) := by
  refine ⟨Line.ofText_append_comment h words, fun hblank ↦ ?_,
    fun _ hk ↦ Line.ofText_append_comment_eq_command_iff h words hk,
    fun _ hword ↦ Line.ofText_append_comment_eq_unknown_iff h words hword⟩
  rw [Line.ofText_eq_blank_iff] at hblank ⊢
  rcases hblank with hspace | ⟨hspace, others⟩
  · exact .inr (.mk hspace words)
  · exact absurd (List.mem_append_right _ List.mem_cons_self) h

/-- A line that imports a library, with a blank behind the name. -/
def blankBehindName : Text := "dll\ta.dll "

theorem comment_keeps_meaning_iff_of_blank_behind_name :
    hash ∉ blankBehindName ∧
      Line.ofText blankBehindName = .command ⟨.dll, ["a.dll "]⟩ ∧
      ¬Command.EndsVisibly ⟨.dll, ["a.dll "]⟩ ∧
      Line.ofText (blankBehindName ++ hash :: "loader") = .command ⟨.dll, ["a.dll"]⟩ := by
  have hhash : hash ∉ blankBehindName := by decide
  have hline : Line.ofText blankBehindName = .command ⟨.dll, ["a.dll "]⟩ := by decide
  have hcommented : Line.ofText (blankBehindName ++ hash :: "loader")
      = .command ⟨.dll, ["a.dll"]⟩ := by
    rw [(comment_keeps_meaning_iff hhash "loader").1]
    decide
  refine ⟨hhash, hline, fun hvisible ↦ ?_, hcommented⟩
  have hsame := ((comment_keeps_meaning_iff hhash "loader").2.2.1 _ hline).mpr hvisible
  rw [hcommented] at hsame
  exact absurd hsame (by decide)

/-- A comment can change what the line before it means. -/
theorem comment_changes_field :
    ¬∀ t words : Text, hash ∉ t → Line.ofText (t ++ hash :: words) = Line.ofText t := by
  intro h
  have hsame := h blankBehindName "loader" (by decide)
  revert hsame
  decide

end NativeApi

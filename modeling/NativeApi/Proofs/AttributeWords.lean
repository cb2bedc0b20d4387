import Mathlib.Logic.Relation
import NativeApi.Proofs.Numerals
import NativeApi.Proofs.Operand

/-!
# Lists of attribute words

Attribute words are applied one after another, and each sees the argument that the words before it
have left. What comes of them can be said without an order all the same. A list of words is applied
if each word is known and at most one gives an array size (`WordsAllowed`), and the argument is
marked by the words that occur in the list and has the array size that one of them gives
(`Becomes`). So the words may be put in another order, marks may be repeated, and there may be more
blanks (`attribute_words_in_any_order`).

The words are found by cutting the text at its blanks. `Argument.scan` finds them in place, by the
positions where they start and end. It ends behind a start that lies behind the text, for which
reason the last word is not lost, be it empty or not.
-/

namespace NativeApi

open Text (blank splitOn Numeral)
open Relation (EqvGen)

namespace Text

/-- A separator ends the pieces before it and starts those behind it. -/
theorem splitOn_append_separator (s : UInt8) (t u : Text) :
    splitOn s (t ++ s :: u) = splitOn s t ++ splitOn s u := by
  induction t with
  | nil => exact splitOn_cons_self s u
  | cons b t ih =>
    rw [List.cons_append]
    by_cases h : b = s
    · subst h
      rw [splitOn_cons_self, splitOn_cons_self, ih, List.cons_append]
    · obtain ⟨piece, others, ht, hb⟩ := splitOn_cons_of_ne h t
      obtain ⟨first, rest, hu, hc⟩ := splitOn_cons_of_ne h (t ++ s :: u)
      rw [ih, ht, List.cons_append, List.cons.injEq] at hu
      rw [hb, hc, ← hu.1, ← hu.2, List.cons_append]

end Text

variable {word : Text} {words others : List Text} {size : ArraySize}

/-! ## Lists of words -/

theorem not_sized_of_markWord (h : MarkWord word) : ¬Sized word size :=
  fun hsize ↦ not_sizeWord_of_markWord h ⟨size, hsize⟩

/-- Each word but the empty ones is known, and at most one of them gives an array size. -/
structure WordsAllowed (words : List Text) : Prop where
  known : ∀ word ∈ words, word ≠ [] →
    word = "const" ∨ word = "com_out" ∨ ∃ size, Sized word size
  single : words.Pairwise fun v w ↦ ¬((∃ size, Sized v size) ∧ ∃ size, Sized w size)

theorem wordsAllowed_iff : WordsAllowed words ↔ AttributeWords words := by
  have hword (word : Text) :
      (word ≠ [] → word = "const" ∨ word = "com_out" ∨ ∃ size, Sized word size) ↔
        MarkWord word ∨ SizeWord word := by
    rw [MarkWord, SizeWord, or_assoc, or_assoc, ← or_iff_not_imp_left]
  constructor
  · rintro ⟨hknown, hsingle⟩
    simp only [hword] at hknown
    exact ⟨hknown, hsingle⟩
  · rintro ⟨hknown, hsingle⟩
    simp only [← hword] at hknown
    exact ⟨hknown, hsingle⟩

/-- Words that give no array size make no difference to which words are allowed. -/
theorem wordsAllowed_append_iff {extra : List Text} (h : ∀ word ∈ extra, MarkWord word) :
    WordsAllowed (extra ++ words) ↔ WordsAllowed words := by
  constructor
  · rintro ⟨hknown, hsingle⟩
    exact ⟨fun word hmem ↦ hknown word (List.mem_append_right _ hmem),
      (List.pairwise_append.mp hsingle).2.1⟩
  · rintro ⟨hknown, hsingle⟩
    refine ⟨fun word hmem hne ↦ ?_, List.pairwise_append.mpr ⟨?_, hsingle, ?_⟩⟩
    · rcases List.mem_append.mp hmem with hmem | hmem
      · rcases (h word hmem).resolve_left hne with hconst | hcom
        · exact .inl hconst
        · exact .inr (.inl hcom)
      · exact hknown word hmem hne
    · refine List.pairwise_of_forall_mem_list fun v hv w _ hboth ↦ ?_
      obtain ⟨size, hsize⟩ := hboth.1
      exact not_sized_of_markWord (h v hv) hsize
    · rintro v hv w - ⟨⟨size, hsize⟩, -⟩
      exact not_sized_of_markWord (h v hv) hsize

theorem WordsAllowed.perm (h : WordsAllowed words) (hperm : words.Perm others) :
    WordsAllowed others := by
  refine ⟨fun word hmem ↦ h.known word (hperm.mem_iff.mpr hmem), ?_⟩
  refine (hperm.pairwise_iff fun hnot hboth ↦ ?_).mp h.single
  exact hnot hboth.symm

namespace Argument

variable {a b c : Argument}

/-- What an argument becomes with a list of words, in any order: it has the marks that occur among
them and the array size that one of them gives. -/
structure Becomes (a : Argument) (words : List Text) (b : Argument) : Prop where
  eq : b = { a with
    const := a.const || decide (("const" : Text) ∈ words)
    comOut := a.comOut || decide (("com_out" : Text) ∈ words)
    size := b.size }
  size_iff : ∀ size, b.size = some size ↔ a.size = some size ∨ ∃ word ∈ words, Sized word size

theorem Takes.size_iff (h : a.Takes word b) :
    b.size = some size ↔ a.size = some size ∨ Sized word size := by
  cases h with
  | nothing => exact (or_iff_left (not_sized_of_markWord (.inl rfl))).symm
  | const => exact (or_iff_left (not_sized_of_markWord (.inr (.inl rfl)))).symm
  | comOut => exact (or_iff_left (not_sized_of_markWord (.inr (.inr rfl)))).symm
  | size hword hnone hsize =>
    rw [hnone, or_iff_right (by simp), sized_iff]
    constructor
    · intro h
      exact ⟨_, _, hword, hsize.trans h⟩
    · rintro ⟨form, digits, hother, hsame⟩
      rw [hword] at hother
      cases hother
      exact hsize.symm.trans hsame

theorem Takes.eq (h : a.Takes word b) :
    b = { a with
      const := a.const || decide ("const" = word)
      comOut := a.comOut || decide ("com_out" = word)
      size := b.size } := by
  have hmarks : decide (("const" : Text) = "com_out") = false := by decide
  cases h with
  | nothing => simp [Text.ofLiteral]
  | const => simp [Text.ofLiteral]
  | comOut => simp [Text.ofLiteral]
  | size hword hnone hsize =>
    have hconst : ("const" : Text) ≠ word := by rintro rfl; cases hword
    have hcom : ("com_out" : Text) ≠ word := by rintro rfl; cases hword
    simp [hconst, hcom]

/-- **What words come to.** It is the same in any order. -/
theorem becomes_of_foldlM (h : words.foldlM applyWord a = .ok b) : a.Becomes words b := by
  induction words generalizing a with
  | nil =>
    cases h
    exact ⟨by simp, fun size ↦ by simp⟩
  | cons word words ih =>
    rw [List.foldlM_cons, bind_eq_ok] at h
    obtain ⟨next, hword, hwords⟩ := h
    have htakes := applyWord_eq_ok.mp hword
    obtain ⟨heq, hsize⟩ := ih hwords
    refine ⟨?_, fun size ↦ ?_⟩
    · rw [htakes.eq] at heq
      simpa only [List.mem_cons, Bool.decide_or, Bool.or_assoc] using heq
    · simp only [hsize size, htakes.size_iff, List.mem_cons, exists_eq_or_imp, or_assoc]

theorem Becomes.unique (hb : a.Becomes words b) (hc : a.Becomes words c) : b = c := by
  have hsize : b.size = c.size := by
    ext size
    rw [hb.size_iff size, hc.size_iff size]
  rw [hb.eq, hc.eq, hsize]

/-- An argument without an array size becomes what the words say exactly if they are allowed. -/
theorem applyWords_eq_ok_iff (ha : a.size = none) {t : Text} :
    a.applyWords t = .ok b ↔ WordsAllowed (splitOn blank t) ∧ a.Becomes (splitOn blank t) b := by
  rw [wordsAllowed_iff]
  constructor
  · intro h
    exact ⟨(exists_applyWords_iff ha).mp ⟨b, h⟩, becomes_of_foldlM h⟩
  · rintro ⟨hwords, hb⟩
    obtain ⟨c, hc⟩ := (exists_applyWords_iff ha).mpr hwords
    rw [hb.unique (becomes_of_foldlM hc)]
    exact hc

theorem Becomes.congr (h : ∀ word, word ≠ [] → (word ∈ words ↔ word ∈ others))
    (hb : a.Becomes words b) : a.Becomes others b := by
  obtain ⟨heq, hsize⟩ := hb
  simp only [h "const" (by decide), h "com_out" (by decide)] at heq
  refine ⟨heq, fun size ↦ ?_⟩
  have hword (word : Text) : word ∈ words ∧ Sized word size ↔ word ∈ others ∧ Sized word size := by
    refine and_congr_left fun hsized ↦ h word ?_
    rintro rfl
    exact not_sized_of_markWord (.inl rfl) hsized
  simp only [hsize size, hword]

end Argument

/-! ## Rearranged words -/

/-- A change of a list of words that says nothing else: the words in another order, a blank more
beside another one or at either end, or a mark once more. -/
inductive Rearranges : Text → Text → Prop
  | reorder {t u : Text} (h : (splitOn blank t).Perm (splitOn blank u)) : Rearranges t u
  | space {before after : Text} (h : before.getLast? ∈ [none, some blank] ∨
      after.head? ∈ [none, some blank]) : Rearranges (before ++ after) (before ++ blank :: after)
  | again {t mark : Text} (hmark : mark = "const" ∨ mark = "com_out") (h : mark ∈ splitOn blank t) :
      Rearranges t (t ++ blank :: mark)

theorem splitOn_insert_blank {before after : Text} (h : before.getLast? ∈ [none, some blank] ∨
    after.head? ∈ [none, some blank]) :
    (splitOn blank (before ++ blank :: after)).Perm ([] :: splitOn blank (before ++ after)) := by
  simp only [List.mem_cons, List.not_mem_nil, or_false] at h
  rcases h with (hfirst | hbehind) | (hlast | hbefore)
  · rw [List.getLast?_eq_none_iff.mp hfirst]
    exact .refl _
  · obtain ⟨front, rfl⟩ := List.getLast?_eq_some_iff.mp hbehind
    rw [List.append_assoc, List.append_assoc, List.singleton_append, List.singleton_append,
      Text.splitOn_append_separator, Text.splitOn_append_separator, Text.splitOn_cons_self]
    exact List.perm_middle
  · rw [List.head?_eq_none_iff.mp hlast, Text.splitOn_append_separator, List.append_nil]
    exact List.perm_append_comm
  · obtain ⟨rest, rfl⟩ := List.head?_eq_some_iff.mp hbefore
    rw [Text.splitOn_append_separator, Text.splitOn_append_separator, Text.splitOn_cons_self]
    exact List.perm_middle

/-- Behind a change there are the same words, but for the order and for more marks and empty
words. -/
theorem Rearranges.exists_extra {t u : Text} (h : Rearranges t u) :
    ∃ extra, (splitOn blank u).Perm (extra ++ splitOn blank t) ∧
      ∀ word ∈ extra, word = [] ∨ MarkWord word ∧ word ∈ splitOn blank t := by
  cases h with
  | reorder h => exact ⟨[], h.symm, nofun⟩
  | space h =>
    exact ⟨[[]], splitOn_insert_blank h, fun word hword ↦ .inl (List.mem_singleton.mp hword)⟩
  | @again _ mark hmark h =>
    have hblank : blank ∉ mark := by
      rcases hmark with rfl | rfl
      · decide
      · decide
    refine ⟨[mark], ?_, fun word hword ↦ ?_⟩
    · rw [Text.splitOn_append_separator, Text.splitOn_eq_singleton hblank]
      exact List.perm_append_comm
    · rw [List.mem_singleton.mp hword]
      exact .inr ⟨.inr hmark, h⟩

theorem Rearranges.applyWords_iff {t u : Text} (h : Rearranges t u) {a b : Argument}
    (ha : a.size = none) : a.applyWords t = .ok b ↔ a.applyWords u = .ok b := by
  obtain ⟨extra, hperm, hextra⟩ := h.exists_extra
  have hmarks : ∀ word ∈ extra, MarkWord word :=
    fun word hword ↦ (hextra word hword).elim .inl And.left
  have hmem (word : Text) (hne : word ≠ []) : word ∈ splitOn blank t ↔ word ∈ splitOn blank u := by
    rw [hperm.mem_iff, List.mem_append]
    exact ⟨.inr, fun h ↦ h.elim (fun hword ↦ ((hextra word hword).resolve_left hne).2) id⟩
  rw [Argument.applyWords_eq_ok_iff ha, Argument.applyWords_eq_ok_iff ha]
  refine and_congr ⟨fun hwords ↦ ?_, fun hwords ↦ ?_⟩
    ⟨fun hb ↦ hb.congr hmem, fun hb ↦ hb.congr fun word hne ↦ (hmem word hne).symm⟩
  · exact ((wordsAllowed_append_iff hmarks).mpr hwords).perm hperm.symm
  · exact (wordsAllowed_append_iff hmarks).mp (hwords.perm hperm)

/-! ## Words in place -/

namespace Text

/-- The bytes up to the first blank, or all of them. -/
def firstWord (t : Text) : Text := t.takeWhile (· ≠ blank)

theorem firstWord_cases (t : Text) : blank ∉ firstWord t ∧
    (firstWord t = t ∨ ∃ rest, t = firstWord t ++ blank :: rest) := by
  induction t with
  | nil => exact ⟨List.not_mem_nil, .inl rfl⟩
  | cons b t ih =>
    by_cases h : b = blank
    · rw [firstWord, List.takeWhile_cons_of_neg (by simpa using h), h]
      exact ⟨List.not_mem_nil, .inr ⟨t, rfl⟩⟩
    · rw [firstWord, List.takeWhile_cons_of_pos (by simpa using h), ← firstWord, List.mem_cons,
        not_or]
      refine ⟨⟨Ne.symm h, ih.1⟩, ih.2.imp (congrArg (b :: ·)) fun ⟨rest, hrest⟩ ↦ ⟨rest, ?_⟩⟩
      rw [List.cons_append, ← hrest]

end Text

/-- The position behind the word that starts at a position: that of the next blank, or the end. -/
def wordEnd (t : Text) (start : Nat) : Nat := start + (Text.firstWord (t.drop start)).length

namespace Argument

/-- Applies the words from a start on, each of them where it stands. The next start is behind the
blank, or behind the end. -/
def scan (a : Argument) (t : Text) (start : Nat) : Except Fault Argument :=
  if start ≤ t.length then do
    let next ← a.applyWord ((t.drop start).take (wordEnd t start - start))
    next.scan t (wordEnd t start + 1)
  else .ok a
termination_by t.length + 1 - start
decreasing_by
  have hle : start ≤ wordEnd t start := Nat.le_add_right _ _
  omega

/-- Scanning from a start on applies the words of the text behind it. -/
theorem scan_eq {t : Text} {start : Nat} (h : start ≤ t.length) (a : Argument) :
    a.scan t start = a.applyWords (t.drop start) := by
  obtain ⟨n, hn⟩ : ∃ n, n = t.length - start := ⟨_, rfl⟩
  induction n using Nat.strongRecOn generalizing start a with
  | ind n ih =>
    obtain ⟨hblank, hword⟩ := Text.firstWord_cases (t.drop start)
    have hlength : (t.drop start).length = t.length - start := List.length_drop
    rw [scan, if_pos h, applyWords]
    simp only [wordEnd, Nat.add_sub_cancel_left]
    generalize Text.firstWord (t.drop start) = word at hblank hword ⊢
    rcases hword with rfl | ⟨rest, hrest⟩
    · -- Behind the last word the next start is behind the end.
      rw [List.take_length, Text.splitOn_eq_singleton hblank, List.foldlM_cons]
      refine bind_congr fun next ↦ ?_
      rw [scan, if_neg (by omega)]
      rfl
    · rw [hrest, List.length_append, List.length_cons] at hlength
      have hnext : t.drop (start + word.length + 1) = rest := by
        rw [Nat.add_assoc, ← List.drop_drop, hrest, List.drop_append,
          List.drop_eq_nil_of_le (by omega)]
        simp
      rw [hrest, List.take_left, Text.splitOn_append_cons hblank, List.foldlM_cons]
      refine bind_congr fun next ↦ ?_
      rw [ih _ (by omega) (by omega) next rfl, hnext, applyWords]

end Argument

/-- **Attribute words in any order.** The words of a text are applied to an argument of which
nothing has been said exactly if each of them is known and at most one gives an array size. The
argument is then marked by the words that occur, and has the array size that one of them gives.
Scanning the words in place comes to the same. The words may be put in another order, with more
blanks and repeated marks. -/
theorem attribute_words_in_any_order {fresh : Argument} {name : Text} {type : TypeReference}
    {direction : Direction} {optional : Bool}
    (h : fresh = Argument.plain name type direction optional) (words : Text) :
    ((∃ a, fresh.applyWords words = .ok a) ↔ WordsAllowed (splitOn blank words)) ∧
      (∀ a, fresh.applyWords words = .ok a →
        a = { fresh with
          const := decide (("const" : Text) ∈ splitOn blank words)
          comOut := decide (("com_out" : Text) ∈ splitOn blank words)
          size := a.size } ∧
        ∀ size, a.size = some size ↔ ∃ word ∈ splitOn blank words, Sized word size) ∧
      fresh.scan words 0 = fresh.applyWords words ∧
      ∀ others, EqvGen Rearranges words others →
        ∀ a, fresh.applyWords words = .ok a ↔ fresh.applyWords others = .ok a := by
  subst h
  refine ⟨?_, fun a ha ↦ ?_, Argument.scan_eq (Nat.zero_le _) _, fun others hothers a ↦ ?_⟩
  · rw [wordsAllowed_iff, Argument.exists_applyWords_iff rfl]
  · obtain ⟨-, heq, hsize⟩ := (Argument.applyWords_eq_ok_iff rfl).mp ha
    refine ⟨heq, fun size ↦ ?_⟩
    rw [hsize size]
    exact or_iff_right nofun
  · induction hothers with
    | rel _ _ hstep => exact hstep.applyWords_iff rfl
    | refl => exact .rfl
    | symm _ _ _ ih => exact ih.symm
    | trans _ _ _ _ _ ih₁ ih₂ => exact ih₁.trans ih₂

/-- Words with a size that has zeros in front, with two blanks between them and one behind them. -/
def sizedWords : Text := "ca007  const com_out const "

/-- The same words in another order, and with the blanks elsewhere. -/
def reorderedWords : Text := " const  com_out const ca007"

theorem attribute_words_in_any_order_of_sized_words :
    Argument.plain "items" ⟨"BYTE", 1, none⟩ .input false
        = .plain "items" ⟨"BYTE", 1, none⟩ .input false ∧
      (Argument.plain "items" ⟨"BYTE", 1, none⟩ .input false).applyWords sizedWords
        = .ok ⟨"items", ⟨"BYTE", 1, none⟩, .input, false, true, true, some (.inArgument 7)⟩ ∧
      EqvGen Rearranges sizedWords reorderedWords ∧
      (Argument.plain "items" ⟨"BYTE", 1, none⟩ .input false).applyWords reorderedWords
        = .ok ⟨"items", ⟨"BYTE", 1, none⟩, .input, false, true, true, some (.inArgument 7)⟩ := by
  have hwords : (Argument.plain "items" ⟨"BYTE", 1, none⟩ .input false).applyWords sizedWords
      = .ok ⟨"items", ⟨"BYTE", 1, none⟩, .input, false, true, true, some (.inArgument 7)⟩ := by
    rfl
  have hothers : EqvGen Rearranges sizedWords reorderedWords :=
    .rel _ _ (.reorder (by decide +kernel))
  exact ⟨rfl, hwords, hothers,
    ((attribute_words_in_any_order rfl sizedWords).2.2.2 _ hothers _).mp hwords⟩

end NativeApi

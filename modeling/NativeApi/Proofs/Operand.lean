import NativeApi.Proofs.GuidText
import NativeApi.Proofs.Reading

/-!
# Operands

Whether the operands of a declaration denote anything depends on their texts alone, although what a
type denotes depends on the model. `Declaration.OperandsValid` lists what each text has to be, and
`exists_reads_iff` says that this is enough and needed.

The attribute words of an argument are the only operand with an inner rule: words that give an array
size may stand anywhere among the others, but not twice.
-/

namespace NativeApi

open Text (Numeral)

/-! ## Attribute words -/

namespace SizeForm

/-- The letters in front of the digits. -/
def mark : SizeForm → Text
  | inArgument => "ca"
  | constant => "cc"

theorem ofWord?_eq_some_iff {word digits : Text} {form : SizeForm} :
    ofWord? word = some (form, digits) ↔
      word = form.mark ++ digits ∧ digits ≠ [] ∧ digits.all Text.isDigit := by
  constructor
  · intro h
    match word with
    | [] => cases h
    | [_] => cases h
    | c :: letter :: rest =>
      simp only [ofWord?] at h
      split at h
      · rename_i hc
        obtain ⟨rfl, hne, hall⟩ := hc
        split at h
        · rename_i hletter
          cases h
          exact ⟨by rw [hletter]; rfl, hne, hall⟩
        · split at h
          · rename_i hletter
            cases h
            exact ⟨by rw [hletter]; rfl, hne, hall⟩
          · cases h
      · cases h
  · rintro ⟨rfl, hne, hall⟩
    cases form with
    | inArgument =>
      show ofWord? (0x63 :: 0x61 :: digits) = _
      simpa [ofWord?, hne] using hall
    | constant =>
      show ofWord? (0x63 :: 0x63 :: digits) = _
      simpa [ofWord?, hne] using hall

end SizeForm

/-- The words that give an array size: digits behind `ca` for the size in another argument, whose
index is below `2 ^ 16`, and behind `cc` for a constant size below `2 ^ 32`. -/
inductive Sized : Text → ArraySize → Prop
  | inArgument {digits : Text} {n : Nat} (h : Numeral 10 digits n) (hn : n < 0x10000) :
      Sized ("ca" ++ digits) (.inArgument n)
  | constant {digits : Text} {n : Nat} (h : Numeral 10 digits n) (hn : n < 0x100000000) :
      Sized ("cc" ++ digits) (.constant n)

theorem Text.Numeral.digits {digits : Text} {n : Nat} (h : Numeral 10 digits n) :
    digits ≠ [] ∧ digits.all isDigit := by
  refine ⟨h.ne_nil, List.all_eq_true.mpr fun b hb ↦ ?_⟩
  exact isDigit_iff.mpr (h.exists_digit hb)

theorem sized_iff {word : Text} {size : ArraySize} : Sized word size ↔
    ∃ form digits, SizeForm.ofWord? word = some (form, digits) ∧ form.size? digits = some size := by
  simp only [SizeForm.ofWord?_eq_some_iff, SizeForm.size?_eq_some_iff, Text.number?_eq_some_iff]
  constructor
  · intro h
    cases h with
    | inArgument h hn => exact ⟨.inArgument, _, ⟨rfl, h.digits⟩, _, h, hn, rfl⟩
    | constant h hn => exact ⟨.constant, _, ⟨rfl, h.digits⟩, _, h, hn, rfl⟩
  · rintro ⟨form, digits, ⟨rfl, -⟩, n, h, hn, rfl⟩
    cases form with
    | inArgument => exact .inArgument h hn
    | constant => exact .constant h hn

/-- A word that says nothing, or marks an argument. -/
def MarkWord (word : Text) : Prop := word = [] ∨ word = "const" ∨ word = "com_out"

/-- A word that gives an array size. -/
def SizeWord (word : Text) : Prop := ∃ size, Sized word size

/-- Valid attribute words: each marks the argument or gives an array size, and only one does the
latter. -/
structure AttributeWords (words : List Text) : Prop where
  valid : ∀ word ∈ words, MarkWord word ∨ SizeWord word
  single : words.Pairwise fun v w ↦ ¬(SizeWord v ∧ SizeWord w)

theorem AttributeWords.nil : AttributeWords [] :=
  ⟨fun _ hword ↦ absurd hword List.not_mem_nil, .nil⟩

theorem sizeWord_iff_of_ofWord? {word digits : Text} {form : SizeForm}
    (h : SizeForm.ofWord? word = some (form, digits)) :
    SizeWord word ↔ (form.size? digits).isSome := by
  rw [Option.isSome_iff_exists]
  refine exists_congr fun size ↦ ?_
  rw [sized_iff]
  constructor
  · rintro ⟨other, others, hword, hsize⟩
    rw [h] at hword
    cases hword
    exact hsize
  · intro hsize
    exact ⟨form, digits, h, hsize⟩

theorem not_sizeWord_of_ofWord? {word : Text} (h : SizeForm.ofWord? word = none) :
    ¬SizeWord word := by
  rintro ⟨size, hsize⟩
  obtain ⟨form, digits, hword, -⟩ := sized_iff.mp hsize
  rw [h] at hword
  cases hword

theorem not_sizeWord_of_markWord {word : Text} (h : MarkWord word) : ¬SizeWord word := by
  apply not_sizeWord_of_ofWord?
  rcases h with rfl | rfl | rfl
  · rfl
  · decide
  · decide

namespace Argument

variable {a b : Argument} {word : Text} {words : List Text}

/-- A word that an argument takes marks it, or gives it the array size that it lacks. -/
theorem Takes.markWord_or_sizeWord (h : a.Takes word b) :
    MarkWord word ∧ b.size = a.size ∨ SizeWord word ∧ a.size = none ∧ b.size.isSome := by
  cases h with
  | nothing => exact .inl ⟨.inl rfl, rfl⟩
  | const => exact .inl ⟨.inr (.inl rfl), rfl⟩
  | comOut => exact .inl ⟨.inr (.inr rfl), rfl⟩
  | size hword ha hsize =>
    have hvalid := (sizeWord_iff_of_ofWord? hword).mpr (Option.isSome_of_eq_some hsize)
    exact .inr ⟨hvalid, ha, rfl⟩

/-- An argument takes every word that marks it, and one that gives an array size if it has none. -/
theorem exists_takes_iff :
    (∃ b, a.Takes word b) ↔ MarkWord word ∨ SizeWord word ∧ a.size = none := by
  constructor
  · rintro ⟨b, h⟩
    rcases h.markWord_or_sizeWord with ⟨hmark, -⟩ | ⟨hsize, ha, -⟩
    · exact .inl hmark
    · exact .inr ⟨hsize, ha⟩
  · rintro ((rfl | rfl | rfl) | ⟨h, ha⟩)
    · exact ⟨_, .nothing⟩
    · exact ⟨_, .const⟩
    · exact ⟨_, .comOut⟩
    · obtain ⟨size, hsized⟩ := h
      obtain ⟨form, digits, hword, hsize⟩ := sized_iff.mp hsized
      exact ⟨_, .size hword ha hsize⟩

/-- There is an array size behind a word if there was one before or the word gives one. -/
theorem Takes.isSome_size_iff (h : a.Takes word b) :
    b.size.isSome ↔ a.size.isSome ∨ SizeWord word := by
  rcases h.markWord_or_sizeWord with ⟨hmark, hb⟩ | ⟨hsize, -, hb⟩
  · rw [hb]
    exact ⟨.inl, fun hor ↦ hor.resolve_right (not_sizeWord_of_markWord hmark)⟩
  · exact iff_of_true hb (.inr hsize)

/-- A list of words is applied if its words are valid and no array size would be a second one,
counting the one that the argument has already. -/
theorem exists_foldlM_applyWord_iff :
    (∃ b, words.foldlM applyWord a = .ok b) ↔
      AttributeWords words ∧ (a.size.isSome → ∀ word ∈ words, ¬SizeWord word) := by
  -- The size that an argument has already stands for the size words before the list.
  induction words generalizing a with
  | nil => simp [pure, Except.pure, AttributeWords.nil]
  | cons word words ih =>
    have hstep : (∃ b, (word :: words).foldlM applyWord a = .ok b) ↔
        ∃ c, a.Takes word c ∧ ∃ b, words.foldlM applyWord c = .ok b := by
      simp only [List.foldlM_cons, bind_eq_ok, applyWord_eq_ok]
      exact ⟨fun ⟨b, c, hc, hb⟩ ↦ ⟨c, hc, b, hb⟩, fun ⟨c, hc, b, hb⟩ ↦ ⟨b, c, hc, hb⟩⟩
    rw [hstep]
    constructor
    · rintro ⟨c, hc, hwords⟩
      obtain ⟨⟨hvalid, hsingle⟩, hrest⟩ := ih.mp hwords
      rw [hc.isSome_size_iff] at hrest
      have hword := exists_takes_iff.mp ⟨c, hc⟩
      refine ⟨⟨?_, ?_⟩, fun ha ↦ ?_⟩
      · exact List.forall_mem_cons.mpr ⟨hword.imp_right And.left, hvalid⟩
      · refine List.pairwise_cons.mpr ⟨fun v hv hboth ↦ ?_, hsingle⟩
        exact hrest (.inr hboth.1) v hv hboth.2
      · refine List.forall_mem_cons.mpr ⟨?_, hrest (.inl ha)⟩
        rcases hword with hmark | ⟨-, hnone⟩
        · exact not_sizeWord_of_markWord hmark
        · rw [hnone] at ha
          cases ha
    · rintro ⟨⟨hvalid, hsingle⟩, ha⟩
      rw [List.forall_mem_cons] at hvalid ha
      rw [List.pairwise_cons] at hsingle
      have hword : MarkWord word ∨ SizeWord word ∧ a.size = none := by
        refine hvalid.1.imp_right fun hsize ↦ ⟨hsize, ?_⟩
        rw [← Option.not_isSome_iff_eq_none]
        exact fun hsome ↦ (ha hsome).1 hsize
      obtain ⟨c, hc⟩ := exists_takes_iff.mpr hword
      refine ⟨c, hc, ih.mpr ⟨⟨hvalid.2, hsingle.2⟩, fun hcsize v hv hvsize ↦ ?_⟩⟩
      rcases hc.isSome_size_iff.mp hcsize with hsome | hsize
      · exact (ha hsome).2 v hv hvsize
      · exact hsingle.1 v hv ⟨hsize, hvsize⟩

/-- Without an array size, the words only have to be valid. -/
theorem exists_applyWords_iff {attributes : Text} (ha : a.size = none) :
    (∃ b, a.applyWords attributes = .ok b) ↔
      AttributeWords (Text.splitOn Text.blank attributes) := by
  simp only [applyWords, exists_foldlM_applyWord_iff, ha]
  exact and_iff_left fun h ↦ by cases h

end Argument

/-! ## Declarations -/

/-- The text spells some number below a bound. -/
def IsNumber (bound : Nat) (t : Text) : Prop := ∃ n, Denotes bound t n

namespace Declaration

/-- Every operand is a text that denotes something. -/
def OperandsValid : Declaration → Prop
  | functionPointer _ _ depth code =>
    IsNumber 0x100000000 depth ∧ ∀ t ∈ code, IsNumber 0x100000000 t
  | function _ _ depth convention =>
    IsNumber 0x100000000 depth ∧
      ∀ t ∈ convention, t ∈ (["winapi", "cdecl", "stdcall", "thiscall", "fastcall"] : List Text)
  | argument _ direction _ _ depth attributes =>
    direction ∈ (["in", "out", "inout"] : List Text) ∧ IsNumber 0x100000000 depth ∧
      AttributeWords (Text.splitOn Text.blank attributes)
  | interface _ group value _ => IsNumber 0x100 group ∧ IsNumber 0x100 value
  | method _ _ depth => IsNumber 0x100000000 depth
  | variant _ value => ∃ i, IntegerLiteral.Spells value i ∧ i.natAbs < 0x10000000000000000
  | field _ _ depth => IsNumber 0x100000000 depth
  | guid _ value => Guid.Written value
  | _ => True

end Declaration

theorem exists_codeIs_iff {t : Option Text} :
    (∃ code, CodeIs t code) ↔ ∀ u ∈ t, IsNumber 0x100000000 u := by
  cases t with
  | none => simp [CodeIs]
  | some t =>
    constructor
    · rintro ⟨code, n, hn, -⟩ u hu
      cases hu
      exact ⟨n, hn⟩
    · intro h
      obtain ⟨n, hn⟩ := h t rfl
      exact ⟨UInt32.ofNat n, n, hn, rfl⟩

theorem exists_conventionIs_iff {t : Option Text} :
    (∃ convention, ConventionIs t convention) ↔ ∀ u ∈ t, u ∈ conventions := by
  cases t with
  | none => simp [ConventionIs]
  | some t => simp [ConventionIs]

theorem exists_direction_iff {t : Text} :
    (∃ d : Direction, t = d.text) ↔ t ∈ (["in", "out", "inout"] : List Text) := by
  simp only [List.mem_cons, List.not_mem_nil, or_false]
  constructor
  · rintro ⟨d, rfl⟩
    cases d with
    | input => exact .inl rfl
    | output => exact .inr (.inl rfl)
    | both => exact .inr (.inr rfl)
  · rintro (rfl | rfl | rfl)
    · exact ⟨.input, rfl⟩
    · exact ⟨.output, rfl⟩
    · exact ⟨.both, rfl⟩

/-- The operands of a declaration denote an entry if each of them denotes something. -/
theorem exists_reads_iff {m : Model} {d : Declaration} :
    (∃ e, Reads m d e) ↔ d.OperandsValid := by
  constructor
  · rintro ⟨e, h⟩
    cases h with
    | header => trivial
    | functionPointer hn hc => exact ⟨⟨_, hn⟩, exists_codeIs_iff.mp ⟨_, hc⟩⟩
    | dll => trivial
    | function hn hc => exact ⟨⟨_, hn⟩, exists_conventionIs_iff.mp ⟨_, hc⟩⟩
    | argument hn ha =>
      exact ⟨exists_direction_iff.mp ⟨_, rfl⟩, ⟨_, hn⟩,
        (Argument.exists_applyWords_iff rfl).mp ⟨_, ha⟩⟩
    | interface hg hv => exact ⟨⟨_, hg⟩, _, hv⟩
    | method hn => exact ⟨_, hn⟩
    | standardMethod => trivial
    | enumeration => trivial
    | variant hl =>
      obtain ⟨i, hspells, hword, -⟩ := IntegerLiteral.ofText?_eq_some_iff.mp hl
      exact ⟨i, hspells, hword⟩
    | struct => trivial
    | field hn => exact ⟨_, hn⟩
    | guid hg => exact Guid.isSome_ofText?_iff.mp (Option.isSome_of_eq_some hg)
  · intro h
    cases d with
    | header name version => exact ⟨_, .header name version⟩
    | functionPointer name type depth code =>
      obtain ⟨⟨n, hn⟩, hcode⟩ := h
      obtain ⟨c, hc⟩ := exists_codeIs_iff.mpr hcode
      exact ⟨_, .functionPointer hn hc⟩
    | dll name => exact ⟨_, .dll name⟩
    | function name type depth convention =>
      obtain ⟨⟨n, hn⟩, hconvention⟩ := h
      obtain ⟨c, hc⟩ := exists_conventionIs_iff.mpr hconvention
      exact ⟨_, .function hn hc⟩
    | argument optional direction name type depth attributes =>
      obtain ⟨hdirection, ⟨n, hn⟩, hwords⟩ := h
      obtain ⟨d, rfl⟩ := exists_direction_iff.mpr hdirection
      obtain ⟨a, ha⟩ := (Argument.exists_applyWords_iff
        (a := Argument.plain name (m.enrich ⟨type, n, none⟩) d optional) rfl).mpr hwords
      exact ⟨_, .argument hn ha⟩
    | interface name group value base =>
      obtain ⟨⟨g, hg⟩, v, hv⟩ := h
      exact ⟨_, .interface hg hv⟩
    | method name type depth =>
      obtain ⟨n, hn⟩ := h
      exact ⟨_, .method hn⟩
    | standardMethod name => exact ⟨_, .standardMethod name⟩
    | enumeration flags name base => exact ⟨_, .enumeration flags name base⟩
    | variant name value =>
      obtain ⟨i, hspells, hword⟩ := h
      exact ⟨_, .variant (IntegerLiteral.ofText?_eq_some_iff.mpr ⟨i, hspells, hword, rfl⟩)⟩
    | struct name => exact ⟨_, .struct name⟩
    | field name type depth =>
      obtain ⟨n, hn⟩ := h
      exact ⟨_, .field hn⟩
    | guid name value =>
      obtain ⟨g, hg⟩ := Option.isSome_iff_exists.mp (Guid.isSome_ofText?_iff.mpr h)
      exact ⟨_, .guid hg⟩

end NativeApi

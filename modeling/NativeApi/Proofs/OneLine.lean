import NativeApi.Proofs.DefinitionLanguage
import NativeApi.Proofs.History
import NativeApi.Proofs.ModelTexts
import NativeApi.Proofs.Renderable
import NativeApi.Proofs.Writing

/-!
# Texts of one line

A line of a file has no line feed but at its end, and that is no part of any operand. The other
texts of a model are fixed, or made of digits and dashes, or of texts that are there already. So
whatever is collected from files has texts of one line only, and only a source whose lines do not
come from a file can bring others.
-/

namespace NativeApi

open Text (newline tab)

variable {P : Text → Prop}

/-- A text without a line feed. -/
def Text.OneLine (t : Text) : Prop := newline ∉ t

instance (t : Text) : Decidable t.OneLine := inferInstanceAs (Decidable (newline ∉ t))

namespace Declaration

/-- The operands of a declaration, as written. -/
def operands : Declaration → List Text
  | header name version => [name, version]
  | functionPointer name returnType returnDepth code =>
    [name, returnType, returnDepth] ++ code.toList
  | dll name => [name]
  | function name returnType returnDepth convention =>
    [name, returnType, returnDepth] ++ convention.toList
  | argument _ direction name type depth attributes => [direction, name, type, depth, attributes]
  | interface name group value base => [name, group, value, base]
  | method name returnType returnDepth => [name, returnType, returnDepth]
  | standardMethod name => [name]
  | enumeration _ name base => [name, base]
  | variant name value => [name, value]
  | struct name => [name]
  | field name type depth => [name, type, depth]
  | guid name value => [name, value]

/-- No operand has a line feed. -/
def OneLine (d : Declaration) : Prop := ∀ t ∈ d.operands, t.OneLine

end Declaration

/-! ### Texts that are made -/

namespace Text

/-- The bytes of a literal come from its characters, and not by way of its encoding. -/
theorem ofLiteral_ofList (cs : List Char) : ofLiteral (String.ofList cs) = cs.map Char.toUInt8 := by
  rw [ofLiteral, String.toList_ofList]

theorem ofLiteral_eq_append {cs ds es : List Char} (h : cs = ds ++ es) :
    ofLiteral (String.ofList cs)
      = ofLiteral (String.ofList ds) ++ ofLiteral (String.ofList es) := by
  rw [ofLiteral_ofList, ofLiteral_ofList, ofLiteral_ofList, h, List.map_append]

/-- Of a literal it is decided by its characters. -/
theorem OneLine.literal {cs : List Char} (h : OneLine (cs.map Char.toUInt8)) :
    OneLine (ofLiteral (String.ofList cs)) := by
  rwa [ofLiteral_ofList]

theorem eq_newline_of_lowerByte {b : UInt8} (h : lowerByte b = newline) : b = newline := by
  grind [lowerByte, isUpper, newline]

theorem OneLine.toLower {t : Text} (h : t.OneLine) : (Text.toLower t).OneLine := by
  intro hmem
  obtain ⟨b, hb, hlower⟩ := List.mem_map.mp hmem
  rw [eq_newline_of_lowerByte hlower] at hb
  exact h hb

theorem compositional_oneLine : Compositional OneLine := compositional_notMem newline

theorem OneLine.append {t u : Text} (ht : t.OneLine) (hu : u.OneLine) : (t ++ u).OneLine :=
  compositional_oneLine.append t u ht hu

theorem OneLine.quoted {t : Text} (h : t.OneLine) : (Text.quoted t).OneLine :=
  .append (.append (by decide) h) (by decide)

theorem OneLine.showIf {t : Text} (h : t.OneLine) (flag : Bool) : (Text.showIf flag t).OneLine :=
  compositional_oneLine.showIf h flag

theorem isDigit_of_mem_decimal {n : Nat} {b : UInt8} (h : b ∈ decimal n) : isDigit b = true := by
  obtain ⟨c, hc, rfl⟩ := List.mem_map.mp h
  have hdigit := Nat.isDigit_of_mem_toDigits (by decide) (by decide) hc
  rw [Char.isDigit, Bool.and_eq_true, decide_eq_true_iff, decide_eq_true_iff] at hdigit
  have hlow : 48 ≤ c.val.toNat := hdigit.1
  have hhigh : c.val.toNat ≤ 57 := hdigit.2
  have hbyte : c.toUInt8.toNat = c.val.toNat % 256 := UInt32.toNat_toUInt8 c.val
  rw [isDigit, Bool.and_eq_true, decide_eq_true_iff, decide_eq_true_iff, UInt8.le_iff_toNat_le,
    UInt8.le_iff_toNat_le, hbyte]
  exact ⟨show 48 ≤ _ by omega, show _ ≤ 57 by omega⟩

theorem oneLine_decimal (n : Nat) : (decimal n).OneLine :=
  fun hmem ↦ absurd (isDigit_of_mem_decimal hmem) (by decide)

end Text

namespace Hex

variable {Q : UInt8 → Prop} (hdigit : ∀ n < 16, Q (digit n))
include hdigit

theorem forall_mem_pair (b : UInt8) : ∀ c ∈ pair b, Q c := by
  have hhigh : b.toNat / 16 < 16 := by
    have hlt := b.toNat_lt
    omega
  intro c hc
  rw [pair, List.mem_cons, List.mem_singleton] at hc
  rcases hc with rfl | rfl
  · exact hdigit _ hhigh
  · exact hdigit _ (Nat.mod_lt _ (by decide))

theorem forall_mem_digits (b : Blob) : ∀ c ∈ digits b, Q c := by
  intro c hc
  obtain ⟨byte, -, hc⟩ := List.mem_flatMap.mp hc
  exact forall_mem_pair hdigit byte c hc

/-- What holds of all digits holds of all bytes of a dump, if it holds of the blank. -/
theorem forall_mem_dump (hblank : Q Text.blank) (b : Blob) : ∀ c ∈ dump b, Q c := by
  intro c hc
  rcases Text.mem_joinWith hc with rfl | ⟨piece, hpiece, hc⟩
  · exact hblank
  · obtain ⟨byte, -, rfl⟩ := List.mem_map.mp hpiece
    exact forall_mem_pair hdigit byte c hc

end Hex

theorem Hex.oneLine_dump (b : Blob) : (dump b).OneLine :=
  fun hmem ↦ forall_mem_dump (Q := (· ≠ newline)) (by decide) (by decide) b _ hmem rfl

theorem IntegerLiteral.oneLine_text (l : IntegerLiteral) : l.text.OneLine := by
  rw [text]
  split
  · exact .append (by decide) (Text.oneLine_decimal _)
  · exact Text.oneLine_decimal _

/-- What holds of all digits holds of all bytes of the text of a GUID, if it holds of the dash. -/
theorem Guid.forall_mem_text {Q : UInt8 → Prop} (hdigit : ∀ n < 16, Q (Hex.digit n))
    (hdash : Q dash) (g : Guid) : ∀ c ∈ g.text, Q c := by
  intro c hc
  rcases Text.mem_joinWith hc with rfl | ⟨piece, hpiece, hc⟩
  · exact hdash
  · simp only [List.mem_cons, List.not_mem_nil, or_false] at hpiece
    rcases hpiece with rfl | rfl | rfl | rfl | rfl <;>
      exact Hex.forall_mem_digits hdigit _ c hc

theorem Guid.oneLine_text (g : Guid) : g.text.OneLine :=
  fun hmem ↦ forall_mem_text (Q := (· ≠ newline)) (by decide) (by decide) g _ hmem rfl

/-! ### Reading -/

/-- The name of an argument stays as it is, whatever its attribute words are. -/
theorem Argument.name_of_applyWords {name words : Text} {type : TypeReference}
    {direction : Direction} {optional : Bool} {a : Argument}
    (h : (plain name type direction optional).applyWords words = .ok a) : a.name = name := by
  refine foldlM_applyWord_induction (P := fun b ↦ b.name = name) (fun b word next hb hword ↦ ?_)
    h rfl
  cases hword <;> exact hb

theorem Model.AllTexts.enrich {m : Model} (h : m.AllTexts P) {type : Text} (htype : P type)
    (depth : Nat) : (m.enrich ⟨type, depth, none⟩).AllTexts P := by
  have hplain : TypeReference.AllTexts P ⟨type, depth, none⟩ :=
    ⟨htype, fun _ hname ↦ absurd hname (Option.not_mem_none _)⟩
  rw [Model.enrich]
  split
  · split
    · rename_i e he
      have he := h.enumerations e (List.mem_of_find?_eq_some he)
      refine ⟨he.base.1, fun name hname ↦ ?_⟩
      rw [← Option.mem_some_iff.mp hname]
      exact he.name
    · exact hplain
  · exact hplain

theorem ConventionIs.oneLine {t : Option Text} {convention : Text} (h : ConventionIs t convention)
    (ht : ∀ u ∈ t.toList, u.OneLine) : convention.OneLine := by
  cases t with
  | none =>
    rw [show convention = "winapi" from h]
    decide
  | some u =>
    rw [h.2]
    exact ht u List.mem_cons_self

/-- What the operands of a declaration denote has no line feed if they have none. -/
theorem Reads.oneLine {m : Model} {d : Declaration} {e : Entry} (h : Reads m d e)
    (hm : m.AllTexts Text.OneLine) (hd : d.OneLine) : e.AllTexts Text.OneLine := by
  have hfirst {t : Text} {ts : List Text} (h : ∀ u ∈ t :: ts, u.OneLine) :
      t.OneLine ∧ ∀ u ∈ ts, u.OneLine := List.forall_mem_cons.mp h
  cases h with
  | header name version =>
    obtain ⟨hname, hd⟩ := hfirst hd
    exact ⟨hname, (hfirst hd).1⟩
  | functionPointer hn hc =>
    obtain ⟨hname, hd⟩ := hfirst hd
    exact ⟨hname, hm.enrich (hfirst hd).1 _⟩
  | dll name => exact ⟨(hfirst hd).1, (hfirst hd).1.toLower⟩
  | function hn hc =>
    obtain ⟨hname, hd⟩ := hfirst hd
    obtain ⟨htype, hd⟩ := hfirst hd
    exact ⟨hname, hm.enrich htype _, hc.oneLine (hfirst hd).2⟩
  | argument hn ha =>
    obtain ⟨-, hd⟩ := hfirst hd
    obtain ⟨hname, hd⟩ := hfirst hd
    refine ⟨?_, ?_⟩
    · rw [Argument.name_of_applyWords ha]
      exact hname
    · rw [(Argument.fits_of_applyWords ha).1]
      exact hm.enrich (hfirst hd).1 _
  | interface hg hv =>
    obtain ⟨hname, hd⟩ := hfirst hd
    obtain ⟨-, hd⟩ := hfirst hd
    obtain ⟨-, hd⟩ := hfirst hd
    exact ⟨hname, TypeReference.allTexts_named (hfirst hd).1⟩
  | method hn =>
    obtain ⟨hname, hd⟩ := hfirst hd
    exact ⟨hname, hm.enrich (hfirst hd).1 _⟩
  | standardMethod name =>
    have hresult : Text.OneLine "HRESULT" := by decide
    exact ⟨(hfirst hd).1, TypeReference.allTexts_named hresult⟩
  | enumeration flags name base =>
    obtain ⟨hname, hd⟩ := hfirst hd
    exact ⟨hname, TypeReference.allTexts_named (hfirst hd).1⟩
  | variant hl => exact (hfirst hd).1
  | struct name => exact (hfirst hd).1
  | field hn =>
    obtain ⟨hname, hd⟩ := hfirst hd
    exact ⟨hname, hm.enrich (hfirst hd).1 _⟩
  | guid hg => exact ⟨(hfirst hd).1, Guid.oneLine_text _⟩

theorem State.Run.oneLine {s : State} {ds : List Declaration} {es : List Entry} (h : s.Run ds es)
    (hs : s.AllTexts Text.OneLine) (hds : ∀ d ∈ ds, d.OneLine) :
    (s.addAll es).AllTexts Text.OneLine := by
  induction h with
  | nil s => exact hs
  | cons hread t ih =>
    obtain ⟨hd, hds⟩ := List.forall_mem_cons.mp hds
    exact ih (hs.add ((State.read_eq_ok.mp hread).1.oneLine hs.model hd)) hds

/-- A state has texts of one line if the operands of its history have no line feed. -/
theorem VisitedBy.oneLine {ds : List Declaration} {s : State} (h : VisitedBy ds s)
    (hds : ∀ d ∈ ds, d.OneLine) : s.model.AllTexts Text.OneLine := by
  obtain ⟨es, hrun, rfl⟩ := h.exists_run
  exact (hrun.oneLine State.allTexts_initial hds).model

/-! ### Files -/

namespace Text

theorem mem_of_mem_dropTrailing {p : UInt8 → Bool} {t : Text} {b : UInt8}
    (h : b ∈ dropTrailing p t) : b ∈ t := by
  obtain ⟨u, -, ht⟩ := exists_dropTrailing_append p t
  rw [ht]
  exact List.mem_append_left u h

/-- A line has no line feed but at its end. -/
theorem exists_of_mem_lines {t line : Text} (h : line ∈ lines t) :
    ∃ body ending : Text, line = body ++ ending ∧ body.OneLine ∧
      ∀ b ∈ ending, isTerminator b = true := by
  induction t using lineInduction with
  | last t ht =>
    by_cases hne : t = []
    · rw [hne] at h
      exact absurd h List.not_mem_nil
    · rw [lines_of_newline_notMem ht hne, List.mem_singleton] at h
      exact ⟨t, [], by rw [h, List.append_nil], ht, fun b hb ↦ absurd hb List.not_mem_nil⟩
  | line body rest hbody ih =>
    rw [lines_append_newline hbody, List.mem_cons] at h
    rcases h with rfl | h
    · exact ⟨body, [newline], rfl, hbody, List.all_eq_true.mp rfl⟩
    · exact ih h

end Text

namespace Line

theorem mem_of_mem_content {raw : Text} {b : UInt8} (h : b ∈ content raw) : b ∈ raw := by
  simp only [content] at h
  split at h
  · exact absurd h List.not_mem_nil
  · rw [withoutComment] at h
    split at h
    · exact Text.mem_of_mem_dropTrailing
        (List.takeWhile_sublist _ |>.subset (Text.mem_of_mem_dropTrailing h))
    · exact Text.mem_of_mem_dropTrailing h

theorem oneLine_content {t line : Text} (h : line ∈ t.lines) : (content line).OneLine := by
  obtain ⟨body, ending, rfl, hbody, hending⟩ := Text.exists_of_mem_lines h
  rw [content_append_of_isTerminator hending]
  exact fun hmem ↦ hbody (mem_of_mem_content hmem)

end Line

namespace Text

/-- The bytes of a piece are bytes of the text. -/
theorem mem_of_mem_splitOn {s b : UInt8} {t piece : Text} (h : piece ∈ splitOn s t)
    (hb : b ∈ piece) : b ∈ t := by
  rw [← joinWith_splitOn s t]
  generalize splitOn s t = pieces at h
  induction pieces with
  | nil => exact absurd h List.not_mem_nil
  | cons first others ih =>
    by_cases hothers : others = []
    · rw [hothers, List.mem_singleton] at h
      rw [hothers, joinWith_singleton, ← h]
      exact hb
    · rw [joinWith_cons s first hothers]
      rcases List.mem_cons.mp h with rfl | h
      · exact List.mem_append_left _ hb
      · exact List.mem_append_right _ (List.mem_cons_of_mem _ (ih h))

end Text

theorem Declaration.of_argument? {optional : Bool} {operands : List Text} {d : Declaration}
    (h : argument? optional operands = some d) :
    d.keyword = (if optional then .optionalArgument else .argument) ∧
      (d.operands = operands ∨ d.operands = operands ++ [[]]) := by
  rw [argument?.eq_def] at h
  split at h <;> cases h
  · exact ⟨rfl, .inr rfl⟩
  · exact ⟨rfl, .inl rfl⟩

theorem Declaration.of_enumeration? {flags : Bool} {operands : List Text} {d : Declaration}
    (h : enumeration? flags operands = some d) :
    d.keyword = (if flags then .flags else .enumeration) ∧ d.operands = operands := by
  rw [enumeration?.eq_def] at h
  split at h <;> cases h
  exact ⟨rfl, rfl⟩

/-- A command and its declaration have the same keyword and the same operands. Attribute words may
be left out. -/
theorem Statement.of_declare {k : Command} {d : Declaration}
    (h : ofCommand? k = some (.declare d)) :
    d.keyword = k.keyword ∧ (d.operands = k.operands ∨ d.operands = k.operands ++ [[]]) := by
  obtain ⟨keyword, operands⟩ := k
  cases keyword with
  | argument =>
    obtain ⟨d, hd, heq⟩ := Option.map_eq_some_iff.mp h
    cases heq
    exact Declaration.of_argument? hd
  | optionalArgument =>
    obtain ⟨d, hd, heq⟩ := Option.map_eq_some_iff.mp h
    cases heq
    exact Declaration.of_argument? hd
  | enumeration =>
    obtain ⟨d, hd, heq⟩ := Option.map_eq_some_iff.mp h
    cases heq
    exact (Declaration.of_enumeration? hd).imp_right .inl
  | flags =>
    obtain ⟨d, hd, heq⟩ := Option.map_eq_some_iff.mp h
    cases heq
    exact (Declaration.of_enumeration? hd).imp_right .inl
  | _ =>
    simp only [ofCommand?] at h
    split at h <;> cases h
    all_goals exact ⟨rfl, .inl rfl⟩

/-- A declaration in a line of a text has operands without line feeds. -/
theorem Line.oneLine_of_declaration? {t line : Text} (hline : line ∈ t.lines) {d : Declaration}
    (h : (ofText line).declaration? = some d) : d.OneLine := by
  have hcontent := oneLine_content hline
  rw [declaration?.eq_def] at h
  split at h
  · rename_i k hk
    split at h
    · rename_i hstatement
      cases h
      have hfield {u : Text} (hu : u ∈ k.operands) : u.OneLine := by
        intro hmem
        have hpiece : u ∈ Text.splitOn tab (content line) := by
          rw [← Command.fields_of_ofText hk]
          exact List.mem_cons_of_mem _ hu
        exact hcontent (Text.mem_of_mem_splitOn hpiece hmem)
      intro u hu
      rcases (Statement.of_declare hstatement).2 with hoperands | hoperands
      · rw [hoperands] at hu
        exact hfield hu
      · rw [hoperands, List.mem_append, List.mem_singleton] at hu
        rcases hu with hu | rfl
        · exact hfield hu
        · exact List.not_mem_nil
    · cases h
  · cases h

/-- The declaration that an item of a line is stands in the line, unless the line includes it. -/
theorem declaration?_of_mem_expandLine {included : Nat → Text → List Item} {file raw : Text}
    {number : Nat} {i : Item} {d : Declaration} (hi : i ∈ expandLine included file number raw)
    (hd : i.element = .declaration d) :
    (Line.ofText raw).declaration? = some d ∨ ∃ path, i ∈ included number path := by
  rw [expandLine] at hi
  cases hline : Line.ofText raw with
  | blank =>
    rw [hline] at hi
    exact absurd hi List.not_mem_nil
  | unknown word =>
    simp only [hline, List.mem_singleton] at hi
    rw [hi] at hd
    cases hd
  | command k =>
    simp only [hline] at hi
    cases hstatement : Statement.ofCommand? k with
    | none =>
      simp only [hstatement, List.mem_singleton] at hi
      rw [hi] at hd
      cases hd
    | some statement =>
      cases statement with
      | declare other =>
        simp only [hstatement, List.mem_singleton] at hi
        rw [hi] at hd
        cases hd
        refine .inl ?_
        simp only [Line.declaration?, hstatement]
      | inclusion path =>
        simp only [hstatement] at hi
        exact .inr ⟨path, hi⟩

theorem declaration?_of_mem_expandLines {included : Nat → Text → List Item} {file : Text}
    {lines : List Text} {number : Nat} {i : Item} {d : Declaration}
    (hi : i ∈ expandLines included file number lines) (hd : i.element = .declaration d) :
    (∃ raw ∈ lines, (Line.ofText raw).declaration? = some d) ∨
      ∃ position path, i ∈ included position path := by
  induction lines generalizing number with
  | nil => exact absurd hi List.not_mem_nil
  | cons raw lines ih =>
    rw [expandLines, List.mem_append] at hi
    rcases hi with hi | hi
    · rcases declaration?_of_mem_expandLine hi hd with hraw | ⟨path, hpath⟩
      · exact .inl ⟨raw, List.mem_cons_self, hraw⟩
      · exact .inr ⟨number, path, hpath⟩
    · rcases ih hi with ⟨other, hother, hd⟩ | hincluded
      · exact .inl ⟨other, List.mem_cons_of_mem _ hother, hd⟩
      · exact .inr hincluded

/-- Every declaration of an expansion of a file stands in a line of some text: of the file or of one
that is included. -/
theorem exists_line_of_mem_expand {read : Text → Option Text} {levels : Nat} {path content : Text}
    {i : Item} {d : Declaration} (hi : i ∈ expand read levels (Source.ofContent path content))
    (hd : i.element = .declaration d) :
    ∃ t line : Text, line ∈ t.lines ∧ (Line.ofText line).declaration? = some d := by
  induction levels generalizing path content with
  | zero =>
    rw [expand] at hi
    rcases declaration?_of_mem_expandLines hi hd with ⟨raw, hraw, hline⟩ | ⟨number, target, hi⟩
    · exact ⟨content, raw, hraw, hline⟩
    · rw [List.mem_singleton] at hi
      rw [hi] at hd
      cases hd
  | succ levels ih =>
    rw [expand] at hi
    rcases declaration?_of_mem_expandLines hi hd with ⟨raw, hraw, hline⟩ | ⟨number, target, hi⟩
    · exact ⟨content, raw, hraw, hline⟩
    · dsimp only at hi
      split at hi
      · rw [List.mem_singleton] at hi
        rw [hi] at hd
        cases hd
      · rw [List.mem_cons] at hi
        rcases hi with rfl | hi
        · cases hd
        · exact ih hi

theorem mem_of_mem_acceptedIn {items : List Item} {c : Session} {d : Declaration}
    (h : d ∈ acceptedIn items c) : ∃ i ∈ items, i.element = .declaration d := by
  induction items generalizing c with
  | nil => exact absurd h List.not_mem_nil
  | cons i items ih =>
    rw [acceptedIn] at h
    split at h
    · rcases List.mem_append.mp h with h | h
      · refine ⟨i, List.mem_cons_self, ?_⟩
        cases helement : i.element with
        | declaration e =>
          rw [helement] at h
          rw [List.mem_singleton.mp h]
        | _ =>
          rw [helement] at h
          exact absurd h List.not_mem_nil
      · obtain ⟨j, hj, hd⟩ := ih h
        exact ⟨j, List.mem_cons_of_mem _ hj, hd⟩
    · exact absurd h List.not_mem_nil

/-- **Files have lines of one line.** Whatever is accepted from the file at a path, or from files
that it includes, has operands without line feeds. -/
theorem oneLine_of_mem_acceptedIn_path {read : Text → Option Text} {path : Text} {c : Session}
    {d : Declaration} (h : d ∈ acceptedIn (Call.path read path).items c) : d.OneLine := by
  obtain ⟨i, hi, hd⟩ := mem_of_mem_acceptedIn h
  rw [Call.items] at hi
  split at hi
  · rw [List.mem_singleton] at hi
    rw [hi] at hd
    cases hd
  · obtain ⟨t, line, hline, hdeclaration⟩ := exists_line_of_mem_expand hi hd
    exact Line.oneLine_of_declaration? hline hdeclaration

end NativeApi

import NativeApi.Diagnostic
import NativeApi.Proofs.LineContent
import NativeApi.Proofs.Splitting

/-!
# Written files

A command is written with tabs between its fields, and a file is written line by line. There is some
freedom in this. A line ends in a line feed and any number of carriage returns before it, a remark
may stand behind a command, and idle lines may stand anywhere; at the end of the file the terminator
may be left out. Reading takes all of it back: it finds the commands and the numbers of their lines,
and nothing to complain about.

Not every list of fields can be written. A tab would end a field, a line feed the line, and a `#`
whatever the line has to say. A carriage return does harm at the very end only, where it would be
taken for a part of the terminator. A remark takes the white space before it away, so it may stand
behind a last field only that is not empty and does not end in white space.
-/

namespace NativeApi

open Text (tab newline carriageReturn hash isSpace isTerminator)

/-! ## Keywords -/

namespace Keyword

theorem ofText?_text (k : Keyword) : ofText? k.text = some k := by cases k <;> rfl

theorem text_of_ofText? {t : Text} {k : Keyword} (h : ofText? t = some k) : k.text = t := by
  have hfound := List.find?_some h
  exact beq_iff_eq.mp hfound

theorem text_ne_nil (k : Keyword) : k.text ≠ [] := by cases k <;> decide

theorem mem_text {k : Keyword} {b : UInt8} (h : b ∈ k.text) : isSpace b = false ∧ b ≠ hash := by
  have hall : k.text.all (fun b ↦ !isSpace b && b != hash) = true := by cases k <;> rfl
  have hb := List.all_eq_true.mp hall b h
  rwa [Bool.and_eq_true, Bool.not_eq_true', bne_iff_ne] at hb

end Keyword

/-! ## Commands -/

namespace Command

/-- A command as a line shows it. -/
def written (k : Command) : Text := Text.joinWith tab k.fields

/-- The fields of a command have no byte that means something else in a line. -/
structure Writable (k : Command) : Prop where
  operands : ∀ t ∈ k.operands, tab ∉ t ∧ newline ∉ t ∧ hash ∉ t
  last : ∀ t ∈ k.operands.getLast?, carriageReturn ∉ t.getLast?

/-- The last field, which is the keyword if there are no others, ends in something other than white
space. -/
def EndsVisibly (k : Command) : Prop :=
  ∃ t ∈ k.fields.getLast?, ∃ b ∈ t.getLast?, isSpace b = false

variable {k : Command}

theorem fields_ne_nil (k : Command) : k.fields ≠ [] := List.cons_ne_nil _ _

theorem Writable.fields (h : k.Writable) {t : Text} (ht : t ∈ k.fields) :
    tab ∉ t ∧ newline ∉ t ∧ hash ∉ t := by
  rcases List.mem_cons.mp ht with rfl | ht
  · refine ⟨fun hb ↦ ?_, fun hb ↦ ?_, fun hb ↦ (Keyword.mem_text hb).2 rfl⟩
    · exact absurd (Keyword.mem_text hb).1 (by decide)
    · exact absurd (Keyword.mem_text hb).1 (by decide)
  · exact h.operands t ht

theorem Writable.newline_notMem (h : k.Writable) : newline ∉ k.written := by
  intro hb
  rcases Text.mem_joinWith hb with hb | ⟨t, ht, hb⟩
  · exact absurd hb (by decide)
  · exact (h.fields ht).2.1 hb

theorem Writable.hash_notMem (h : k.Writable) : hash ∉ k.written := by
  intro hb
  rcases Text.mem_joinWith hb with hb | ⟨t, ht, hb⟩
  · exact absurd hb (by decide)
  · exact (h.fields ht).2.2 hb

/-- The first byte of a written command is that of its keyword. -/
theorem exists_shown (k : Command) : ∃ b ∈ k.written, isSpace b = false := by
  obtain ⟨b, rest, htext⟩ := List.exists_cons_of_ne_nil k.keyword.text_ne_nil
  have hb : b ∈ k.keyword.text := htext ▸ List.mem_cons_self
  refine ⟨b, List.mem_of_mem_head? ?_, (Keyword.mem_text hb).1⟩
  rw [written, Command.fields, htext, Text.head?_joinWith]
  rfl

theorem Writable.not_isTerminator_of_mem_getLast? (h : k.Writable) {b : UInt8}
    (hb : b ∈ k.written.getLast?) : isTerminator b = false := by
  rcases List.eq_nil_or_concat' k.operands with hnil | ⟨init, last, hlast⟩
  · rw [written, Command.fields, hnil, Text.joinWith_singleton] at hb
    have hspace := (Keyword.mem_text (List.mem_of_getLast? hb)).1
    rw [← Bool.not_eq_true] at hspace ⊢
    exact mt Text.isSpace_of_isTerminator hspace
  · have hmem : last ∈ k.operands := hlast ▸ List.mem_append_right _ List.mem_cons_self
    have hcr := h.last last (by rw [hlast, List.getLast?_concat]; rfl)
    rw [written, Command.fields, hlast, ← List.cons_append, Text.getLast?_joinWith,
      if_neg (List.cons_ne_nil _ _)] at hb
    -- The last byte is that of the last field, or the tab before it.
    rcases Option.or_eq_some_iff.mp hb with hb | ⟨-, hb⟩
    · rw [isTerminator, Bool.or_eq_false_iff, beq_eq_false_iff_ne, beq_eq_false_iff_ne]
      constructor
      · rintro rfl
        exact (h.operands last hmem).2.1 (List.mem_of_getLast? hb)
      · rintro rfl
        exact hcr hb
    · cases hb
      rfl

theorem EndsVisibly.not_isSpace_of_mem_getLast? (h : k.EndsVisibly) {b : UInt8}
    (hb : b ∈ k.written.getLast?) : isSpace b = false := by
  obtain ⟨last, hlast, c, hc, hspace⟩ := h
  obtain ⟨init, hinit⟩ := List.getLast?_eq_some_iff.mp hlast
  rw [written, hinit, Text.getLast?_joinWith, hc, Option.some_or, Option.mem_some_iff] at hb
  rw [← hb]
  exact hspace

/-! ### Reading a written command -/

/-- The fields of a command are the pieces of the content between its tabs. -/
theorem fields_of_ofText {raw : Text} (h : Line.ofText raw = .command k) :
    k.fields = Text.splitOn tab (Line.content raw) := by
  obtain ⟨word, operands, hpieces⟩ :=
    List.exists_cons_of_ne_nil (Text.splitOn_ne_nil tab (Line.content raw))
  rw [Line.ofText, hpieces] at h
  split at h
  · cases h
  · rw [Line.ofFields] at h
    cases hword : Keyword.ofText? word with
    | none => rw [hword] at h; cases h
    | some keyword =>
      rw [hword] at h
      cases h
      rw [Command.fields, hpieces, Keyword.text_of_ofText? hword]

/-- A line with the written command as its content is read as the command. -/
theorem Writable.ofText_eq (h : k.Writable) {raw : Text} (hraw : Line.content raw = k.written) :
    Line.ofText raw = .command k := by
  have hne : k.written ≠ [] := by
    obtain ⟨b, hb, -⟩ := k.exists_shown
    exact List.ne_nil_of_mem hb
  have hfields : Text.splitOn tab k.written = k.fields :=
    Text.splitOn_joinWith k.fields_ne_nil fun t ht ↦ (h.fields ht).1
  rw [Line.ofText, hraw, if_neg hne, hfields, Command.fields, Line.ofFields, Keyword.ofText?_text]

theorem Writable.content_written (h : k.Writable) : Line.content k.written = k.written :=
  Line.content_eq_self h.hash_notMem (fun _ hb ↦ h.not_isTerminator_of_mem_getLast? hb)
    k.exists_shown

theorem Writable.content_append_remark (h : k.Writable) (hvisible : k.EndsVisibly) {remark : Text}
    (hremark : remark.Remark) : Line.content (k.written ++ remark) = k.written := by
  have hnot : ¬k.written.all isSpace = true := by
    obtain ⟨b, hb, hspace⟩ := k.exists_shown
    rw [List.all_eq_true]
    intro hall
    rw [hall b hb] at hspace
    cases hspace
  rw [Line.content_append_remark h.hash_notMem (fun _ hb ↦ hvisible.not_isSpace_of_mem_getLast? hb)
    hremark, if_neg hnot]

end Command

/-! ## Lines -/

/-- How a line without its terminator may show a command, or none. -/
inductive Writes : Text → Option Command → Prop
  | command {k : Command} (h : k.Writable) : Writes k.written (some k)
  | remarked {k : Command} {remark : Text} (h : k.Writable) (hvisible : k.EndsVisibly)
      (hremark : remark.Remark) (hline : newline ∉ remark) : Writes (k.written ++ remark) (some k)
  | idle {t : Text} (h : t.Idle) (hline : newline ∉ t) : Writes t none

namespace Writes

variable {body : Text} {command : Option Command}

theorem newline_notMem (h : Writes body command) : newline ∉ body := by
  cases h with
  | command h => exact h.newline_notMem
  | remarked h _ _ hline =>
    rw [List.mem_append, not_or]
    exact ⟨h.newline_notMem, hline⟩
  | idle _ hline => exact hline

theorem ofText_eq (h : Writes body command) :
    Line.ofText body = command.elim .blank .command := by
  cases h with
  | command h => exact h.ofText_eq h.content_written
  | remarked h hvisible hremark _ =>
    exact h.ofText_eq (h.content_append_remark hvisible hremark)
  | idle h _ => exact Line.ofText_eq_blank_iff.mpr h

end Writes

/-- A line as written, with the carriage returns before its line feed. -/
structure WrittenLine where
  body : Text
  command : Option Command
  returns : Nat
  writes : Writes body command

namespace WrittenLine

/-- The line with its terminator. -/
def raw (l : WrittenLine) : Text :=
  l.body ++ List.replicate l.returns carriageReturn ++ [newline]

theorem ofText_body (l : WrittenLine) : Line.ofText l.body = l.command.elim .blank .command :=
  l.writes.ofText_eq

theorem ofText_raw (l : WrittenLine) : Line.ofText l.raw = l.command.elim .blank .command := by
  rw [raw, List.append_assoc, Line.ofText_append_of_isTerminator, l.ofText_body]
  intro b hb
  rw [List.mem_append, List.mem_replicate, List.mem_singleton] at hb
  rcases hb with ⟨-, rfl⟩ | rfl <;> rfl

theorem lines_raw_append (l : WrittenLine) (t : Text) :
    Text.lines (l.raw ++ t) = l.raw :: Text.lines t := by
  have hbody : newline ∉ l.body ++ List.replicate l.returns carriageReturn := by
    rw [List.mem_append, not_or]
    refine ⟨l.writes.newline_notMem, fun hb ↦ ?_⟩
    exact absurd (List.eq_of_mem_replicate hb) (by decide)
  rw [raw, List.append_assoc _ [newline], List.singleton_append, Text.lines_append_newline hbody]

end WrittenLine

/-! ## Files -/

/-- The lines of a file, each with its terminator. -/
def fileText (ls : List WrittenLine) : Text := ls.flatMap WrittenLine.raw

/-- What there is in a list, with its position counted from a number on. -/
def numbered {α : Type} (number : Nat) (as : List (Option α)) : List (Nat × α) :=
  (as.zipIdx number).filterMap fun (a, position) ↦ a.map (position, ·)

namespace Line

def command? : Line → Option Command
  | .command k => some k
  | _ => none

def unknown? : Line → Option Text
  | .unknown word => some word
  | _ => none

end Line

/-- The commands in a file, each with the number of its line. -/
def commandsIn (content : Text) : List (Nat × Command) :=
  numbered 1 ((Text.lines content).map fun raw ↦ (Line.ofText raw).command?)

/-- The diagnostics that the lines of a file give on their own: one for each unknown keyword. -/
def diagnosticsIn (file content : Text) : List Diagnostic :=
  (numbered 1 ((Text.lines content).map fun raw ↦ (Line.ofText raw).unknown?)).map
    fun (number, word) ↦ ⟨.unknownCommand word, file, number⟩

section Numbered

variable {α : Type}

theorem numbered_append_none (number : Nat) (as : List (Option α)) :
    numbered number (as ++ [none]) = numbered number as := by
  rw [numbered, List.zipIdx_append, List.filterMap_append, ← numbered]
  exact List.append_nil _

theorem numbered_eq_nil {number : Nat} {as : List (Option α)} (h : ∀ a ∈ as, a = none) :
    numbered number as = [] := by
  rw [numbered, List.filterMap_eq_nil_iff]
  rintro ⟨a, position⟩ hmem
  rw [h a (List.fst_mem_of_mem_zipIdx hmem)]
  rfl

end Numbered

theorem lines_fileText_append (ls : List WrittenLine) (t : Text) :
    Text.lines (fileText ls ++ t) = ls.map WrittenLine.raw ++ Text.lines t := by
  induction ls with
  | nil => rfl
  | cons l ls ih =>
    rw [fileText, List.flatMap_cons, List.append_assoc, l.lines_raw_append, ← fileText, ih]
    rfl

/-! ### The last line -/

/-- A line that ends the file has no terminator, and if it is empty there is no such line. -/
theorem WrittenLine.lines_body (l : WrittenLine) :
    Text.lines l.body = [l.body] ∨ Text.lines l.body = [] ∧ l.command = none := by
  by_cases hbody : l.body = []
  · have hline := l.ofText_body
    rw [hbody] at hline ⊢
    refine .inr ⟨rfl, ?_⟩
    cases hcommand : l.command with
    | none => rfl
    | some k => rw [hcommand] at hline; cases hline
  · exact .inl (Text.lines_of_newline_notMem l.writes.newline_notMem hbody)

section Reading

-- What a reader takes from a line with a command, or with none, is told by `g`.
variable {α : Type} {f : Line → Option α} {g : Option Command → Option α}
  (h : ∀ command, f (command.elim .blank .command) = g command)
include h

theorem map_raw (ls : List WrittenLine) :
    (ls.map WrittenLine.raw).map (fun raw ↦ f (Line.ofText raw)) = ls.map fun l ↦ g l.command := by
  rw [List.map_map]
  refine List.map_congr_left fun l _ ↦ ?_
  rw [Function.comp_apply, l.ofText_raw, h]

theorem numbered_fileText (ls : List WrittenLine) :
    numbered 1 ((Text.lines (fileText ls)).map fun raw ↦ f (Line.ofText raw))
      = numbered 1 (ls.map fun l ↦ g l.command) := by
  have hlines := lines_fileText_append ls []
  rw [List.append_nil, show Text.lines [] = [] from rfl, List.append_nil] at hlines
  rw [hlines, map_raw h]

theorem numbered_fileText_append_body (hnone : g none = none) (ls : List WrittenLine)
    (last : WrittenLine) :
    numbered 1 ((Text.lines (fileText ls ++ last.body)).map fun raw ↦ f (Line.ofText raw))
      = numbered 1 ((ls ++ [last]).map fun l ↦ g l.command) := by
  rw [lines_fileText_append, List.map_append, map_raw h, List.map_append, List.map_singleton]
  rcases last.lines_body with hbody | ⟨hbody, hcommand⟩
  · rw [hbody, List.map_singleton, last.ofText_body, h]
  · rw [hbody, List.map_nil, List.append_nil, hcommand, hnone, numbered_append_none]

end Reading

/-! ## Reading undoes writing -/

theorem command?_elim (command : Option Command) :
    (command.elim Line.blank Line.command).command? = command := by cases command <;> rfl

theorem unknown?_elim (command : Option Command) :
    (command.elim Line.blank Line.command).unknown? = none := by cases command <;> rfl

theorem numbered_none {α : Type} (ls : List WrittenLine) :
    numbered 1 (ls.map fun _ ↦ (none : Option α)) = [] :=
  numbered_eq_nil fun a ha ↦ by
    obtain ⟨l, -, rfl⟩ := List.mem_map.mp ha
    rfl

/-- **Reading undoes writing.** In a file put together from written lines, with or without a
terminator of the last one, the commands found are those written, each with the number of its line,
and there are no diagnostics. And whatever a line looks like, the fields of the command in it, with
tabs between them, are its content. -/
theorem reading_undoes_writing :
    (∀ (file : Text) (ls : List WrittenLine),
      commandsIn (fileText ls) = numbered 1 (ls.map (·.command)) ∧
        diagnosticsIn file (fileText ls) = []) ∧
    (∀ (file : Text) (ls : List WrittenLine) (last : WrittenLine),
      commandsIn (fileText ls ++ last.body) = numbered 1 ((ls ++ [last]).map (·.command)) ∧
        diagnosticsIn file (fileText ls ++ last.body) = []) ∧
    ∀ (raw : Text) (k : Command), Line.ofText raw = .command k →
      Text.joinWith tab k.fields = Line.content raw := by
  refine ⟨fun file ls ↦ ⟨numbered_fileText command?_elim ls, ?_⟩,
    fun file ls last ↦ ⟨numbered_fileText_append_body command?_elim rfl ls last, ?_⟩,
    fun raw k hk ↦ ?_⟩
  · rw [diagnosticsIn, numbered_fileText unknown?_elim, numbered_none]
    rfl
  · rw [diagnosticsIn, numbered_fileText_append_body unknown?_elim rfl, numbered_none]
    rfl
  · rw [Command.fields_of_ofText hk, Text.joinWith_splitOn]

/-- A header with carriage returns behind it, an idle line, and a library with a remark. -/
def noteLines : List WrittenLine :=
  [⟨_, some ⟨.header, ["Api", "1.0.0.0"]⟩, 2, .command ⟨by decide, by decide⟩⟩,
    ⟨_, none, 0, .idle (.inr (@Text.Remark.mk "\t " (List.all_eq_true.mp rfl) " note"))
      (by decide)⟩,
    ⟨_, some ⟨.dll, ["a.dll"]⟩, 1, .remarked ⟨by decide, by decide⟩ ⟨"a.dll", rfl, 0x6C, rfl, rfl⟩
      (@Text.Remark.mk " \t" (List.all_eq_true.mp rfl) " import") (by decide)⟩]

/-- A function whose last fields are empty. -/
def emptyFieldLine : WrittenLine :=
  ⟨_, some ⟨.function, ["Go", "", ""]⟩, 0, .command ⟨by decide, by decide⟩⟩

/-- The file with these lines, without a terminator of the last one. -/
def noteText : Text :=
  "meta\tApi\t1.0.0.0\r\r\n\t # note\ndll\ta.dll \t# import\r\nfn\tGo\t\t"

theorem reading_undoes_writing_with_remarks :
    commandsIn noteText = [(1, ⟨.header, ["Api", "1.0.0.0"]⟩), (3, ⟨.dll, ["a.dll"]⟩),
        (4, ⟨.function, ["Go", "", ""]⟩)] ∧
      diagnosticsIn "api" noteText = [] ∧
      Text.joinWith tab ["dll", "a.dll"] = Line.content "dll\ta.dll \t# import\r\n" := by
  obtain ⟨-, hfile, hfields⟩ := reading_undoes_writing
  have htext : noteText = fileText noteLines ++ emptyFieldLine.body := by decide
  rw [htext]
  obtain ⟨hcommands, hdiagnostics⟩ := hfile "api" noteLines emptyFieldLine
  exact ⟨hcommands, hdiagnostics, hfields _ ⟨.dll, ["a.dll"]⟩ (by decide)⟩

end NativeApi

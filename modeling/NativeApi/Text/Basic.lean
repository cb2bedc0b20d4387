/-!
# Byte texts

Definition files, paths and assembly text are sequences of bytes. Nothing in this library depends
on a character encoding: separators, keywords and digits are single ASCII bytes, and every other
byte passes through unchanged.

## Splitting

`Text.splitOn` and `Text.lines` are right folds. A fold meets each byte once and decides only
whether it opens a new piece, so neither loses, moves or repeats a byte: the pieces joined by the
separator, and the lines put end to end, are the text again.
-/

namespace NativeApi

/-- A text is a sequence of bytes. -/
abbrev Text := List UInt8

namespace Text

/-! ## Literals -/

/-- The bytes of a string literal. All literals here are ASCII, one byte a character. -/
def ofLiteral (s : String) : Text := s.toList.map Char.toUInt8

end Text

instance : Coe String Text := ⟨Text.ofLiteral⟩

namespace Text

/-! ## Bytes -/

def tab : UInt8 := 0x09
def newline : UInt8 := 0x0A
def carriageReturn : UInt8 := 0x0D
def blank : UInt8 := 0x20
def hash : UInt8 := 0x23

/-- White space is the blank and the five control bytes from tab to carriage return. -/
def isSpace (b : UInt8) : Bool := b == blank || (tab ≤ b && b ≤ carriageReturn)

/-- A line terminator ends in line feeds and carriage returns, in any number. -/
def isTerminator (b : UInt8) : Bool := b == newline || b == carriageReturn

def isUpper (b : UInt8) : Bool := 0x41 ≤ b && b ≤ 0x5A

def isLower (b : UInt8) : Bool := 0x61 ≤ b && b ≤ 0x7A

def isDigit (b : UInt8) : Bool := 0x30 ≤ b && b ≤ 0x39

/-- An ASCII capital becomes its small letter; every other byte stays. -/
def lowerByte (b : UInt8) : UInt8 := if isUpper b then b + 0x20 else b

def toLower (t : Text) : Text := t.map lowerByte

/-! ## Trimming -/

/-- What is left after the longest run of final bytes with the property `p` is dropped. -/
def dropTrailing (p : UInt8 → Bool) (t : Text) : Text :=
  t.foldr (fun b rest ↦ if rest.isEmpty && p b then [] else b :: rest) []

/-- The bytes before the first zero byte, where the system takes a text to end. -/
def untilZero (t : Text) : Text := t.takeWhile (· != 0)

/-! ## Splitting and joining -/

/-- The pieces between the separators: one more than there are separators, some perhaps empty. -/
def splitOn (separator : UInt8) (t : Text) : List Text :=
  t.foldr (fun b pieces ↦ if b = separator then [] :: pieces else
    match pieces with
    | [] => [[b]]
    | piece :: others => (b :: piece) :: others) [[]]

/-- The inverse of `splitOn`: one separator between two neighbours. -/
def joinWith (separator : UInt8) (pieces : List Text) : Text := List.intercalate [separator] pieces

/-! ### Pieces -/

theorem splitOn_ne_nil (s : UInt8) (t : Text) : splitOn s t ≠ [] := by
  cases t with
  | nil => exact List.cons_ne_nil _ _
  | cons b t =>
    rw [splitOn, List.foldr_cons]
    split
    · exact List.cons_ne_nil _ _
    · split <;> exact List.cons_ne_nil _ _

theorem splitOn_cons_self (s : UInt8) (t : Text) : splitOn s (s :: t) = [] :: splitOn s t := by
  rw [splitOn, List.foldr_cons, if_pos rfl, splitOn]

theorem splitOn_cons_of_ne {s b : UInt8} (h : b ≠ s) (t : Text) :
    ∃ piece others, splitOn s t = piece :: others ∧
      splitOn s (b :: t) = (b :: piece) :: others := by
  obtain ⟨piece, others, ht⟩ := List.exists_cons_of_ne_nil (splitOn_ne_nil s t)
  refine ⟨piece, others, ht, ?_⟩
  rw [splitOn] at ht
  rw [splitOn, List.foldr_cons, if_neg h, ht]

@[simp] theorem joinWith_singleton (s : UInt8) (piece : Text) : joinWith s [piece] = piece := by
  simp [joinWith, List.intercalate]

theorem joinWith_cons (s : UInt8) (piece : Text) {others : List Text} (h : others ≠ []) :
    joinWith s (piece :: others) = piece ++ s :: joinWith s others := by
  obtain ⟨next, rest, rfl⟩ := List.exists_cons_of_ne_nil h
  simp [joinWith, List.intercalate]

theorem head?_joinWith (s b : UInt8) (piece : Text) (others : List Text) :
    (joinWith s ((b :: piece) :: others)).head? = some b := by
  by_cases h : others = []
  · rw [h, joinWith_singleton, List.head?_cons]
  · rw [joinWith_cons s _ h, List.cons_append, List.head?_cons]

/-- The pieces joined by the separator are the text again. -/
theorem joinWith_splitOn (s : UInt8) (t : Text) : joinWith s (splitOn s t) = t := by
  induction t with
  | nil => exact joinWith_singleton s []
  | cons b t ih =>
    by_cases h : b = s
    · subst h
      rw [splitOn_cons_self, joinWith_cons b [] (splitOn_ne_nil b t), ih, List.nil_append]
    · obtain ⟨piece, others, ht, hb⟩ := splitOn_cons_of_ne h t
      rw [ht] at ih
      rw [hb]
      cases others with
      | nil => rw [joinWith_singleton] at ih ⊢; rw [ih]
      | cons next rest =>
        rw [joinWith_cons s _ (List.cons_ne_nil _ _)] at ih ⊢
        rw [List.cons_append, ih]

/-- A text up to a separator is the first piece if it has none itself. -/
theorem splitOn_append_cons {s : UInt8} {piece : Text} (h : s ∉ piece) (t : Text) :
    splitOn s (piece ++ s :: t) = piece :: splitOn s t := by
  induction piece with
  | nil => exact splitOn_cons_self s t
  | cons b piece ih =>
    rw [List.mem_cons, not_or] at h
    obtain ⟨first, others, ht, hb⟩ := splitOn_cons_of_ne (Ne.symm h.1) (piece ++ s :: t)
    rw [ih h.2, List.cons.injEq] at ht
    rw [List.cons_append, hb, ← ht.1, ← ht.2]

/-- A text without separators is its only piece. -/
theorem splitOn_eq_singleton {s : UInt8} {t : Text} (h : s ∉ t) : splitOn s t = [t] := by
  induction t with
  | nil => rfl
  | cons b t ih =>
    rw [List.mem_cons, not_or] at h
    obtain ⟨first, others, ht, hb⟩ := splitOn_cons_of_ne (Ne.symm h.1) t
    rw [ih h.2, List.cons.injEq] at ht
    rw [hb, ← ht.1, ← ht.2]

/-- Pieces without separators are found again. -/
theorem splitOn_joinWith {s : UInt8} {pieces : List Text} (hne : pieces ≠ [])
    (h : ∀ piece ∈ pieces, s ∉ piece) : splitOn s (joinWith s pieces) = pieces := by
  induction pieces with
  | nil => exact absurd rfl hne
  | cons piece others ih =>
    have hpiece := h piece List.mem_cons_self
    by_cases hothers : others = []
    · rw [hothers, joinWith_singleton, splitOn_eq_singleton hpiece]
    · rw [joinWith_cons s piece hothers, splitOn_append_cons hpiece,
        ih hothers fun other hmem ↦ h other (List.mem_cons_of_mem _ hmem)]

/-- No piece contains the separator. -/
theorem not_mem_of_mem_splitOn {s : UInt8} {t piece : Text} (h : piece ∈ splitOn s t) :
    s ∉ piece := by
  induction t generalizing piece with
  | nil =>
    rw [List.mem_singleton.mp h]
    exact List.not_mem_nil
  | cons b t ih =>
    by_cases hb : b = s
    · subst hb
      rw [splitOn_cons_self, List.mem_cons] at h
      rcases h with rfl | h
      · exact List.not_mem_nil
      · exact ih h
    · obtain ⟨first, others, ht, hc⟩ := splitOn_cons_of_ne hb t
      rw [hc, List.mem_cons] at h
      rcases h with rfl | h
      · rw [List.mem_cons, not_or]
        exact ⟨Ne.symm hb, ih (ht ▸ List.mem_cons_self)⟩
      · exact ih (ht ▸ List.mem_cons_of_mem _ h)

/-! ### Lines -/

/-- The lines of a text, each with its line feed; only the last may lack one, and none is empty. -/
def lines (t : Text) : List Text :=
  t.foldr (fun b rest ↦ if b = newline then [b] :: rest else
    match rest with
    | [] => [[b]]
    | line :: others => (b :: line) :: others) []

theorem lines_cons_newline (t : Text) : lines (newline :: t) = [newline] :: lines t := by
  rw [lines, List.foldr_cons, if_pos rfl, lines]

/-- The lines put end to end are the text again. -/
theorem flatten_lines (t : Text) : (lines t).flatten = t := by
  induction t with
  | nil => rfl
  | cons b t ih =>
    rw [lines] at ih
    rw [lines, List.foldr_cons]
    split
    · rename_i h
      rw [List.flatten_cons, ih, h, List.singleton_append]
    · split <;> rename_i h
      · rw [h] at ih; rw [← ih]; rfl
      · rw [h] at ih; rw [List.flatten_cons] at ih ⊢; rw [List.cons_append, ih]

/-- No line is empty. -/
theorem ne_nil_of_mem_lines {t line : Text} (h : line ∈ lines t) : line ≠ [] := by
  induction t generalizing line with
  | nil => exact absurd h List.not_mem_nil
  | cons b t ih =>
    rw [lines, List.foldr_cons, ← lines] at h
    split at h
    · rcases List.mem_cons.mp h with rfl | h
      · exact List.cons_ne_nil _ _
      · exact ih h
    · split at h <;> rename_i hl
      · rw [List.mem_singleton.mp h]; exact List.cons_ne_nil _ _
      · rcases List.mem_cons.mp h with rfl | h
        · exact List.cons_ne_nil _ _
        · exact ih (hl ▸ List.mem_cons_of_mem _ h)

/-! ## Showing -/

/-- A text between single quotes, as messages and assembly names show it. -/
def quoted (t : Text) : Text := "'" ++ t ++ "'"

/-- A text that is there only if the flag is set. -/
def showIf (flag : Bool) (t : Text) : Text := if flag then t else []

end Text

end NativeApi

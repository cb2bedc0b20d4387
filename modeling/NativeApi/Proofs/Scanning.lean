import NativeApi.Proofs.Splitting

/-!
# Cutting a text at its separators

A definition file is cut into lines behind its line feeds, and a line into fields at its tabs. Which
pieces these are can be said without saying how they are found: `Text.IsLines` and `Text.IsFields`
each hold of exactly one list, that of `Text.lines` and that of `Text.splitOn`.

Found they are by a scan from the left, which looks for the next separator, cuts off what stands
before it and goes on behind it. Lines and fields differ where the text ends: behind a final line
feed there is no other line, behind a final tab there is another field. A scan never goes back, so
it is over after one turn more than the text has bytes (`Scan.run_eq`).
-/

namespace NativeApi

namespace Text

variable {t : Text} {pieces : List Text}

/-! ## Lines -/

/-- The lists of the lines of a text. -/
structure IsLines (t : Text) (pieces : List Text) : Prop where
  flatten : pieces.flatten = t
  ne_nil : ∀ line ∈ pieces, line ≠ []
  /-- At most the last line has no line feed at its end. -/
  ended : ∀ line ∈ pieces.dropLast, line.getLast? = some newline
  /-- A line feed stands nowhere but at the end. -/
  inside : ∀ line ∈ pieces, newline ∉ line.dropLast

namespace IsLines

theorem tail {line : Text} (h : IsLines t (line :: pieces)) : IsLines pieces.flatten pieces where
  flatten := rfl
  ne_nil other hother := h.ne_nil other (List.mem_cons_of_mem _ hother)
  ended other hother := by
    have hpieces : pieces ≠ [] := by
      rintro rfl
      exact absurd hother List.not_mem_nil
    refine h.ended other ?_
    rw [List.dropLast_cons_of_ne_nil hpieces]
    exact List.mem_cons_of_mem _ hother
  inside other hother := h.inside other (List.mem_cons_of_mem _ hother)

/-- The first line is found again, with its line feed or as the only one. -/
theorem eq_lines (h : IsLines t pieces) : pieces = lines t := by
  induction pieces generalizing t with
  | nil => rw [← h.flatten]; rfl
  | cons line pieces ih =>
    have hpieces := ih h.tail
    have hinside := h.inside line List.mem_cons_self
    rw [← h.flatten, List.flatten_cons]
    by_cases hend : line.getLast? = some newline
    · obtain ⟨body, rfl⟩ := List.getLast?_eq_some_iff.mp hend
      rw [List.dropLast_concat] at hinside
      rw [List.append_assoc, List.singleton_append, lines_append_newline hinside, ← hpieces]
    · have hlast : pieces = [] := by
        by_contra hne
        refine hend (h.ended line ?_)
        rw [List.dropLast_cons_of_ne_nil hne]
        exact List.mem_cons_self
      have hnone : newline ∉ line := by
        intro hmem
        rw [← List.dropLast_append_getLast (h.ne_nil line List.mem_cons_self), List.mem_append,
          List.mem_singleton] at hmem
        rcases hmem with hmem | hmem
        · exact hinside hmem
        · exact hend (hmem ▸ List.getLast?_eq_some_getLast _)
      rw [hlast, List.flatten_nil, List.append_nil,
        lines_of_newline_notMem hnone (h.ne_nil line List.mem_cons_self)]

end IsLines

theorem getLast?_of_mem_dropLast_lines (t : Text) :
    ∀ line ∈ (lines t).dropLast, line.getLast? = some newline := by
  induction t using lineInduction with
  | last t h =>
    intro line hline
    by_cases hne : t = []
    · subst hne
      exact absurd hline List.not_mem_nil
    · rw [lines_of_newline_notMem h hne] at hline
      exact absurd hline List.not_mem_nil
  | line body rest hbody ih =>
    rw [lines_append_newline hbody]
    by_cases hrest : lines rest = []
    · rw [hrest]
      exact fun line hline ↦ absurd hline List.not_mem_nil
    · rw [List.dropLast_cons_of_ne_nil hrest, List.forall_mem_cons]
      exact ⟨List.getLast?_concat, ih⟩

theorem newline_notMem_dropLast_of_mem_lines (t : Text) :
    ∀ line ∈ lines t, newline ∉ line.dropLast := by
  induction t using lineInduction with
  | last t h =>
    intro line hline
    by_cases hne : t = []
    · subst hne
      exact absurd hline List.not_mem_nil
    · rw [lines_of_newline_notMem h hne, List.mem_singleton] at hline
      rw [hline]
      exact fun hmem ↦ h (List.dropLast_subset t hmem)
  | line body rest hbody ih =>
    rw [lines_append_newline hbody, List.forall_mem_cons, List.dropLast_concat]
    exact ⟨hbody, ih⟩

theorem isLines_lines (t : Text) : IsLines t (lines t) where
  flatten := flatten_lines t
  ne_nil _ := ne_nil_of_mem_lines
  ended := getLast?_of_mem_dropLast_lines t
  inside := newline_notMem_dropLast_of_mem_lines t

/-- **A text has its lines and no others.** -/
theorem isLines_iff : IsLines t pieces ↔ pieces = lines t := by
  constructor
  · exact IsLines.eq_lines
  · rintro rfl
    exact isLines_lines t

/-! ## Fields -/

/-- The lists of the fields of a text. -/
structure IsFields (t : Text) (pieces : List Text) : Prop where
  joined : joinWith tab pieces = t
  tab_notMem : ∀ field ∈ pieces, tab ∉ field
  ne_nil : pieces ≠ []

/-- **A text has its fields and no others.** -/
theorem isFields_iff : IsFields t pieces ↔ pieces = splitOn tab t := by
  constructor
  · rintro ⟨rfl, hfields, hne⟩
    exact (splitOn_joinWith hne hfields).symm
  · rintro rfl
    exact ⟨joinWith_splitOn tab t, fun _ ↦ not_mem_of_mem_splitOn, splitOn_ne_nil tab t⟩

/-! ## Searching -/

section IndexFrom

variable {b : UInt8} {start i : Nat}

/-- The place of the first byte `b` from a place on. -/
def indexFrom? (b : UInt8) (start : Nat) (t : Text) : Option Nat :=
  ((t.drop start).idxOf? b).map (start + ·)

theorem idxOf?_append_cons {body : Text} (h : b ∉ body) (rest : Text) :
    (body ++ b :: rest).idxOf? b = some body.length := by
  induction body with
  | nil => rw [List.nil_append, List.idxOf?_cons, if_pos (beq_self_eq_true b), List.length_nil]
  | cons c body ih =>
    rw [List.mem_cons, not_or] at h
    rw [List.cons_append, List.idxOf?_cons, if_neg (by simpa using Ne.symm h.1), ih h.2,
      Option.map_some, List.length_cons]

theorem indexFrom?_eq_none_iff : indexFrom? b start t = none ↔ b ∉ t.drop start := by
  rw [indexFrom?, Option.map_eq_none_iff, List.idxOf?_eq_none_iff]

/-- The rest of a text is a piece without the byte, the byte, and the rest behind it. -/
theorem exists_of_indexFrom? (h : indexFrom? b start t = some i) :
    ∃ body, b ∉ body ∧ i = start + body.length ∧ i < t.length ∧
      t.drop start = body ++ b :: t.drop (i + 1) := by
  have hmem : b ∈ t.drop start := by
    by_contra hnone
    rw [indexFrom?_eq_none_iff.mpr hnone] at h
    cases h
  obtain ⟨body, rest, hdrop, hbody⟩ := List.eq_append_cons_of_mem hmem
  rw [indexFrom?, hdrop, idxOf?_append_cons hbody, Option.map_some, Option.some.injEq] at h
  have hlt : i < t.length := by
    have hlength := congrArg List.length hdrop
    rw [List.length_drop, List.length_append, List.length_cons] at hlength
    omega
  have hrest : t.drop (i + 1) = rest := by
    rw [← h, Nat.add_assoc, ← List.drop_drop, hdrop, ← List.drop_drop, List.drop_left,
      List.drop_succ_cons, List.drop_zero]
  exact ⟨body, hbody, h.symm, hlt, by rw [hrest, hdrop]⟩

end IndexFrom

end Text

/-! ## Scans -/

/-- A scan in progress. -/
structure Scan where
  /-- The place from which it goes on. -/
  start : Nat
  /-- What it has cut off. -/
  pieces : List Text

namespace Scan

open Text (newline tab indexFrom? lines splitOn)

/-- Before the first turn. -/
def initial : Scan := ⟨0, []⟩

/-- One turn of the scan for lines: it goes on, or the scan is over. -/
def lineTurn (t : Text) (s : Scan) : Scan ⊕ List Text :=
  if s.start < t.length then
    match indexFrom? newline s.start t with
    | none => .inr (s.pieces ++ [t.drop s.start])
    | some i => .inl ⟨i + 1, s.pieces ++ [(t.drop s.start).take (i - s.start + 1)]⟩
  else .inr s.pieces

/-- One turn of the scan for fields. It does not ask whether there is any text left. -/
def fieldTurn (t : Text) (s : Scan) : Scan ⊕ List Text :=
  match indexFrom? tab s.start t with
  | none => .inr (s.pieces ++ [t.drop s.start])
  | some i => .inl ⟨i + 1, s.pieces ++ [(t.drop s.start).take (i - s.start)]⟩

/-- The pieces of a scan that is over after a number of turns; nothing if it is not. -/
def run (turn : Scan → Scan ⊕ List Text) : Nat → Scan → Option (List Text)
  | 0, _ => none
  | turns + 1, s =>
    match turn s with
    | .inl next => run turn turns next
    | .inr pieces => some pieces

/-- A turn that goes on leads forward and cuts off the piece that `cut` finds first in the rest of
the text. A scan that is over has the pieces that `cut` finds in the rest behind those before. -/
structure Cuts (turn : Scan → Scan ⊕ List Text) (t : Text) (cut : Text → List Text) : Prop where
  goesOn : ∀ s next, turn s = .inl next → s.start < next.start ∧ next.start ≤ t.length ∧
    ∃ piece, next.pieces = s.pieces ++ [piece] ∧
      cut (t.drop s.start) = piece :: cut (t.drop next.start)
  ends : ∀ s pieces, turn s = .inr pieces → pieces = s.pieces ++ cut (t.drop s.start)

variable {turn : Scan → Scan ⊕ List Text} {t : Text} {cut : Text → List Text}

/-- **A scan is over in time**, with the pieces of the rest of the text behind those that it has cut
off. Each turn brings it closer to the end of the text, which is the measure of what is to be
done. -/
theorem run_eq (h : Cuts turn t cut) {turns : Nat} {s : Scan}
    (hturns : t.length - s.start < turns) :
    run turn turns s = some (s.pieces ++ cut (t.drop s.start)) := by
  induction turns generalizing s with
  | zero => exact absurd hturns (Nat.not_lt_zero _)
  | succ turns ih =>
    rw [run]
    cases hturn : turn s with
    | inl next =>
      obtain ⟨hlt, hle, piece, hpieces, hcut⟩ := h.goesOn s next hturn
      have hnext : t.length - next.start < turns := by omega
      rw [hcut, List.append_cons, ← hpieces]
      exact ih hnext
    | inr pieces => rw [← h.ends s pieces hturn]

theorem run_initial (h : Cuts turn t cut) (spare : Nat) :
    run turn (t.length + 1 + spare) initial = some (cut t) := by
  have hturns : t.length - initial.start < t.length + 1 + spare := by omega
  rw [run_eq h hturns, initial, List.nil_append, List.drop_zero]

theorem cuts_lineTurn (t : Text) : Cuts (lineTurn t) t lines where
  goesOn s next h := by
    rw [lineTurn] at h
    split at h
    · split at h
      · cases h
      · rename_i i hi
        obtain ⟨body, hbody, rfl, hlt, hdrop⟩ := Text.exists_of_indexFrom? hi
        have htake : (t.drop s.start).take (s.start + body.length - s.start + 1)
            = body ++ [newline] := by
          rw [hdrop, Nat.add_sub_cancel_left, List.append_cons]
          exact List.take_left' List.length_append
        cases h
        refine ⟨by simp only; omega, hlt, _, congrArg (s.pieces ++ [·]) htake, ?_⟩
        rw [hdrop, Text.lines_append_newline hbody]
    · cases h
  ends s pieces h := by
    rw [lineTurn] at h
    split at h
    · rename_i hlt
      split at h
      · rename_i hnone
        cases h
        have hne : t.drop s.start ≠ [] := by simpa using hlt
        rw [Text.lines_of_newline_notMem (Text.indexFrom?_eq_none_iff.mp hnone) hne]
      · cases h
    · rename_i hle
      cases h
      rw [List.drop_eq_nil_of_le (Nat.le_of_not_lt hle)]
      exact (List.append_nil _).symm

theorem cuts_fieldTurn (t : Text) : Cuts (fieldTurn t) t (splitOn tab) where
  goesOn s next h := by
    rw [fieldTurn] at h
    split at h
    · cases h
    · rename_i i hi
      obtain ⟨body, hbody, rfl, hlt, hdrop⟩ := Text.exists_of_indexFrom? hi
      have htake : (t.drop s.start).take (s.start + body.length - s.start) = body := by
        rw [hdrop, Nat.add_sub_cancel_left, List.take_left]
      cases h
      refine ⟨by simp only; omega, hlt, _, congrArg (s.pieces ++ [·]) htake, ?_⟩
      rw [hdrop, Text.splitOn_append_cons hbody]
  ends s pieces h := by
    rw [fieldTurn] at h
    split at h
    · rename_i hnone
      cases h
      rw [Text.splitOn_eq_singleton (Text.indexFrom?_eq_none_iff.mp hnone)]
    · cases h

end Scan

/-- **Cutting loses nothing and leaves no choice.** Put end to end, the lines of a text are the
text; none is empty, each but perhaps the last ends in a line feed, and there is a line feed nowhere
else; no other list of lines is like this. The fields of a text joined by tabs are the text, none
has a tab in it, and there is at least one; no other list of fields is like this. The scan for the
one and the scan for the other are over after one turn more than the text has bytes, at the
latest. -/
theorem cutting_is_lossless_and_unique (t : Text) :
    (∀ pieces, Text.IsLines t pieces ↔ pieces = Text.lines t) ∧
    (∀ pieces, Text.IsFields t pieces ↔ pieces = Text.splitOn Text.tab t) ∧
    ∀ spare, Scan.run (Scan.lineTurn t) (t.length + 1 + spare) .initial = some (Text.lines t) ∧
      Scan.run (Scan.fieldTurn t) (t.length + 1 + spare) .initial
        = some (Text.splitOn Text.tab t) := by
  refine ⟨fun _ ↦ Text.isLines_iff, fun _ ↦ Text.isFields_iff, fun spare ↦ ⟨?_, ?_⟩⟩
  · exact Scan.run_initial (Scan.cuts_lineTurn t) spare
  · exact Scan.run_initial (Scan.cuts_fieldTurn t) spare

end NativeApi

import Mathlib.Data.List.Basic
import NativeApi.Text.Basic

/-!
# Lines of a text

A text is a run of bytes without a line feed, or such a run, a line feed, and another text
(`Text.lineInduction`). This is how its lines are found from the left, whereas `Text.lines` folds
from the right, so statements on the lines of a text are proved along the one and computed along the
other.
-/

namespace NativeApi

namespace Text

/-! ## Induction along lines -/

/-- What holds of texts without a line feed, and behind each line if it holds of the rest, holds of
every text. -/
@[elab_as_elim] theorem lineInduction {P : Text → Prop} (last : ∀ t, newline ∉ t → P t)
    (line : ∀ body rest, newline ∉ body → P rest → P (body ++ newline :: rest)) (t : Text) :
    P t := by
  by_cases h : newline ∈ t
  · obtain ⟨body, rest, ht, hbody⟩ := List.eq_append_cons_of_mem h
    rw [ht]
    exact line body rest hbody (lineInduction last line rest)
  · exact last t h
termination_by t.length
decreasing_by
  rw [ht, List.length_append, List.length_cons]
  omega

/-! ## Lines from the left -/

variable {t body : Text} {b : UInt8}

theorem lines_cons_of_ne (h : b ≠ newline) (t : Text) :
    lines (b :: t) = match lines t with
      | [] => [[b]]
      | line :: others => (b :: line) :: others := by
  have hstep : lines (b :: t) = _ := if_neg h
  cases hrest : lines t with
  | nil => rw [hstep, ← lines, hrest]
  | cons line others => rw [hstep, ← lines, hrest]

theorem lines_append_newline (h : newline ∉ body) (t : Text) :
    lines (body ++ newline :: t) = (body ++ [newline]) :: lines t := by
  induction body with
  | nil => exact lines_cons_newline t
  | cons b body ih =>
    rw [List.mem_cons, not_or] at h
    rw [List.cons_append, lines_cons_of_ne (Ne.symm h.1), ih h.2, List.cons_append]

theorem lines_of_newline_notMem (h : newline ∉ t) (hne : t ≠ []) : lines t = [t] := by
  induction t with
  | nil => exact absurd rfl hne
  | cons b t ih =>
    rw [List.mem_cons, not_or] at h
    rw [lines_cons_of_ne (Ne.symm h.1)]
    by_cases ht : t = []
    · rw [ht]
      rfl
    · rw [ih h.2 ht]

/-! ## Joined pieces -/

theorem mem_joinWith {s : UInt8} {pieces : List Text} (h : b ∈ joinWith s pieces) :
    b = s ∨ ∃ piece ∈ pieces, b ∈ piece := by
  induction pieces with
  | nil => exact absurd h List.not_mem_nil
  | cons piece others ih =>
    by_cases hothers : others = []
    · rw [hothers, joinWith_singleton] at h
      exact .inr ⟨piece, List.mem_cons_self, h⟩
    · rw [joinWith_cons s piece hothers, List.mem_append, List.mem_cons] at h
      rcases h with h | h | h
      · exact .inr ⟨piece, List.mem_cons_self, h⟩
      · exact .inl h
      · refine (ih h).imp_right ?_
        rintro ⟨other, hother, hb⟩
        exact ⟨other, List.mem_cons_of_mem _ hother, hb⟩

theorem joinWith_append_singleton (s : UInt8) {init : List Text} (h : init ≠ []) (last : Text) :
    joinWith s (init ++ [last]) = joinWith s init ++ s :: last := by
  induction init with
  | nil => exact absurd rfl h
  | cons piece init ih =>
    by_cases hinit : init = []
    · rw [hinit, List.singleton_append, joinWith_cons s piece (List.cons_ne_nil _ _),
        joinWith_singleton, joinWith_singleton]
    · rw [List.cons_append, joinWith_cons s piece (by simp), ih hinit, joinWith_cons s piece hinit,
        List.append_assoc, List.cons_append]

/-- The last byte is that of the last piece, or the separator before it if the piece is empty. -/
theorem getLast?_joinWith (s : UInt8) (init : List Text) (last : Text) :
    (joinWith s (init ++ [last])).getLast?
      = last.getLast?.or (if init = [] then none else some s) := by
  by_cases hinit : init = []
  · rw [hinit, if_pos rfl, List.nil_append, joinWith_singleton, Option.or_none]
  · rw [if_neg hinit, joinWith_append_singleton s hinit, List.getLast?_append, List.getLast?_cons]
    cases last.getLast? <;> rfl

end Text

end NativeApi

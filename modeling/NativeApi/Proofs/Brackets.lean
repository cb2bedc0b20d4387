import Mathlib.Data.List.Infix
import NativeApi.Text.Basic

/-!
# Nested brackets

Braces and parentheses are nested if each closing bracket takes back the last opening one that has
not been taken back, and none is left over. `Text.Nested` says so by a grammar. `Text.Leaves` reads
a text from the left and keeps the list of brackets that are to be closed, so it also speaks of
texts that only open a bracket or only close one, which is how pieces of text are put together. The
two agree (`Text.nested_iff_leaves`).

In a nested text every opening bracket has its closing one behind a nested text, and every closing
one its opening one before it (`Text.Nested.exists_close`, `Text.Nested.exists_open`). So no
beginning of it has more closing brackets than opening ones (`Text.Nested.count_closing_le`).
-/

namespace NativeApi

/-- The kinds of brackets. -/
inductive Bracket
  | brace
  | parenthesis
  deriving DecidableEq, Repr

namespace Bracket

def opening : Bracket → UInt8
  | brace => 0x7B
  | parenthesis => 0x28

def closing : Bracket → UInt8
  | brace => 0x7D
  | parenthesis => 0x29

/-- The bracket that a byte opens. -/
def opened? (b : UInt8) : Option Bracket :=
  if b = 0x7B then some brace else if b = 0x28 then some parenthesis else none

/-- The bracket that a byte closes. -/
def closed? (b : UInt8) : Option Bracket :=
  if b = 0x7D then some brace else if b = 0x29 then some parenthesis else none

theorem opened?_eq_some_iff {b : UInt8} {k : Bracket} : opened? b = some k ↔ b = k.opening := by
  cases k <;> grind [opened?, opening]

theorem closed?_eq_some_iff {b : UInt8} {k : Bracket} : closed? b = some k ↔ b = k.closing := by
  cases k <;> grind [closed?, closing]

theorem opening_ne_closing (k l : Bracket) : k.opening ≠ l.closing := by
  cases k <;> cases l <;> decide

theorem opening_inj {k l : Bracket} (h : k.opening = l.opening) : k = l := by
  cases k <;> cases l <;> revert h <;> decide

theorem closing_inj {k l : Bracket} (h : k.closing = l.closing) : k = l := by
  cases k <;> cases l <;> revert h <;> decide

theorem opening_beq (k l : Bracket) : (k.opening == l.opening) = (k == l) := by
  cases k <;> cases l <;> rfl

theorem closing_beq (k l : Bracket) : (k.closing == l.closing) = (k == l) := by
  cases k <;> cases l <;> rfl

end Bracket

namespace Text

variable {t u : Text} {b : UInt8} {k : Bracket} {due left : List Bracket}

/-- The byte neither opens nor closes a bracket. -/
def IsPlain (b : UInt8) : Prop := Bracket.opened? b = none ∧ Bracket.closed? b = none

instance (b : UInt8) : Decidable (IsPlain b) := inferInstanceAs (Decidable (_ ∧ _))

theorem IsPlain.ne_opening (h : IsPlain b) (k : Bracket) : b ≠ k.opening := by
  intro hb
  have hnone : Bracket.opened? b = none := h.1
  rw [Bracket.opened?_eq_some_iff.mpr hb] at hnone
  cases hnone

theorem IsPlain.ne_closing (h : IsPlain b) (k : Bracket) : b ≠ k.closing := by
  intro hb
  have hnone : Bracket.closed? b = none := h.2
  rw [Bracket.closed?_eq_some_iff.mpr hb] at hnone
  cases hnone

/-- A byte is plain, or opens a bracket, or closes one. -/
theorem isPlain_or (b : UInt8) :
    IsPlain b ∨ (∃ k : Bracket, b = k.opening) ∨ ∃ k : Bracket, b = k.closing := by
  cases hopened : Bracket.opened? b with
  | some k => exact .inr (.inl ⟨k, Bracket.opened?_eq_some_iff.mp hopened⟩)
  | none =>
    cases hclosed : Bracket.closed? b with
    | some k => exact .inr (.inr ⟨k, Bracket.closed?_eq_some_iff.mp hclosed⟩)
    | none => exact .inl ⟨hopened, hclosed⟩

/-! ## The grammar -/

/-- Texts in which brackets are nested. -/
inductive Nested : Text → Prop
  | nil : Nested []
  | plain {b : UInt8} {t : Text} (hb : IsPlain b) (ht : Nested t) : Nested (b :: t)
  | pair (k : Bracket) {body t : Text} (hbody : Nested body) (ht : Nested t) :
      Nested (k.opening :: (body ++ k.closing :: t))

/-- An opening bracket is closed behind a nested text. -/
theorem Nested.exists_close (h : Nested t) {before rest : Text}
    (ht : t = before ++ k.opening :: rest) :
    ∃ body after, rest = body ++ k.closing :: after ∧ Nested body := by
  induction h generalizing before rest with
  | nil =>
    have hmem : k.opening ∈ ([] : Text) := by
      rw [ht]
      exact List.mem_append_right _ List.mem_cons_self
    exact absurd hmem List.not_mem_nil
  | plain hb _ ih =>
    cases before with
    | nil => exact absurd (List.cons.inj ht).1 (hb.ne_opening k)
    | cons c before => exact ih (List.cons.inj ht).2
  | pair l hbody hu ihbody ihu =>
    cases before with
    | nil =>
      obtain ⟨hopening, rfl⟩ := List.cons.inj ht
      obtain rfl := Bracket.opening_inj hopening
      exact ⟨_, _, rfl, hbody⟩
    | cons c before =>
      -- The bracket stands inside the pair or behind it, and is none of the two that make the pair.
      rcases List.append_eq_append_iff.mp (List.cons.inj ht).2 with
        ⟨middle, hbefore, hrest⟩ | ⟨middle, hbody, hrest⟩
      · cases middle with
        | nil => exact absurd (List.cons.inj hrest).1.symm (Bracket.opening_ne_closing k l)
        | cons d middle => exact ihu (List.cons.inj hrest).2
      · cases middle with
        | nil => exact absurd (List.cons.inj hrest).1 (Bracket.opening_ne_closing k l)
        | cons d middle =>
          obtain ⟨rfl, rfl⟩ := List.cons.inj hrest
          obtain ⟨inner, after, rfl, hinner⟩ := ihbody hbody
          exact ⟨inner, _, List.append_assoc _ _ _, hinner⟩

/-- A closing bracket has its opening one before it, with a nested text between them. -/
theorem Nested.exists_open (h : Nested t) {before rest : Text}
    (ht : t = before ++ k.closing :: rest) :
    ∃ outer body, before = outer ++ k.opening :: body ∧ Nested body := by
  induction h generalizing before rest with
  | nil =>
    have hmem : k.closing ∈ ([] : Text) := by
      rw [ht]
      exact List.mem_append_right _ List.mem_cons_self
    exact absurd hmem List.not_mem_nil
  | plain hb _ ih =>
    cases before with
    | nil => exact absurd (List.cons.inj ht).1 (hb.ne_closing k)
    | cons c before =>
      obtain ⟨outer, body, rfl, hbody⟩ := ih (List.cons.inj ht).2
      exact ⟨c :: outer, body, rfl, hbody⟩
  | @pair l body u hbody _ ihbody ihu =>
    cases before with
    | nil => exact absurd (List.cons.inj ht).1 (Bracket.opening_ne_closing l k)
    | cons c before =>
      obtain ⟨rfl, hsplit⟩ := List.cons.inj ht
      -- The bracket stands inside the pair, or ends it, or stands behind it.
      rcases List.append_eq_append_iff.mp hsplit with
        ⟨middle, rfl, hrest⟩ | ⟨middle, hinside, hrest⟩
      · cases middle with
        | nil =>
          obtain rfl := Bracket.closing_inj (List.cons.inj hrest).1
          exact ⟨[], body, by rw [List.append_nil, List.nil_append], hbody⟩
        | cons d middle =>
          obtain ⟨rfl, hbehind⟩ := List.cons.inj hrest
          obtain ⟨outer, inner, rfl, hinner⟩ := ihu hbehind
          exact ⟨l.opening :: (body ++ l.closing :: outer), inner, by simp, hinner⟩
      · cases middle with
        | nil =>
          obtain rfl := Bracket.closing_inj (List.cons.inj hrest).1
          rw [List.append_nil] at hinside
          exact ⟨[], before, rfl, hinside ▸ hbody⟩
        | cons d middle =>
          obtain ⟨rfl, rfl⟩ := List.cons.inj hrest
          obtain ⟨outer, inner, rfl, hinner⟩ := ihbody hinside
          exact ⟨l.opening :: outer, inner, rfl, hinner⟩

/-! ## Reading from the left -/

/-- What is to be closed behind one more byte. -/
def bracketStep (due : List Bracket) (b : UInt8) : Option (List Bracket) :=
  match Bracket.opened? b with
  | some k => some (k :: due)
  | none =>
    match Bracket.closed? b with
    | some k => if due.head? = some k then some due.tail else none
    | none => some due

theorem bracketStep_of_isPlain (h : IsPlain b) (due : List Bracket) :
    bracketStep due b = some due := by
  have hopened : Bracket.opened? b = none := h.1
  have hclosed : Bracket.closed? b = none := h.2
  rw [bracketStep, hopened, hclosed]

theorem bracketStep_opening (k : Bracket) (due : List Bracket) :
    bracketStep due k.opening = some (k :: due) := by
  rw [bracketStep, Bracket.opened?_eq_some_iff.mpr rfl]

theorem bracketStep_closing_eq_some_iff :
    bracketStep due k.closing = some left ↔ due = k :: left := by
  have hopened : Bracket.opened? k.closing = none := by cases k <;> rfl
  rw [bracketStep, hopened, Bracket.closed?_eq_some_iff.mpr rfl]
  cases due with
  | nil => simp
  | cons first rest => simp

/-- Behind the text, the brackets `left` are to be closed, if those of `due` are before it. The
innermost comes first. -/
def Leaves (due : List Bracket) (t : Text) (left : List Bracket) : Prop :=
  t.foldlM bracketStep due = some left

instance (due : List Bracket) (t : Text) (left : List Bracket) : Decidable (Leaves due t left) :=
  inferInstanceAs (Decidable (_ = _))

theorem leaves_nil_iff : Leaves due [] left ↔ due = left := by
  rw [Leaves, List.foldlM_nil]
  exact Option.some_inj

theorem leaves_cons_iff :
    Leaves due (b :: t) left ↔ ∃ next, bracketStep due b = some next ∧ Leaves next t left := by
  rw [Leaves, List.foldlM_cons]
  exact Option.bind_eq_some_iff

theorem leaves_append_iff :
    Leaves due (t ++ u) left ↔ ∃ next, Leaves due t next ∧ Leaves next u left := by
  rw [Leaves, List.foldlM_append]
  exact Option.bind_eq_some_iff

theorem Leaves.append {middle : List Bracket} (ht : Leaves due t middle)
    (hu : Leaves middle u left) : Leaves due (t ++ u) left := leaves_append_iff.mpr ⟨_, ht, hu⟩

/-! ## The two agree -/

/-- A text that closes all brackets of a list, each behind a nested text, and ends with one. -/
def ClosesAll : List Bracket → Text → Prop
  | [], t => Nested t
  | k :: due, t => ∃ body rest, t = body ++ k.closing :: rest ∧ Nested body ∧ ClosesAll due rest

theorem ClosesAll.plain (hb : IsPlain b) (h : ClosesAll due t) : ClosesAll due (b :: t) := by
  cases due with
  | nil => exact .plain hb h
  | cons k due =>
    obtain ⟨body, rest, rfl, hbody, hrest⟩ := h
    exact ⟨b :: body, rest, rfl, .plain hb hbody, hrest⟩

theorem ClosesAll.pair {body rest : Text} (hbody : Nested body) (h : ClosesAll due rest) :
    ClosesAll due (k.opening :: (body ++ k.closing :: rest)) := by
  cases due with
  | nil => exact .pair k hbody h
  | cons l due =>
    obtain ⟨inner, others, rfl, hinner, hothers⟩ := h
    exact ⟨k.opening :: (body ++ k.closing :: inner), others, by simp, .pair k hbody hinner,
      hothers⟩

theorem Leaves.closesAll (h : Leaves due t []) : ClosesAll due t := by
  induction t generalizing due with
  | nil =>
    rw [leaves_nil_iff.mp h]
    exact .nil
  | cons b t ih =>
    obtain ⟨next, hstep, ht⟩ := leaves_cons_iff.mp h
    rcases isPlain_or b with hb | ⟨k, rfl⟩ | ⟨k, rfl⟩
    · rw [bracketStep_of_isPlain hb, Option.some_inj] at hstep
      rw [hstep]
      exact (ih ht).plain hb
    · rw [bracketStep_opening, Option.some_inj] at hstep
      rw [← hstep] at ht
      obtain ⟨body, rest, rfl, hbody, hrest⟩ := ih ht
      exact .pair hbody hrest
    · rw [bracketStep_closing_eq_some_iff.mp hstep]
      exact ⟨[], t, rfl, .nil, ih ht⟩

theorem Nested.leaves (h : Nested t) (due : List Bracket) : Leaves due t due := by
  induction h generalizing due with
  | nil => exact leaves_nil_iff.mpr rfl
  | plain hb _ ih => exact leaves_cons_iff.mpr ⟨due, bracketStep_of_isPlain hb due, ih due⟩
  | pair k _ _ ihbody iht =>
    refine leaves_cons_iff.mpr ⟨k :: due, bracketStep_opening k due, (ihbody _).append ?_⟩
    exact leaves_cons_iff.mpr ⟨due, bracketStep_closing_eq_some_iff.mpr rfl, iht due⟩

/-- **The two agree.** A text is nested exactly if it opens nothing and closes nothing. -/
theorem nested_iff_leaves : Nested t ↔ Leaves [] t [] := ⟨fun h ↦ h.leaves [], Leaves.closesAll⟩

instance (t : Text) : Decidable (Nested t) := decidable_of_iff _ nested_iff_leaves.symm

theorem Nested.append (ht : Nested t) (hu : Nested u) : Nested (t ++ u) :=
  nested_iff_leaves.mpr ((ht.leaves []).append (hu.leaves []))

/-! ## Beginnings of nested texts -/

/-- Each kind of bracket is counted on both sides. -/
theorem Leaves.count_eq (h : Leaves due t left) (k : Bracket) :
    t.count k.closing + left.count k = t.count k.opening + due.count k := by
  induction t generalizing due with
  | nil =>
    rw [leaves_nil_iff.mp h]
    rfl
  | cons b t ih =>
    obtain ⟨next, hstep, ht⟩ := leaves_cons_iff.mp h
    have hcount := ih ht
    rw [List.count_cons, List.count_cons]
    rcases isPlain_or b with hb | ⟨l, rfl⟩ | ⟨l, rfl⟩
    · rw [bracketStep_of_isPlain hb, Option.some_inj] at hstep
      have hopening := hb.ne_opening k
      have hclosing := hb.ne_closing k
      rw [hstep]
      simp only [beq_eq_false_iff_ne.mpr hopening, beq_eq_false_iff_ne.mpr hclosing]
      omega
    · rw [bracketStep_opening, Option.some_inj] at hstep
      rw [← hstep, List.count_cons] at hcount
      rw [beq_eq_false_iff_ne.mpr (Bracket.opening_ne_closing l k), if_neg Bool.false_ne_true,
        Bracket.opening_beq]
      omega
    · rw [bracketStep_closing_eq_some_iff] at hstep
      rw [beq_eq_false_iff_ne.mpr (Bracket.opening_ne_closing k l).symm, if_neg Bool.false_ne_true,
        Bracket.closing_beq, hstep, List.count_cons]
      omega

theorem Nested.count_closing_le (h : Nested t) {before : Text} (hbefore : before <+: t)
    (k : Bracket) : before.count k.closing ≤ before.count k.opening := by
  obtain ⟨rest, rfl⟩ := hbefore
  obtain ⟨next, hnext, -⟩ := leaves_append_iff.mp (h.leaves [])
  have hcount := hnext.count_eq k
  rw [List.count_nil] at hcount
  omega

end Text

end NativeApi

import Mathlib.Logic.Relation
import NativeApi.Proofs.Expansion
import NativeApi.Proofs.LineContent
import NativeApi.Proofs.Splitting

/-!
# Layout of files

Files can be laid out in different ways and still say the same. Line feeds may come with carriage
returns or without, the last of them may be missing, and there may be idle lines anywhere. A
collection does not see the difference, in whatever files of an include tree it is.

There are two relations between file maps, because idle lines move the lines behind them and other
changes do not. Files with the same line endings but for carriage returns and the last line feed
have the same items (`SameItems`), so collecting them is the same to the last diagnostic. With idle
lines put in or taken out, the lines that are not idle stay the same in the same order (`shown`),
and the items agree once their line numbers are taken away. Collecting is a fold over items, and
taking line numbers away before the fold or after it makes no difference (`unnumbered_replay`).
-/

namespace NativeApi

open Text (newline carriageReturn)
open Relation (EqvGen)

/-! ## Changes of layout -/

namespace Text

/-- Every line feed with a carriage return before it. -/
def toCrLf (t : Text) : Text :=
  t.flatMap fun b ↦ if b = newline then [carriageReturn, newline] else [b]

/-- A change of line endings, in all lines or behind the last one. -/
inductive EndingEdit : Text → Text → Prop
  | crLf (t : Text) : EndingEdit t t.toCrLf
  | final {t : Text} (h : t.getLast? ≠ some newline) : EndingEdit t (t ++ [newline])

/-- An idle line is put between the lines, before them or behind them. -/
inductive IdleEdit : Text → Text → Prop
  | insert {t u idle : Text} {before after : List Text} (hidle : idle.Idle)
      (ht : t.lines = before ++ after) (hu : u.lines = before ++ idle :: after) : IdleEdit t u

/-- The same text but for line endings. -/
def SameEndings : Text → Text → Prop := EqvGen EndingEdit

/-- The same text but for line endings and idle lines. -/
def SameLayout : Text → Text → Prop := EqvGen fun t u ↦ EndingEdit t u ∨ IdleEdit t u

end Text

/-- Two ways to read files find the same files, with contents in a relation. -/
def SameFiles (r : Text → Text → Prop) (read other : Text → Option Text) : Prop :=
  ∀ path, Option.Rel r (read path) (other path)

/-! ## What the lines hold -/

/-- What the lines of a text hold, one after another. -/
def heldLines (t : Text) : List Line := t.lines.map Line.ofText

/-- What the lines of a text hold that are not idle. -/
def shown (t : Text) : List Line := (heldLines t).filter (· ≠ .blank)

namespace Text

variable {t u : Text}

theorem ofText_append_newline (t : Text) : Line.ofText (t ++ [newline]) = Line.ofText t :=
  Line.ofText_append_of_isTerminator (List.all_eq_true.mp rfl) t

theorem toCrLf_of_newline_notMem (h : newline ∉ t) : t.toCrLf = t := by
  induction t with
  | nil => rfl
  | cons b t ih =>
    rw [List.mem_cons, not_or] at h
    rw [toCrLf, List.flatMap_cons, if_neg (Ne.symm h.1), ← toCrLf, ih h.2, List.singleton_append]

theorem heldLines_toCrLf (t : Text) : heldLines t.toCrLf = heldLines t := by
  induction t using lineInduction with
  | last t h => rw [toCrLf_of_newline_notMem h]
  | line body rest h ih =>
    have hreturn : newline ∉ body ++ [carriageReturn] := by
      rw [List.mem_append, not_or]
      exact ⟨h, by decide⟩
    have hcrlf : toCrLf (body ++ newline :: rest)
        = (body ++ [carriageReturn]) ++ newline :: rest.toCrLf := by
      have hbody := toCrLf_of_newline_notMem h
      rw [toCrLf] at hbody ⊢
      rw [List.flatMap_append, hbody, List.flatMap_cons, if_pos rfl, toCrLf]
      simp
    rw [heldLines] at ih
    rw [hcrlf, heldLines, heldLines, lines_append_newline hreturn, lines_append_newline h,
      List.map_cons, List.map_cons, ih, heldLines, ofText_append_newline, ofText_append_newline,
      Line.ofText_append_of_isTerminator (List.all_eq_true.mp rfl)]

theorem heldLines_append_newline (hne : t ≠ []) (hlast : t.getLast? ≠ some newline) :
    heldLines (t ++ [newline]) = heldLines t := by
  induction t using lineInduction with
  | last t h =>
    rw [heldLines, heldLines, lines_append_newline h, lines_of_newline_notMem h hne,
      List.map_cons, List.map_singleton, ofText_append_newline]
    rfl
  | line body rest h ih =>
    -- The line feed behind `body` is not the last byte, so there is a rest.
    have hrest : rest ≠ [] := by
      rintro rfl
      exact hlast List.getLast?_concat
    obtain ⟨init, last, rfl⟩ := (List.eq_nil_or_concat' rest).resolve_left hrest
    have ih := ih hrest fun heq ↦ hlast (by
      rw [← heq, ← List.cons_append, ← List.append_assoc, List.getLast?_concat,
        List.getLast?_concat])
    rw [heldLines, heldLines] at ih
    rw [heldLines, heldLines, List.append_assoc, List.cons_append, lines_append_newline h,
      lines_append_newline h, List.map_cons, List.map_cons, ih]

theorem EndingEdit.heldLines_eq_or (h : EndingEdit t u) :
    heldLines u = heldLines t ∨ t = [] ∧ u = [newline] := by
  obtain ⟨t⟩ | ⟨hlast⟩ := h
  · exact .inl (heldLines_toCrLf t)
  · by_cases hne : t = []
    · exact .inr ⟨hne, by rw [hne]; rfl⟩
    · exact .inl (heldLines_append_newline hne hlast)

theorem EndingEdit.shown_eq (h : EndingEdit t u) : shown u = shown t := by
  rcases h.heldLines_eq_or with heq | ⟨rfl, rfl⟩
  · rw [shown, heq, shown]
  · rfl

theorem IdleEdit.shown_eq (h : IdleEdit t u) : shown u = shown t := by
  obtain ⟨hidle, ht, hu⟩ := h
  rw [shown, shown, heldLines, heldLines, ht, hu, List.map_append, List.map_append, List.map_cons,
    Line.ofText_eq_blank_iff.mpr hidle, List.filter_append, List.filter_append,
    List.filter_cons_of_neg (by simp)]

theorem SameLayout.shown_eq (h : SameLayout t u) : shown u = shown t := by
  induction h with
  | rel t u hedit => exact hedit.elim EndingEdit.shown_eq IdleEdit.shown_eq
  | refl t => rfl
  | symm t u _ ih => exact ih.symm
  | trans t u v _ _ ihtu ihuv => exact ihuv.trans ihtu

end Text

/-! ## The same items -/

/-- Two texts expand to the same items, whatever their include lines become. -/
def SameItems (t u : Text) : Prop :=
  ∀ included file number,
    expandLines included file number u.lines = expandLines included file number t.lines

theorem expandLines_congr {included : Nat → Text → List Item} {file : Text} {ls ks : List Text}
    (h : ls.map Line.ofText = ks.map Line.ofText) (number : Nat) :
    expandLines included file number ls = expandLines included file number ks := by
  induction ls generalizing ks number with
  | nil =>
    rw [List.map_nil, eq_comm, List.map_eq_nil_iff] at h
    rw [h]
  | cons raw ls ih =>
    obtain ⟨other, ks, rfl, hraw, htail⟩ := List.map_eq_cons_iff.mp h.symm
    rw [expandLines, expandLines, ih htail.symm, expandLine, expandLine, hraw]

theorem Text.SameEndings.sameItems {t u : Text} (h : t.SameEndings u) : SameItems t u := by
  induction h with
  | rel t u hedit =>
    intro included file number
    rcases hedit.heldLines_eq_or with heq | ⟨rfl, rfl⟩
    · exact expandLines_congr heq number
    · rfl
  | refl t => exact fun _ _ _ ↦ rfl
  | symm t u _ ih => exact fun included file number ↦ (ih included file number).symm
  | trans t u v _ _ ihtu ihuv =>
    exact fun included file number ↦ (ihuv included file number).trans (ihtu included file number)

theorem SameFiles.cases {r : Text → Text → Prop} {read other : Text → Option Text}
    (h : SameFiles r read other) (path : Text) :
    (read path = none ∧ other path = none) ∨
      ∃ t u, read path = some t ∧ other path = some u ∧ r t u := by
  have hpath := h path
  generalize read path = content at hpath ⊢
  generalize other path = content' at hpath ⊢
  cases hpath with
  | none => exact .inl ⟨rfl, rfl⟩
  | some htu => exact .inr ⟨_, _, rfl, rfl, htu⟩

theorem SameFiles.mono {r s : Text → Text → Prop} {read other : Text → Option Text}
    (h : SameFiles r read other) (hrs : ∀ t u, r t u → s t u) : SameFiles s read other := by
  intro path
  rcases h.cases path with ⟨hread, hother⟩ | ⟨t, u, hread, hother, htu⟩
  · rw [hread, hother]
    exact .none
  · rw [hread, hother]
    exact .some (hrs t u htu)

theorem expand_eq_of_sameItems {read other : Text → Option Text}
    (h : SameFiles SameItems read other) (levels : Nat) (path : Text) {t u : Text}
    (htu : SameItems t u) :
    expand other levels (Source.ofContent path u)
      = expand read levels (Source.ofContent path t) := by
  induction levels generalizing path t u with
  | zero => exact htu _ _ _
  | succ levels ih =>
    rw [expand, expand]
    refine (htu _ _ _).trans ?_
    refine congrArg (fun included ↦ expandLines included path 1 t.lines) ?_
    funext number target
    simp only [Source.ofContent]
    rcases h.cases (Path.resolve path target) with ⟨hread, hother⟩ | ⟨v, w, hread, hother, hvw⟩
    · simp only [hread, hother]
    · simp only [hread, hother]
      exact congrArg _ (ih _ hvw)

/-! ## Line numbers taken away -/

namespace Diagnostic

/-- The diagnostic with no word about the line. -/
def unnumbered (d : Diagnostic) : Diagnostic := { d with line := 0 }

end Diagnostic

namespace Item

def unnumbered (i : Item) : Item := { i with line := 0 }

end Item

namespace Session

def unnumbered (c : Session) : Session :=
  { c with diagnostics := c.diagnostics.map Diagnostic.unnumbered }

end Session

namespace Outcome

/-- The outcome with no word about lines in its diagnostics, and with all else that there is. -/
def unnumbered (o : Outcome) : Outcome := { o with session := o.session.unnumbered }

end Outcome

theorem Item.unnumbered_apply (i : Item) (c : Session) :
    (i.apply c).unnumbered = i.unnumbered.apply c.unnumbered := by
  rw [Item.apply, Item.apply, show i.unnumbered.element = i.element from rfl,
    show c.unnumbered.state = c.state from rfl]
  cases i.element.apply c.state with
  | ok s => rfl
  | error fault =>
    simp [Session.refuse, Outcome.unnumbered, Session.unnumbered, Diagnostic.unnumbered,
      Item.unnumbered]

/-- **Line numbers only pass through.** Taking them away from the items and from the session before
a replay is the same as taking them away from what it leaves. -/
theorem unnumbered_replay (items : List Item) (c : Session) :
    (replay items c).unnumbered = replay (items.map Item.unnumbered) c.unnumbered := by
  induction items generalizing c with
  | nil => rfl
  | cons i items ih =>
    rw [List.map_cons, replay_cons, replay_cons, ← i.unnumbered_apply, Outcome.andThen,
      Outcome.andThen]
    by_cases h : (i.apply c).success = true
    · rw [if_pos h, if_pos (show (i.apply c).unnumbered.success = true from h)]
      exact ih (i.apply c).session
    · rw [if_neg h, if_neg (show ¬(i.apply c).unnumbered.success = true from h)]

/-! ## The same items but for line numbers -/

/-- The items of a line with what it holds. -/
def Line.items (included : Text → List Item) (file : Text) : Line → List Item
  | .blank => []
  | .unknown word => [⟨.invalid (.unknownCommand word), file, 0⟩]
  | .command k =>
    match Statement.ofCommand? k with
    | none => [⟨.invalid (.fieldCount k.keyword), file, 0⟩]
    | some (.declare d) => [⟨.declaration d, file, 0⟩]
    | some (.inclusion path) => included path

section Unnumbered

variable {included : Nat → Text → List Item} {targets : Text → List Item}
  (h : ∀ number path, (included number path).map Item.unnumbered = targets path)
include h

theorem unnumbered_expandLine (file : Text) (number : Nat) (raw : Text) :
    (expandLine included file number raw).map Item.unnumbered
      = (Line.ofText raw).items targets file := by
  rw [expandLine]
  cases Line.ofText raw with
  | blank => rfl
  | unknown word => rfl
  | command k =>
    rw [Line.items]
    cases hstatement : Statement.ofCommand? k with
    | none => simp only [hstatement]; rfl
    | some statement =>
      cases statement with
      | declare d => simp only [hstatement]; rfl
      | inclusion path => simp only [hstatement]; exact h number path

/-- Without line numbers, idle lines cannot be told from lines that are not there. -/
theorem unnumbered_expandLines (file : Text) (number : Nat) (t : Text) :
    (expandLines included file number t.lines).map Item.unnumbered
      = (shown t).flatMap (Line.items targets file) := by
  rw [shown, heldLines]
  generalize t.lines = ls
  induction ls generalizing number with
  | nil => rfl
  | cons raw ls ih =>
    rw [expandLines, List.map_append, unnumbered_expandLine h, ih, List.map_cons]
    by_cases hblank : Line.ofText raw = .blank
    · rw [List.filter_cons_of_neg (by simpa using hblank), hblank]
      rfl
    · rw [List.filter_cons_of_pos (by simpa using hblank), List.flatMap_cons]

end Unnumbered

/-- Include lines may become what they like, as long as it is the same for both texts. -/
theorem unnumbered_expandLines_congr {included other : Nat → Text → List Item}
    (h : ∀ number position path,
      (other number path).map Item.unnumbered = (included position path).map Item.unnumbered)
    (file : Text) {t u : Text} (htu : shown u = shown t) (number position : Nat) :
    (expandLines other file number u.lines).map Item.unnumbered
      = (expandLines included file position t.lines).map Item.unnumbered := by
  have hincluded : ∀ position path, (included position path).map Item.unnumbered
      = (included 0 path).map Item.unnumbered :=
    fun position path ↦ (h 0 position path).symm.trans (h 0 0 path)
  rw [unnumbered_expandLines hincluded, unnumbered_expandLines fun number path ↦ h number 0 path,
    htu]

theorem unnumbered_expand_eq {read other : Text → Option Text}
    (h : SameFiles (fun t u ↦ shown u = shown t) read other) (levels : Nat) (path : Text)
    {t u : Text} (htu : shown u = shown t) :
    (expand other levels (Source.ofContent path u)).map Item.unnumbered
      = (expand read levels (Source.ofContent path t)).map Item.unnumbered := by
  induction levels generalizing path t u with
  | zero =>
    rw [expand, expand]
    refine unnumbered_expandLines_congr (fun number position target ↦ ?_) path htu 1 1
    rfl
  | succ levels ih =>
    rw [expand, expand]
    refine unnumbered_expandLines_congr (fun number position target ↦ ?_) path htu 1 1
    simp only [Source.ofContent]
    rcases h.cases (Path.resolve path target) with ⟨hread, hother⟩ | ⟨v, w, hread, hother, hvw⟩
    · simp only [hread, hother]
      rfl
    · simp only [hread, hother, List.map_cons]
      exact congrArg _ (ih _ hvw)

/-! ## Collections -/

/-- **Layout does not matter.** If files of an include tree differ in carriage returns before line
feeds or in the line feed at their ends, collecting the tree has the same outcome: success, state
and all diagnostics. If there are idle lines put in or taken out as well, what is left of the
outcome without line numbers is the same. -/
theorem layout_does_not_matter {read other : Text → Option Text} (path : Text) (c : Session) :
    (SameFiles Text.SameEndings read other → collectPath other path c = collectPath read path c) ∧
      (SameFiles Text.SameLayout read other →
        (collectPath other path c).unnumbered = (collectPath read path c).unnumbered) := by
  constructor
  · intro h
    have h := h.mono fun t u htu ↦ htu.sameItems
    rw [collectPath, collectPath]
    rcases h.cases path with ⟨hread, hother⟩ | ⟨t, u, hread, hother, htu⟩
    · simp only [hread, hother]
    · simp only [hread, hother, collectSource, collectWithin_eq_replay]
      rw [expand_eq_of_sameItems h includeLimit path htu]
  · intro h
    have h := h.mono fun t u htu ↦ htu.shown_eq
    rw [collectPath, collectPath]
    rcases h.cases path with ⟨hread, hother⟩ | ⟨t, u, hread, hother, htu⟩
    · simp only [hread, hother]
    · simp only [hread, hother, collectSource, collectWithin_eq_replay]
      rw [unnumbered_replay, unnumbered_replay, unnumbered_expand_eq h includeLimit path htu]

/-- Two files. The first one includes the second, and its last line is refused. -/
def twoFiles (main lib : Text) (path : Text) : Option Text :=
  if path = "main" then some main else if path = "lib" then some lib else none

theorem sameFiles_twoFiles {r : Text → Text → Prop} {main main' lib lib' : Text}
    (hmain : r main main') (hlib : r lib lib') :
    SameFiles r (twoFiles main lib) (twoFiles main' lib') := by
  intro path
  rw [twoFiles, twoFiles]
  by_cases h : path = "main"
  · rw [if_pos h, if_pos h]
    exact .some hmain
  · rw [if_neg h, if_neg h]
    by_cases h' : path = "lib"
    · rw [if_pos h', if_pos h']
      exact .some hlib
    · rw [if_neg h', if_neg h']
      exact .none

def mainText : Text := "meta\tApi\t1.0.0.0\ninclude\tlib\ndll"

def libText : Text := "dll\ta.dll"

/-- The first file with one more line, behind its header. -/
def notedText : Text := "meta\tApi\t1.0.0.0\n  # files\ninclude\tlib\ndll"

theorem layout_does_not_matter_in_two_files :
    SameFiles Text.SameEndings (twoFiles mainText libText)
        (twoFiles mainText.toCrLf (libText ++ [newline])) ∧
      SameFiles Text.SameLayout (twoFiles mainText libText) (twoFiles notedText libText) ∧
      (collectPath (twoFiles mainText.toCrLf (libText ++ [newline])) "main"
        Session.initial).session.diagnostics = [⟨.fieldCount .dll, "main", 3⟩] ∧
      (collectPath (twoFiles notedText libText) "main" Session.initial).session.diagnostics
        = [⟨.fieldCount .dll, "main", 4⟩] ∧
      (collectPath (twoFiles notedText libText) "main" Session.initial).unnumbered
        = (collectPath (twoFiles mainText libText) "main" Session.initial).unnumbered := by
  have hendings : SameFiles Text.SameEndings (twoFiles mainText libText)
      (twoFiles mainText.toCrLf (libText ++ [newline])) :=
    sameFiles_twoFiles (.rel _ _ (.crLf _)) (.rel _ _ (.final (by decide)))
  have hnote : Text.IdleEdit mainText notedText :=
    @Text.IdleEdit.insert _ _ _ ["meta\tApi\t1.0.0.0\n"] ["include\tlib\n", "dll"]
      (.inr (@Text.Remark.mk "  " (List.all_eq_true.mp rfl) " files\n")) (by decide) (by decide)
  have hlayout : SameFiles Text.SameLayout (twoFiles mainText libText)
      (twoFiles notedText libText) := sameFiles_twoFiles (.rel _ _ (.inr hnote)) (.refl _)
  have hmain : (collectPath (twoFiles mainText libText) "main"
      Session.initial).session.diagnostics = [⟨.fieldCount .dll, "main", 3⟩] := by decide
  have hnoted : (collectPath (twoFiles notedText libText) "main"
      Session.initial).session.diagnostics = [⟨.fieldCount .dll, "main", 4⟩] := by decide
  refine ⟨hendings, hlayout, ?_, hnoted, (layout_does_not_matter "main" Session.initial).2 hlayout⟩
  rw [(layout_does_not_matter "main" Session.initial).1 hendings]
  exact hmain

end NativeApi

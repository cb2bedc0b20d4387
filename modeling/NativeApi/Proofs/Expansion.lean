import NativeApi.Collection.Source

/-!
# Expansion of includes

Includes can be expanded before anything is collected: an include line is replaced by itself as a
mere boundary and the items of its file behind it, and so on down to the limit. The expansion
depends on the contents of files and on nothing that has been declared. Collecting a source is then
one left fold over its expansion, which stops at the first item that is refused.

An item carries the file and the line that it comes from. The fold takes the place of a diagnostic
from there and never looks at the current file of the session. That the nested collection, which
does look at it, agrees with the fold is `collectWithin_eq_replay`: the current file is the file of
the line at hand whenever it is looked at, and each include puts it back.
-/

namespace NativeApi

/-! ## Items -/

/-- What a line amounts to once its include, if it is one, has been expanded. -/
inductive Element
  | declaration (d : Declaration)
  /-- A line that is refused whatever stands before it. -/
  | invalid (fault : Fault)
  /-- An include line. The items of its file follow, unless there is an obstacle. -/
  | boundary (obstacle : Option Fault)

/-- An element of an expansion, with the place where it stands. -/
structure Item where
  element : Element
  file : Text
  line : Nat

namespace Element

/-- The effect of an element on a state. A boundary asks for a header and leaves the state alone. -/
def apply (s : State) : Element → Except Fault State
  | .declaration d => s.declare d
  | .invalid fault => .error fault
  | .boundary obstacle =>
    match s.requireHeader .inclusion with
    | .error fault => .error fault
    | .ok _ => obstacle.elim (.ok s) .error

end Element

namespace Item

/-- The effect of an item on a session. -/
def apply (i : Item) (c : Session) : Outcome :=
  match i.element.apply c.state with
  | .ok s => c.accept s
  | .error fault => c.refuse fault i.file i.line

end Item

/-- A left fold over items that stops at the first one that is refused. -/
def replay (items : List Item) (c : Session) : Outcome :=
  items.foldl (fun o i ↦ o.andThen i.apply) ⟨c, true⟩

/-! ## Expansions -/

/-- The items of one line, given those of an include line. A blank line has none. -/
def expandLine (included : Nat → Text → List Item) (file : Text) (number : Nat) (raw : Text) :
    List Item :=
  match Line.ofText raw with
  | .blank => []
  | .unknown word => [⟨.invalid (.unknownCommand word), file, number⟩]
  | .command k =>
    match Statement.ofCommand? k with
    | none => [⟨.invalid (.fieldCount k.keyword), file, number⟩]
    | some (.declare d) => [⟨.declaration d, file, number⟩]
    | some (.inclusion path) => included number path

/-- The items of the lines of a file, in order. -/
def expandLines (included : Nat → Text → List Item) (file : Text) : Nat → List Text → List Item
  | _, [] => []
  | number, raw :: rest =>
    expandLine included file number raw ++ expandLines included file (number + 1) rest

/-- The items of a source below which `levels` includes may be opened. The target of an include is
resolved against the file that the line stands in. -/
def expand (read : Text → Option Text) : (levels : Nat) → Source → List Item
  | 0, source =>
    expandLines (fun number path ↦ [⟨.boundary (some (.includeDepth path)), source.path, number⟩])
      source.path 1 source.lines
  | levels + 1, source =>
    expandLines (fun number path ↦
      let target := Path.resolve source.path path
      match read target with
      | none => [⟨.boundary (some (.unreadableInclude target)), source.path, number⟩]
      | some content =>
        ⟨.boundary none, source.path, number⟩ ::
          expand read levels (Source.ofContent target content))
      source.path 1 source.lines

/-! ## Replaying items -/

namespace Outcome

theorem andThen_assoc (o : Outcome) (f g : Session → Outcome) :
    (o.andThen f).andThen g = o.andThen fun c ↦ (f c).andThen g := by
  rw [andThen.eq_def o f, andThen.eq_def o]
  split
  · rfl
  · rename_i h
    rw [andThen, if_neg h]

/-- Going on with nothing. -/
theorem andThen_stay (o : Outcome) : (o.andThen fun c ↦ ⟨c, true⟩) = o := by
  rw [andThen]
  split
  · rename_i h
    rw [← h]
  · rfl

/-- Steps that are folded behind an outcome go on from the session that it leaves. -/
theorem foldl_andThen {α : Type} (f : α → Session → Outcome) (as : List α) (o : Outcome) :
    as.foldl (fun o a ↦ o.andThen (f a)) o
      = o.andThen fun c ↦ as.foldl (fun o a ↦ o.andThen (f a)) ⟨c, true⟩ := by
  induction as generalizing o with
  | nil => exact o.andThen_stay.symm
  | cons a as ih =>
    simp only [List.foldl_cons]
    -- The first step belongs to what follows `o`, so the steps behind it are split off twice.
    rw [ih, andThen_assoc]
    refine congrArg o.andThen (funext fun c ↦ ?_)
    rw [ih]
    rfl

end Outcome

theorem replay_cons (i : Item) (items : List Item) (c : Session) :
    replay (i :: items) c = (i.apply c).andThen (replay items) := by
  rw [replay, List.foldl_cons, Outcome.foldl_andThen]
  rfl

theorem replay_append (items more : List Item) (c : Session) :
    replay (items ++ more) c = (replay items c).andThen (replay more) := by
  rw [replay, List.foldl_append, Outcome.foldl_andThen, replay]
  rfl

@[simp] theorem replay_singleton (i : Item) (c : Session) : replay [i] c = i.apply c := by
  rw [replay_cons]
  exact (i.apply c).andThen_stay

/-! ### The current file

Items know their own file, so the current file of the session neither matters to them nor
changes. -/

@[simp] theorem Session.enter_file (c : Session) : c.enter c.file = c := rfl

@[simp] theorem Outcome.enter_enter (o : Outcome) (file other : Text) :
    (o.enter file).enter other = o.enter other := rfl

theorem Item.apply_enter (i : Item) (c : Session) (file : Text) :
    i.apply (c.enter file) = (i.apply c).enter file := by
  rw [Item.apply, Item.apply, show (c.enter file).state = c.state from rfl]
  split
  · rfl
  · rfl

theorem replay_enter (items : List Item) (c : Session) (file : Text) :
    replay items (c.enter file) = (replay items c).enter file := by
  induction items generalizing c with
  | nil => rfl
  | cons i items ih =>
    rw [replay_cons, replay_cons, i.apply_enter, Outcome.andThen, Outcome.andThen]
    by_cases h : (i.apply c).success
    · rw [if_pos h, if_pos (show ((i.apply c).enter file).success = true from h)]
      exact ih (i.apply c).session
    · rw [if_neg h, if_neg (show ¬((i.apply c).enter file).success = true from h)]

/-- Replaying leaves the current file as it is. -/
theorem file_replay (items : List Item) (c : Session) :
    (replay items c).session.file = c.file := by
  have h := replay_enter items c c.file
  rw [c.enter_file] at h
  rw [h]
  rfl

/-! ## Collection is a replay -/

section Lines

variable {opening : Opening} {included : Nat → Text → List Item} {file : Text}

/-- A line acts as its items do if this holds of include lines. -/
theorem collectLine_eq_replay
    (h : ∀ number path c, c.file = file →
      collectInclusion opening number path c = replay (included number path) c)
    (number : Nat) (raw : Text) {c : Session} (hc : c.file = file) :
    collectLine opening number raw c = replay (expandLine included file number raw) c := by
  rw [collectLine, expandLine]
  cases Line.ofText raw with
  | blank => rfl
  | unknown word => simp only [replay_singleton, Item.apply, Element.apply, hc]
  | command k =>
    cases hk : Statement.ofCommand? k with
    | none => simp only [hk, replay_singleton, Item.apply, Element.apply, hc]
    | some statement =>
      cases statement with
      | declare d =>
        simp only [hk, replay_singleton]
        rw [hc]
        rfl
      | inclusion path => simpa only [hk] using h number path c hc

theorem collectLines_eq_replay
    (h : ∀ number path c, c.file = file →
      collectInclusion opening number path c = replay (included number path) c)
    (number : Nat) (lines : List Text) {c : Session} (hc : c.file = file) :
    collectLines opening number lines c = replay (expandLines included file number lines) c := by
  induction lines generalizing number c with
  | nil => rfl
  | cons raw lines ih =>
    have hline := collectLine_eq_replay h number raw hc
    -- Behind the line the file is still the current one, so the hypothesis applies to the rest.
    have hfile : (collectLine opening number raw c).session.file = file := by
      rw [hline, file_replay, hc]
    rw [collectLines, expandLines, replay_append, ← hline, Outcome.andThen, Outcome.andThen,
      ih (number + 1) hfile]

/-- A source acts as its items do, and the file that was current before is current again. -/
theorem collectInside_eq_replay {source : Source}
    (h : ∀ number path c, c.file = source.path →
      collectInclusion opening number path c = replay (included number path) c) (c : Session) :
    collectInside opening source c
      = replay (expandLines included source.path 1 source.lines) c := by
  have henter : (c.enter source.path).file = source.path := rfl
  -- Replays commute with entering a file, so entering the source and leaving it cancel.
  rw [collectInside, collectLines_eq_replay h 1 source.lines henter, replay_enter,
    Outcome.enter_enter, ← replay_enter, c.enter_file]

end Lines

/-- An include line whose file cannot be opened. -/
theorem collectInclusion_eq_replay_obstacle {opening : Opening} {number : Nat} {path : Text}
    {c : Session} {fault : Fault} (h : opening number path c = c.refuse fault c.file number) :
    collectInclusion opening number path c
      = replay [⟨.boundary (some fault), c.file, number⟩] c := by
  rw [collectInclusion, replay_singleton, h]
  cases hc : c.state.requireHeader .inclusion <;> simp [Item.apply, Element.apply, hc]

/-- An include line whose file acts as its items do. -/
theorem collectInclusion_eq_replay_boundary {opening : Opening} {number : Nat} {path : Text}
    {c : Session} {items : List Item} (h : opening number path c = replay items c) :
    collectInclusion opening number path c
      = replay (⟨.boundary none, c.file, number⟩ :: items) c := by
  rw [collectInclusion, replay_cons, h]
  cases hc : c.state.requireHeader .inclusion with
  | ok header => simp [Item.apply, Element.apply, hc, Outcome.andThen, Session.accept]
  | error fault => simp [Item.apply, Element.apply, hc, Outcome.andThen, Session.refuse]

/-- Collecting a source is replaying its expansion, for any number of includes that may still be
opened. -/
theorem collectWithin_eq_replay (read : Text → Option Text) (levels : Nat)
    (source : Source) (c : Session) :
    collectWithin read levels source c = replay (expand read levels source) c := by
  -- An include goes on with another source and a later session, and with one level less.
  induction levels generalizing source c with
  | zero =>
    rw [collectWithin, expand]
    refine collectInside_eq_replay (fun number path d hd ↦ ?_) c
    rw [← hd]
    exact collectInclusion_eq_replay_obstacle rfl
  | succ levels ih =>
    rw [collectWithin, expand]
    refine collectInside_eq_replay (fun number path d hd ↦ ?_) c
    simp only [← hd]
    cases hread : read (Path.resolve d.file path) with
    | none =>
      apply collectInclusion_eq_replay_obstacle
      simp only [hread]
    | some content =>
      apply collectInclusion_eq_replay_boundary
      simp only [hread]
      exact ih _ d

/-- An item that declares nothing leaves the state as it is, a boundary between files included. -/
theorem Item.state_apply_of_not_declaration {i : Item} (h : ∀ d, i.element ≠ .declaration d)
    (c : Session) : (i.apply c).session.state = c.state := by
  obtain ⟨element, file, line⟩ := i
  cases element with
  | declaration d => exact absurd rfl (h d)
  | invalid fault => rfl
  | boundary obstacle =>
    rw [Item.apply]
    cases hc : c.state.requireHeader .inclusion with
    | error fault => simp [Element.apply, hc, Session.refuse]
    | ok header => cases obstacle <;> simp [Element.apply, hc, Session.refuse, Session.accept]

/-- **Includes are inlined.** Collecting a source, with any number of includes still allowed, is a
left fold of the effects of lines over the expansion, up to the first item that is refused. The
boundaries of files in the expansion act on no state, and the current file is the one from before,
whether or not the collection succeeds. -/
theorem collection_inlines_includes (read : Text → Option Text) (levels : Nat) (source : Source)
    (c : Session) :
    collectWithin read levels source c
        = (expand read levels source).foldl (fun o i ↦ o.andThen i.apply) ⟨c, true⟩ ∧
      (∀ i ∈ expand read levels source, (∀ d, i.element ≠ .declaration d) →
        ∀ d, (i.apply d).session.state = d.state) ∧
      (collectWithin read levels source c).session.file = c.file := by
  have hreplay := collectWithin_eq_replay read levels source c
  refine ⟨hreplay, fun i _ hi d ↦ i.state_apply_of_not_declaration hi d, ?_⟩
  rw [hreplay, file_replay]

end NativeApi

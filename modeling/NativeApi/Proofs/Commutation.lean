import NativeApi.Proofs.DefinitionLanguage
import NativeApi.Proofs.Independence
import NativeApi.Proofs.Layout
import NativeApi.Proofs.OneLine
import NativeApi.Proofs.Runs

/-!
# Independent lines commute

A line of a group is accepted or refused, and what it adds is the same, whether a line of another
group stands before it or not. So two such lines may change places: they succeed in both orders or
in none, and what they leave is the same session, with the same model, slots and name indexes.

In files such lines can be moved past each other any number of times, and idle lines do not matter
(`Text.SameButOrder`). What a list of items leaves of a state if all of them are accepted is
`stateBehind?`. It cannot tell the orders apart for two neighbours (`behind?_comm_of_inGroup`),
hence not for whole files, and hence not for include trees. What compiles is the same, and it
compiles to the same text.
-/

namespace NativeApi

open Relation (EqvGen)

/-! ## Lines of a group -/

namespace Element

/-- The element is a declaration of the group, or refused wherever it stands. -/
inductive InGroup (g : LineGroup) : Element → Prop
  | declaration {d : Declaration} (h : d.group? = some g) : InGroup g (.declaration d)
  | invalid (fault : Fault) : InGroup g (.invalid fault)

end Element

namespace Line

/-- The group of a line, whether or not it has the fields that it needs. -/
def group? : Line → Option LineGroup
  | command k => k.keyword.group?
  | _ => none

/-- The lines are of different groups. -/
def Independent (a b : Line) : Prop := ∃ g h, a.group? = some g ∧ b.group? = some h ∧ g ≠ h

/-- A line of a group is one element, whatever is included elsewhere. -/
theorem exists_inGroup {l : Line} {g : LineGroup} (h : l.group? = some g) :
    ∃ x : Element, x.InGroup g ∧ (∀ targets file, l.items targets file = [⟨x, file, 0⟩]) ∧
      ∀ included file number raw, ofText raw = l →
        expandLine included file number raw = [⟨x, file, number⟩] := by
  cases l with
  | blank => cases h
  | unknown word => cases h
  | command k =>
    rw [group?] at h
    cases hstatement : Statement.ofCommand? k with
    | none =>
      refine ⟨_, .invalid (.fieldCount k.keyword), fun targets file ↦ ?_,
        fun included file number raw hraw ↦ ?_⟩
      · simp only [items, hstatement]
      · simp only [expandLine, hraw, hstatement]
    | some statement =>
      cases statement with
      | declare d =>
        rw [← (Statement.of_declare hstatement).1] at h
        refine ⟨_, .declaration h, fun targets file ↦ ?_, fun included file number raw hraw ↦ ?_⟩
        · simp only [items, hstatement]
        · simp only [expandLine, hraw, hstatement]
      | inclusion path =>
        rw [Statement.keyword_of_inclusion hstatement] at h
        cases h

end Line

/-! ## Two elements -/

namespace Element

variable {x y : Element} {s : State} {g h : LineGroup}

/-- What an element leaves of a state, if it is accepted. -/
def behind? (x : Element) (s : State) : Option State := (x.apply s).toOption

/-- The entry that an element makes in a state, if it is accepted and makes one. -/
def added? (x : Element) (s : State) : Option Entry :=
  match x with
  | declaration d => (s.read d).toOption
  | _ => none

theorem read_of_added? {e : Entry} (he : x.added? s = some e) :
    ∃ d, x = .declaration d ∧ s.read d = .ok e := by
  cases x with
  | declaration d =>
    refine ⟨d, rfl, ?_⟩
    rw [added?] at he
    cases hread : s.read d with
    | error fault =>
      rw [hread] at he
      cases he
    | ok other =>
      rw [hread] at he
      cases he
      rfl
  | invalid fault => cases he
  | boundary obstacle => cases he

theorem admits_of_added? {e : Entry} (he : x.added? s = some e) : s.Admits e := by
  obtain ⟨d, -, hread⟩ := read_of_added? he
  exact (State.read_eq_ok.mp hread).2

namespace InGroup

theorem behind?_eq (hx : x.InGroup g) : x.behind? s = (x.added? s).map s.add := by
  cases hx with
  | @declaration d hd =>
    rw [behind?, added?, apply, State.declare]
    cases s.read d <;> rfl
  | invalid fault => rfl

theorem group?_of_added? (hx : x.InGroup g) {e : Entry} (he : x.added? s = some e) :
    e.group? = some g := by
  obtain ⟨d, rfl, hread⟩ := read_of_added? he
  rw [(State.read_eq_ok.mp hread).1.group?_eq]
  cases hx with
  | declaration hd => exact hd

theorem added?_add (hx : x.InGroup g) {f : Entry} (hf : f.group? = some h) (hne : h ≠ g) :
    x.added? (s.add f) = x.added? s := by
  cases hx with
  | declaration hd => rw [added?, added?, State.read_add_of_groups hf hd hne]
  | invalid fault => rfl

/-- The entries of two elements, in either order. -/
theorem entries_comm {α : Type} (hx : x.InGroup g) (hy : y.InGroup h) (p q : Entry → Entry → α)
    (hpq : ∀ e f, e.group? = some g → f.group? = some h → p e f = q f e) :
    ((x.added? s).bind fun e ↦ (y.added? s).map (p e))
      = (y.added? s).bind fun f ↦ (x.added? s).map (q f) := by
  cases he : x.added? s with
  | none => cases y.added? s <;> rfl
  | some e =>
    cases hf : y.added? s with
    | none => rfl
    | some f =>
      simp only [Option.bind_some, Option.map_some,
        hpq e f (hx.group?_of_added? he) (hy.group?_of_added? hf)]

theorem behind?_bind (hx : x.InGroup g) (hy : y.InGroup h) (hne : g ≠ h) :
    (x.behind? s).bind y.behind?
      = (x.added? s).bind fun e ↦ (y.added? s).map (s.add e).add := by
  rw [hx.behind?_eq]
  cases he : x.added? s with
  | none => rfl
  | some e =>
    rw [Option.map_some, Option.bind_some, Option.bind_some, hy.behind?_eq,
      hy.added?_add (hx.group?_of_added? he) hne]

end InGroup

/-- Two elements of different groups leave the same state in both orders, or none. -/
theorem behind?_comm_of_inGroup (hx : x.InGroup g) (hy : y.InGroup h) (hne : g ≠ h) (s : State) :
    (x.behind? s).bind y.behind? = (y.behind? s).bind x.behind? := by
  rw [hx.behind?_bind hy hne, hy.behind?_bind hx hne.symm]
  exact hx.entries_comm hy _ _ fun e f he hf ↦ State.add_comm_of_groups he hf hne

end Element

/-! ## Two lines in a session with indexes -/

/-- What a collection with indexes leaves, if it succeeds. -/
def IndexedSession.left? (r : IndexedSession × Bool) : Option IndexedSession :=
  if r.2 then some r.1 else none

/-- Two collections with indexes succeed both or fail both, and leave the same if they succeed. -/
structure SameResult (r r' : IndexedSession × Bool) : Prop where
  success : r.2 = r'.2
  session : r.2 = true → r.1 = r'.1

namespace IndexedSession

variable {c : IndexedSession} {i j : Item} {g h : LineGroup}

theorem sameResult_of_left? {r r' : IndexedSession × Bool} (heq : left? r = left? r') :
    SameResult r r' := by
  obtain ⟨d, accepted⟩ := r
  obtain ⟨d', accepted'⟩ := r'
  cases accepted <;> cases accepted'
  · exact ⟨rfl, nofun⟩
  · cases heq
  · cases heq
  · exact ⟨rfl, fun _ ↦ Option.some.inj heq⟩

theorem left?_replayIndexed_cons (i : Item) (items : List Item) (c : IndexedSession) :
    left? (replayIndexed (i :: items) c)
      = (left? (i.applyIndexed c)).bind fun d ↦ left? (replayIndexed items d) := by
  rw [replayIndexed]
  obtain ⟨d, accepted⟩ := i.applyIndexed c
  cases accepted <;> rfl

theorem left?_replayIndexed_singleton (i : Item) (c : IndexedSession) :
    left? (replayIndexed [i] c) = left? (i.applyIndexed c) := by
  rw [left?_replayIndexed_cons]
  cases left? (i.applyIndexed c) <;> rfl

theorem left?_applyIndexed (hc : c.Exact) (hi : i.element.InGroup g) :
    left? (i.applyIndexed c) = (i.element.added? c.session.state).map c.accept := by
  obtain ⟨x, file, line⟩ := i
  cases hi with
  | @declaration d hd =>
    have hread : c.read d = c.session.state.read d := NameIndexes.read_eq hc d
    rw [Item.applyIndexed, Element.added?]
    simp only [hread]
    cases c.session.state.read d <;> rfl
  | invalid fault => rfl

theorem left?_replayIndexed_pair (hc : c.Exact) (hi : i.element.InGroup g)
    (hj : j.element.InGroup h) (hne : g ≠ h) :
    left? (replayIndexed [i, j] c)
      = (i.element.added? c.session.state).bind fun e ↦
        (j.element.added? c.session.state).map (c.accept e).accept := by
  rw [left?_replayIndexed_cons, left?_applyIndexed hc hi]
  cases he : i.element.added? c.session.state with
  | none => rfl
  | some e =>
    -- The entry has been read, so the indexes are exact behind it as well.
    have hexact : (c.accept e).Exact := hc.add (Element.admits_of_added? he)
    rw [Option.map_some, Option.bind_some, Option.bind_some, left?_replayIndexed_singleton,
      left?_applyIndexed hexact hj,
      show (c.accept e).session.state = c.session.state.add e from rfl,
      hj.added?_add (hi.group?_of_added? he) hne]

theorem accept_comm {e f : Entry} (he : e.group? = some g) (hf : f.group? = some h) (hne : g ≠ h) :
    (c.accept e).accept f = (c.accept f).accept e := by
  simp only [accept, Session.accept, State.add_comm_of_groups he hf hne,
    NameIndexes.add_comm_of_groups he hf hne]

end IndexedSession

/-- A line in a file, with its number. -/
structure PlacedLine where
  raw : Text
  file : Text
  number : Nat

namespace PlacedLine

/-- The items of a line, given those of an include line. -/
def items (l : PlacedLine) (included : Nat → Text → List Item) : List Item :=
  expandLine included l.file l.number l.raw

def Independent (a b : PlacedLine) : Prop := (Line.ofText a.raw).Independent (Line.ofText b.raw)

/-- From exact indexes on, independent lines may change places. -/
theorem Independent.sameResult {a b : PlacedLine} (h : a.Independent b)
    (included : Nat → Text → List Item) {c : IndexedSession} (hc : c.Exact) :
    SameResult (replayIndexed (a.items included ++ b.items included) c)
      (replayIndexed (b.items included ++ a.items included) c) := by
  obtain ⟨g, g', ha, hb, hne⟩ := h
  obtain ⟨x, hx, -, hxitems⟩ := Line.exists_inGroup ha
  obtain ⟨y, hy, -, hyitems⟩ := Line.exists_inGroup hb
  have haitems : a.items included = [⟨x, a.file, a.number⟩] := hxitems _ _ _ _ rfl
  have hbitems : b.items included = [⟨y, b.file, b.number⟩] := hyitems _ _ _ _ rfl
  rw [haitems, hbitems]
  apply IndexedSession.sameResult_of_left?
  rw [List.singleton_append, List.singleton_append,
    IndexedSession.left?_replayIndexed_pair hc hx hy hne,
    IndexedSession.left?_replayIndexed_pair hc hy hx hne.symm]
  exact hx.entries_comm hy _ _ fun e f he hf ↦ IndexedSession.accept_comm he hf hne

end PlacedLine

/-! ## Moved lines -/

/-- Two independent lines that are neighbours change places. -/
inductive LineMove : List Line → List Line → Prop
  | swap {a b : Line} (h : a.Independent b) (before after : List Line) :
      LineMove (before ++ a :: b :: after) (before ++ b :: a :: after)

/-- The same text but for idle lines and for moves of lines past independent ones. -/
def Text.SameButOrder (t u : Text) : Prop := EqvGen LineMove (shown t) (shown u)

/-- What items leave of a state, if all of them are accepted. -/
def stateBehind? (items : List Item) (s : State) : Option State :=
  items.foldlM (fun s i ↦ i.element.behind? s) s

theorem stateBehind?_cons (i : Item) (items : List Item) (s : State) :
    stateBehind? (i :: items) s = (i.element.behind? s).bind (stateBehind? items) := rfl

theorem stateBehind?_cons_cons (i j : Item) (items : List Item) (s : State) :
    stateBehind? (i :: j :: items) s
      = ((i.element.behind? s).bind j.element.behind?).bind (stateBehind? items) := by
  rw [stateBehind?_cons, Option.bind_assoc]
  rfl

theorem stateBehind?_append (items more : List Item) (s : State) :
    stateBehind? (items ++ more) s = (stateBehind? items s).bind (stateBehind? more) :=
  List.foldlM_append

theorem stateBehind?_unnumbered (items : List Item) :
    stateBehind? (items.map Item.unnumbered) = stateBehind? items := by
  funext s
  rw [stateBehind?, List.foldlM_map]
  rfl

theorem replay_of_stateBehind? (items : List Item) (c : Session) :
    (replay items c).success = (stateBehind? items c.state).isSome ∧
      ∀ s, stateBehind? items c.state = some s → replay items c = c.accept s := by
  induction items generalizing c with
  | nil =>
    refine ⟨rfl, fun s hs ↦ ?_⟩
    cases hs
    rfl
  | cons i items ih =>
    rw [replay_cons, stateBehind?_cons, Item.apply, Element.behind?]
    cases i.element.apply c.state with
    | error fault => exact ⟨rfl, fun s hs ↦ by cases hs⟩
    | ok s => exact ih (c.accept s).session

section Moves

variable {targets other : Text → List Item}

/-- What the included files are does not matter, but for what they leave of states. -/
theorem stateBehind?_flatMap_congr
    (h : ∀ path, stateBehind? (other path) = stateBehind? (targets path)) (file : Text)
    (lines : List Line) :
    stateBehind? (lines.flatMap (Line.items other file))
      = stateBehind? (lines.flatMap (Line.items targets file)) := by
  induction lines with
  | nil => rfl
  | cons l lines ih =>
    have hline : stateBehind? (l.items other file) = stateBehind? (l.items targets file) := by
      cases l with
      | blank => rfl
      | unknown word => rfl
      | command k =>
        rw [Line.items, Line.items]
        cases hstatement : Statement.ofCommand? k with
        | none => rfl
        | some statement =>
          cases statement with
          | declare d => rfl
          | inclusion path => exact h path
    funext s
    rw [List.flatMap_cons, List.flatMap_cons, stateBehind?_append, stateBehind?_append, hline, ih]

theorem LineMove.stateBehind?_eq {lines moved : List Line} (h : LineMove lines moved)
    (file : Text) :
    stateBehind? (moved.flatMap (Line.items targets file))
      = stateBehind? (lines.flatMap (Line.items targets file)) := by
  obtain ⟨⟨g, g', ha, hb, hne⟩, before, after⟩ := h
  obtain ⟨x, hx, hxitems, -⟩ := Line.exists_inGroup ha
  obtain ⟨y, hy, hyitems, -⟩ := Line.exists_inGroup hb
  funext s
  simp only [List.flatMap_append, List.flatMap_cons, hxitems, hyitems, List.singleton_append]
  rw [stateBehind?_append, stateBehind?_append]
  refine congrArg (stateBehind? (before.flatMap (Line.items targets file)) s).bind
    (funext fun t ↦ ?_)
  rw [stateBehind?_cons_cons, stateBehind?_cons_cons, Element.behind?_comm_of_inGroup hx hy hne t]

theorem stateBehind?_eq_of_moves {lines moved : List Line} (h : EqvGen LineMove lines moved)
    (file : Text) :
    stateBehind? (moved.flatMap (Line.items targets file))
      = stateBehind? (lines.flatMap (Line.items targets file)) := by
  induction h with
  | rel lines moved hmove => exact hmove.stateBehind?_eq file
  | refl lines => rfl
  | symm lines moved _ ih => exact ih.symm
  | trans lines moved more _ _ ih ihmore => exact ihmore.trans ih

end Moves

/-! ## Moved lines in files -/

/-- Include lines may become other items, but they have to leave the same of a state. The numbers of
the lines may only be in the items as such. -/
theorem stateBehind?_expandLines_congr {included other : Nat → Text → List Item}
    (hincluded : ∀ number path,
      (included number path).map Item.unnumbered = (included 0 path).map Item.unnumbered)
    (hother : ∀ number path,
      (other number path).map Item.unnumbered = (other 0 path).map Item.unnumbered)
    (h : ∀ path, stateBehind? (other 0 path) = stateBehind? (included 0 path))
    (file : Text) {t u : Text} (htu : t.SameButOrder u) :
    stateBehind? (expandLines other file 1 u.lines)
      = stateBehind? (expandLines included file 1 t.lines) := by
  rw [← stateBehind?_unnumbered (expandLines other file 1 u.lines),
    ← stateBehind?_unnumbered (expandLines included file 1 t.lines),
    unnumbered_expandLines hother, unnumbered_expandLines hincluded]
  refine (stateBehind?_flatMap_congr (fun path ↦ ?_) file (shown u)).trans
    (stateBehind?_eq_of_moves htu file)
  rw [stateBehind?_unnumbered, stateBehind?_unnumbered, h]

theorem stateBehind?_expand_eq {read other : Text → Option Text}
    (h : SameFiles Text.SameButOrder read other) (levels : Nat) (path : Text) {t u : Text}
    (htu : t.SameButOrder u) :
    stateBehind? (expand other levels (Source.ofContent path u))
      = stateBehind? (expand read levels (Source.ofContent path t)) := by
  induction levels generalizing path t u with
  | zero =>
    rw [expand, expand]
    exact stateBehind?_expandLines_congr (fun _ _ ↦ rfl) (fun _ _ ↦ rfl) (fun _ ↦ rfl) path htu
  | succ levels ih =>
    rw [expand, expand]
    refine stateBehind?_expandLines_congr (fun number target ↦ ?_) (fun number target ↦ ?_)
      (fun target ↦ ?_) path htu
    · simp only [Source.ofContent]
      cases read (Path.resolve path target) <;> rfl
    · simp only [Source.ofContent]
      cases other (Path.resolve path target) <;> rfl
    · simp only [Source.ofContent]
      rcases h.cases (Path.resolve path target) with ⟨hread, hother⟩ | ⟨v, w, hread, hother, hvw⟩
      · simp only [hread, hother]
      · simp only [hread, hother]
        funext s
        exact congrArg (Option.bind _) (ih _ hvw)

/-- Collecting files with moved lines succeeds and fails alike, and leaves the same on success. -/
theorem collectPath_of_sameButOrder {read other : Text → Option Text}
    (h : SameFiles Text.SameButOrder read other) (path : Text) (c : Session) :
    (collectPath other path c).success = (collectPath read path c).success ∧
      ((collectPath read path c).success = true →
        collectPath other path c = collectPath read path c) := by
  rw [collectPath, collectPath]
  rcases h.cases path with ⟨hread, hother⟩ | ⟨t, u, hread, hother, htu⟩
  · simp [hread, hother]
  · simp only [hread, hother, collectSource, collectWithin_eq_replay]
    have heq := congrFun (stateBehind?_expand_eq h includeLimit path htu) c.state
    obtain ⟨hsuccess, hsession⟩ :=
      replay_of_stateBehind? (expand read includeLimit (Source.ofContent path t)) c
    obtain ⟨hsuccess', hsession'⟩ :=
      replay_of_stateBehind? (expand other includeLimit (Source.ofContent path u)) c
    refine ⟨by rw [hsuccess, hsuccess', heq], fun hok ↦ ?_⟩
    obtain ⟨s, hs⟩ := Option.isSome_iff_exists.mp (hsuccess.symm.trans hok)
    rw [hsession s hs, hsession' s (heq.trans hs)]

theorem compiles_iff_of_sameButOrder {read other : Text → Option Text}
    (h : SameFiles Text.SameButOrder read other) (path text : Text) :
    Compiles other path text ↔ Compiles read path text := by
  obtain ⟨hsuccess, hsame⟩ := collectPath_of_sameButOrder h path Session.initial
  constructor
  · rintro ⟨hcollected, hrendered, htext⟩
    have hread := hsuccess.symm.trans hcollected
    rw [hsame hread] at hrendered htext
    exact ⟨hread, hrendered, htext⟩
  · rintro ⟨hcollected, hrendered, htext⟩
    rw [← hsame hcollected] at hrendered htext
    exact ⟨hsuccess.trans hcollected, hrendered, htext⟩

/-- **Independent lines commute.** Wherever a collection with indexes has got to, two lines of
different groups succeed in both orders or fail in both, in whatever files they stand, and if they
succeed the session is the same: the model, the slots, the name indexes and all else. So files of an
include tree whose lines have been moved past independent ones are collected alike, and they compile
to the same text. -/
theorem independent_lines_commute :
    (∀ c, IndexedVisited c → ∀ a b : PlacedLine, a.Independent b → ∀ included,
      SameResult (replayIndexed (a.items included ++ b.items included) c)
        (replayIndexed (b.items included ++ a.items included) c)) ∧
      ∀ read other, SameFiles Text.SameButOrder read other → ∀ path,
        (∀ c, (collectPath other path c).success = (collectPath read path c).success ∧
          ((collectPath read path c).success = true →
            collectPath other path c = collectPath read path c)) ∧
        ∀ text, Compiles other path text ↔ Compiles read path text := by
  constructor
  · intro c hc a b hab included
    exact hab.sameResult included hc.visited_exact.2
  · intro read other h path
    exact ⟨collectPath_of_sameButOrder h path, compiles_iff_of_sameButOrder h path⟩

/-- A call that leaves an enumeration and a struct to be filled. -/
def stockCall : Call :=
  .source (fun _ ↦ none) ⟨"main", ["meta\tApi\t1.0.0.0", "enum\tMode\tDWORD", "struct\tItem"]⟩

def stockSession : IndexedSession := (replayIndexed stockCall.items IndexedSession.initial).1

/-- A variant of the enumeration, and a field with the enumeration for its type. -/
def variantLine : PlacedLine := ⟨"variant\tOpen\t1", "main", 4⟩

def fieldLine : PlacedLine := ⟨"field\tmode\tMode\t0", "items", 1⟩

/-- The same in two files, the second of which has the variant and the field. -/
def stockText : Text := "meta\tApi\t1.0.0.0\nenum\tMode\tDWORD\nstruct\tItem\ninclude\tlib"

def fillingText : Text := "variant\tOpen\t1\nfield\tmode\tMode\t0"

def movedText : Text := "field\tmode\tMode\t0\n\nvariant\tOpen\t1\n"

theorem independent_lines_commute_in_two_files :
    IndexedVisited stockSession ∧ variantLine.Independent fieldLine ∧
      (replayIndexed (variantLine.items (fun _ _ ↦ []) ++ fieldLine.items fun _ _ ↦ [])
        stockSession).2 = true ∧
      SameResult
        (replayIndexed (variantLine.items (fun _ _ ↦ []) ++ fieldLine.items fun _ _ ↦ [])
          stockSession)
        (replayIndexed (fieldLine.items (fun _ _ ↦ []) ++ variantLine.items fun _ _ ↦ [])
          stockSession) ∧
      SameFiles Text.SameButOrder (twoFiles stockText fillingText)
        (twoFiles stockText movedText) ∧
      ∃ text, Compiles (twoFiles stockText fillingText) "main" text ∧
        Compiles (twoFiles stockText movedText) "main" text := by
  have hvisited : IndexedVisited stockSession :=
    (IndexedReachable.call .initial stockCall).visited
  have hsession : stockSession.session = (replay stockCall.items Session.initial).session :=
    (replayIndexed_agrees stockCall.items (c := IndexedSession.initial)
      NameIndexes.exact_empty).session
  have hindependent : variantLine.Independent fieldLine :=
    ⟨.variant, .field, by decide, by decide, by decide⟩
  have hsuccess : (replayIndexed (variantLine.items (fun _ _ ↦ []) ++ fieldLine.items fun _ _ ↦ [])
      stockSession).2 = true := by
    rw [(replayIndexed_agrees _ hvisited.visited_exact.2).success, hsession]
    decide
  have hfilling : shown fillingText = [Line.ofText variantLine.raw, Line.ofText fieldLine.raw] := by
    decide
  have hmoved : shown movedText = [Line.ofText fieldLine.raw, Line.ofText variantLine.raw] := by
    decide
  have horder : fillingText.SameButOrder movedText := by
    rw [Text.SameButOrder, hfilling, hmoved]
    exact .rel _ _ (.swap hindependent [] [])
  have hfiles : SameFiles Text.SameButOrder (twoFiles stockText fillingText)
      (twoFiles stockText movedText) := sameFiles_twoFiles (.refl _) horder
  have hcompiles : Compiles (twoFiles stockText fillingText) "main"
      (collectPath (twoFiles stockText fillingText) "main"
        Session.initial).session.state.model.render.text :=
    ⟨by decide, by decide, rfl⟩
  obtain ⟨hlines, htrees⟩ := independent_lines_commute
  exact ⟨hvisited, hindependent, hsuccess, hlines _ hvisited _ _ hindependent _, hfiles, _,
    hcompiles, ((htrees _ _ hfiles "main").2 _).mpr hcompiles⟩

end NativeApi

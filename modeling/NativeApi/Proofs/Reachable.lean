import NativeApi.Proofs.Expansion
import NativeApi.Proofs.Reading

/-!
# Collections one after another

A session can go through any number of collections. It starts empty, and a collection that fails
leaves behind what its lines before the refused one have added. `Reachable` is every session that
arises in this way.

Two principles carry what is proved of such sessions. A property of states that every entry
preserves, if it was read where it is added, holds of every reachable state. And where all
collections succeed, their declarations in expanded order have been read one after another, each in
the state that the entries before it lead to.
-/

namespace NativeApi

/-! ## Calls -/

/-- One collection: of a source that has been read already, or of the file at a path. Files need
not have the same contents in different calls. -/
inductive Call
  | source (read : Text → Option Text) (source : Source)
  | path (read : Text → Option Text) (path : Text)

namespace Call

/-- The effect of a call on a session. -/
def perform : Call → Session → Outcome
  | source read s => collectSource read s
  | path read p => collectPath read p

/-- The expansion that a call replays. -/
def items : Call → List Item
  | source read s => expand read includeLimit s
  | path read p =>
    match read p with
    | none => [⟨.invalid (.unreadableSource p), p, 0⟩]
    | some content => expand read includeLimit (Source.ofContent p content)

theorem perform_eq_replay (call : Call) (c : Session) : call.perform c = replay call.items c := by
  cases call with
  | source read s => exact collectWithin_eq_replay read includeLimit s c
  | path read p =>
    rw [perform, collectPath, items]
    cases read p with
    | none => rw [replay_singleton]; rfl
    | some content => exact collectWithin_eq_replay read includeLimit _ c

end Call

/-- Calls on one session, up to the first that fails. -/
def performAll (calls : List Call) (c : Session) : Outcome :=
  calls.foldl (fun o call ↦ o.andThen call.perform) ⟨c, true⟩

/-- Calls act as their expansions do, put end to end. -/
theorem performAll_eq_replay (calls : List Call) (c : Session) :
    performAll calls c = replay (calls.flatMap Call.items) c := by
  induction calls generalizing c with
  | nil => rfl
  | cons call calls ih =>
    have hcalls : performAll calls = replay (calls.flatMap Call.items) := funext ih
    rw [List.flatMap_cons, replay_append, ← call.perform_eq_replay, ← hcalls, performAll,
      List.foldl_cons, Outcome.foldl_andThen]
    rfl

/-- The sessions that calls lead to, whether they succeed or fail. -/
inductive Reachable : Session → Prop
  | initial : Reachable Session.initial
  | call {c : Session} (h : Reachable c) (call : Call) : Reachable (call.perform c).session

/-! ## Invariants -/

/-- A property that every entry preserves where it is read holds behind all items of a replay. -/
theorem state_replay_induction {P : State → Prop}
    (hadd : ∀ s d e, P s → s.read d = .ok e → P (s.add e)) (items : List Item) {c : Session}
    (h : P c.state) : P (replay items c).session.state := by
  induction items generalizing c with
  | nil => exact h
  | cons i items ih =>
    have happly : P (i.apply c).session.state := by
      obtain ⟨element, file, line⟩ := i
      cases element with
      | declaration d =>
        rw [Item.apply, Element.apply, State.declare]
        cases hread : c.state.read d with
        -- A refused declaration adds a diagnostic to the session and nothing to its state.
        | error fault => exact h
        | ok e => exact hadd c.state d e h hread
      | invalid fault => exact h
      | boundary obstacle =>
        rw [Item.state_apply_of_not_declaration (fun d hd ↦ by cases hd) c]
        exact h
    rw [replay_cons, Outcome.andThen]
    split
    · exact ih happly
    · exact happly

namespace Reachable

/-- A property of the empty state that every entry preserves where it is read holds of every
reachable state. -/
theorem state_induction {P : State → Prop} (hinitial : P State.initial)
    (hadd : ∀ s d e, P s → s.read d = .ok e → P (s.add e)) {c : Session} (h : Reachable c) :
    P c.state := by
  induction h with
  | initial => exact hinitial
  | call _ call ih =>
    rw [call.perform_eq_replay]
    exact state_replay_induction hadd call.items ih

end Reachable

/-! ### Between two lines

A line acts on the state behind the lines before it, in whatever file they stand. Such a state lies
in the middle of a call, and no call need end there. -/

/-- The states that collections pass through: those behind the first items of a call, in any number,
on a session that calls before it have led to. -/
inductive Visited : State → Prop
  | of_call {c : Session} (h : Reachable c) (call : Call) {before after : List Item}
      (hitems : call.items = before ++ after) : Visited (replay before c).session.state

/-- Calls begin where calls have ended. -/
theorem Reachable.visited {c : Session} (h : Reachable c) : Visited c.state := by
  have hitems : (Call.source (fun _ ↦ none) ⟨[], []⟩).items = [] ++ [] := rfl
  exact .of_call h _ hitems

/-- A property of the empty state that every entry preserves where it is read holds of every state
that collections pass through. -/
theorem Visited.induction {P : State → Prop} (hinitial : P State.initial)
    (hadd : ∀ s d e, P s → s.read d = .ok e → P (s.add e)) {s : State} (h : Visited s) : P s := by
  obtain ⟨hc, call, -⟩ := h
  exact state_replay_induction hadd _ (hc.state_induction hinitial hadd)

/-! ## Runs -/

namespace State

/-- The state after a list of entries. -/
def addAll (s : State) (es : List Entry) : State := es.foldl add s

@[simp] theorem addAll_nil (s : State) : s.addAll [] = s := rfl

@[simp] theorem addAll_cons (s : State) (e : Entry) (es : List Entry) :
    s.addAll (e :: es) = (s.add e).addAll es := rfl

theorem addAll_append (s : State) (es more : List Entry) :
    s.addAll (es ++ more) = (s.addAll es).addAll more := List.foldl_append

/-- Declarations are read as entries one after another, each in the state that the entries before
it lead to. -/
inductive Run : State → List Declaration → List Entry → Prop
  | nil (s : State) : Run s [] []
  | cons {s : State} {d : Declaration} {e : Entry} {ds : List Declaration} {es : List Entry}
      (h : s.read d = .ok e) (t : Run (s.add e) ds es) : Run s (d :: ds) (e :: es)

namespace Run

variable {s : State} {ds : List Declaration} {es : List Entry}

theorem length_eq (h : s.Run ds es) : es.length = ds.length := by
  induction h with
  | nil s => rfl
  | cons h t ih => rw [List.length_cons, List.length_cons, ih]

/-- Each declaration of a run is read as the entry at its place, behind the entries before it. -/
theorem read_eq (h : s.Run ds es) {i : Nat} {d : Declaration} {e : Entry} (hd : ds[i]? = some d)
    (he : es[i]? = some e) : (s.addAll (es.take i)).read d = .ok e := by
  induction h generalizing i with
  | nil s => cases hd
  | cons h t ih =>
    cases i with
    | zero =>
      cases hd
      cases he
      exact h
    | succ i => exact ih hd he

/-- A run over two lists is a run over the first and one over the second behind it. -/
theorem append_iff {more : List Declaration} :
    s.Run (ds ++ more) es ↔
      ∃ first rest, es = first ++ rest ∧ s.Run ds first ∧ (s.addAll first).Run more rest := by
  induction ds generalizing s es with
  | nil =>
    constructor
    · intro h
      exact ⟨[], es, rfl, .nil s, h⟩
    · rintro ⟨first, rest, rfl, hfirst, hrest⟩
      cases hfirst
      exact hrest
  | cons d ds ih =>
    constructor
    · intro h
      cases h with
      | cons hread t =>
        obtain ⟨first, rest, rfl, hfirst, hrest⟩ := ih.mp t
        exact ⟨_ :: first, rest, rfl, .cons hread hfirst, hrest⟩
    · rintro ⟨first, rest, rfl, hfirst, hrest⟩
      cases hfirst with
      | cons hread t => exact .cons hread (ih.mpr ⟨_, rest, rfl, t, hrest⟩)

end Run

end State

/-! ## Successful replays -/

namespace Element

/-- The declaration that an element is. -/
def declaration? : Element → Option Declaration
  | .declaration d => some d
  | _ => none

end Element

/-- The declarations among items, in order. -/
def declarationsOf (items : List Item) : List Declaration :=
  items.filterMap fun i ↦ i.element.declaration?

theorem success_andThen {o : Outcome} {next : Session → Outcome} :
    (o.andThen next).success = true ↔ o.success = true ∧ (next o.session).success = true := by
  rw [Outcome.andThen]
  split
  · rename_i h
    exact ⟨fun hnext ↦ ⟨h, hnext⟩, And.right⟩
  · rename_i h
    simp [h]

/-- A declaration that can be read adds its entry. -/
theorem Item.apply_declaration {c : Session} {d : Declaration} {e : Entry}
    (h : c.state.read d = .ok e) (file : Text) (line : Nat) :
    (⟨.declaration d, file, line⟩ : Item).apply c = c.accept (c.state.add e) := by
  rw [Item.apply, Element.apply, State.declare, h]
  rfl

/-- A declaration that is accepted can be read. -/
theorem Item.read_of_success_apply {c : Session} {d : Declaration} {file : Text} {line : Nat}
    (h : ((⟨.declaration d, file, line⟩ : Item).apply c).success = true) :
    ∃ e, c.state.read d = .ok e := by
  rw [Item.apply, Element.apply, State.declare] at h
  cases hread : c.state.read d with
  | error fault => rw [hread] at h; cases h
  | ok e => exact ⟨e, rfl⟩

/-- **Successful replays are runs.** The declarations among the items have been read one after
another, and the state is the one behind all their entries. -/
theorem run_of_success_replay {items : List Item} {c : Session}
    (h : (replay items c).success = true) :
    ∃ es, c.state.Run (declarationsOf items) es ∧
      (replay items c).session.state = c.state.addAll es := by
  induction items generalizing c with
  | nil => exact ⟨[], .nil c.state, rfl⟩
  | cons i items ih =>
    rw [replay_cons] at h ⊢
    obtain ⟨hi, hitems⟩ := success_andThen.mp h
    obtain ⟨es, hrun, hstate⟩ := ih hitems
    rw [Outcome.andThen, if_pos hi]
    obtain ⟨element, file, line⟩ := i
    cases element with
    | declaration d =>
      obtain ⟨e, hread⟩ := Item.read_of_success_apply hi
      rw [Item.apply_declaration hread] at hrun hstate ⊢
      exact ⟨e :: es, .cons hread hrun, hstate⟩
    | invalid fault => exact absurd hi (by simp [Item.apply, Element.apply, Session.refuse])
    | boundary obstacle =>
      -- The state is that of `c` again, so the run behind the boundary starts there.
      rw [Item.state_apply_of_not_declaration (fun d hd ↦ by cases hd) c] at hrun hstate
      exact ⟨es, hrun, hstate⟩

/-- Without boundaries, a replay succeeds exactly if no item is invalid and there is a run over the
declarations. -/
theorem success_replay_iff {items : List Item} {c : Session}
    (hboundary : ∀ i ∈ items, ∀ obstacle, i.element ≠ .boundary obstacle) :
    (replay items c).success = true ↔
      (∀ i ∈ items, ∀ fault, i.element ≠ .invalid fault) ∧
        ∃ es, c.state.Run (declarationsOf items) es := by
  induction items generalizing c with
  | nil => exact ⟨fun _ ↦ ⟨fun i hi ↦ absurd hi List.not_mem_nil, [], .nil c.state⟩, fun _ ↦ rfl⟩
  | cons i items ih =>
    have ih := fun c ↦ ih (c := c) fun j hj ↦ hboundary j (List.mem_cons_of_mem _ hj)
    rw [replay_cons, success_andThen, ih, List.forall_mem_cons]
    obtain ⟨element, file, line⟩ := i
    cases element with
    | declaration d =>
      constructor
      · rintro ⟨hi, hvalid, es, hrun⟩
        obtain ⟨e, hread⟩ := Item.read_of_success_apply hi
        rw [Item.apply_declaration hread] at hrun
        exact ⟨⟨fun fault hfault ↦ Element.noConfusion hfault, hvalid⟩, e :: es,
          .cons hread hrun⟩
      · rintro ⟨⟨-, hvalid⟩, es, hrun⟩
        cases hrun with
        | cons hread t =>
          rw [Item.apply_declaration hread]
          exact ⟨rfl, hvalid, _, t⟩
    | invalid fault =>
      constructor
      · rintro ⟨hi, -⟩
        exact absurd hi (by simp [Item.apply, Element.apply, Session.refuse])
      · rintro ⟨⟨hvalid, -⟩, -⟩
        exact absurd rfl (hvalid fault)
    | boundary obstacle => exact absurd rfl (hboundary _ List.mem_cons_self obstacle)

end NativeApi

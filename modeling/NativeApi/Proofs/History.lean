import NativeApi.Proofs.Reachable

/-!
# Histories

What a state holds is a matter of the declarations that have been accepted so far, over all calls
and in whatever files they stand. A call that fails has accepted the declarations before the item
that it stops at, and none behind it. Together, in the order in which they were accepted, they are
the history of a state (`ReachableBy`, `VisitedBy`).

A history is all that there is to a state: it has been read as one run from nothing, and the state
is the one behind that run (`VisitedBy.exists_run`).
-/

namespace NativeApi

/-! ## Accepted declarations -/

/-- The declarations among items that a session accepts. There are none behind the first item that
is refused. -/
def acceptedIn : List Item → Session → List Declaration
  | [], _ => []
  | i :: items, c =>
    if (i.apply c).success then
      i.element.declaration?.toList ++ acceptedIn items (i.apply c).session
    else []

/-- An item adds the entry of its declaration if it is accepted, and nothing otherwise. -/
theorem Item.run_apply (i : Item) (c : Session) :
    ∃ es, c.state.Run (if (i.apply c).success then i.element.declaration?.toList else []) es ∧
      (i.apply c).session.state = c.state.addAll es := by
  by_cases hd : ∃ d, i.element = .declaration d
  · obtain ⟨element, file, line⟩ := i
    obtain ⟨d, rfl⟩ := hd
    cases hread : c.state.read d with
    | error fault =>
      have happly : (⟨.declaration d, file, line⟩ : Item).apply c = c.refuse fault file line := by
        rw [apply, Element.apply, State.declare, hread]
        rfl
      rw [happly]
      exact ⟨[], .nil _, rfl⟩
    | ok e =>
      rw [Item.apply_declaration hread]
      exact ⟨[e], .cons hread (.nil _), rfl⟩
  · rw [not_exists] at hd
    have hnone : i.element.declaration? = none := by
      cases helement : i.element with
      | declaration d => exact absurd helement (hd d)
      | _ => rfl
    rw [hnone, Option.toList_none, ite_self]
    exact ⟨[], .nil _, i.state_apply_of_not_declaration hd c⟩

/-- **Replays are runs.** The accepted declarations have been read one after another, and the state
is the one behind all their entries, whether or not an item has been refused. -/
theorem run_acceptedIn (items : List Item) (c : Session) :
    ∃ es, c.state.Run (acceptedIn items c) es ∧
      (replay items c).session.state = c.state.addAll es := by
  induction items generalizing c with
  | nil => exact ⟨[], .nil c.state, rfl⟩
  | cons i items ih =>
    obtain ⟨es, hrun, hstate⟩ := i.run_apply c
    rw [acceptedIn, replay_cons, Outcome.andThen]
    by_cases hi : (i.apply c).success = true
    · obtain ⟨rest, hrest, hstate'⟩ := ih (i.apply c).session
      rw [hstate] at hrest hstate'
      rw [if_pos hi] at hrun
      rw [if_pos hi, if_pos hi, hstate', ← State.addAll_append]
      exact ⟨es ++ rest, State.Run.append_iff.mpr ⟨es, rest, rfl, hrun, hrest⟩, rfl⟩
    · rw [if_neg hi] at hrun
      rw [if_neg hi, if_neg hi]
      exact ⟨es, hrun, hstate⟩

/-! ## Histories of states -/

/-- Calls lead to the session, and these are the declarations that they have accepted. -/
inductive ReachableBy : List Declaration → Session → Prop
  | initial : ReachableBy [] Session.initial
  | call {ds : List Declaration} {c : Session} (h : ReachableBy ds c) (call : Call) :
      ReachableBy (ds ++ acceptedIn call.items c) (call.perform c).session

/-- Collections pass through the state, and these are the declarations that have been accepted
before it. -/
inductive VisitedBy : List Declaration → State → Prop
  | of_call {ds : List Declaration} {c : Session} (h : ReachableBy ds c) (call : Call)
      {before after : List Item} (hitems : call.items = before ++ after) :
      VisitedBy (ds ++ acceptedIn before c) (replay before c).session.state

theorem ReachableBy.reachable {ds : List Declaration} {c : Session} (h : ReachableBy ds c) :
    Reachable c := by
  induction h with
  | initial => exact .initial
  | call _ call ih => exact ih.call call

theorem Reachable.exists_history {c : Session} (h : Reachable c) : ∃ ds, ReachableBy ds c := by
  induction h with
  | initial => exact ⟨[], .initial⟩
  | call _ call ih =>
    obtain ⟨ds, hds⟩ := ih
    exact ⟨_, hds.call call⟩

/-- Calls begin where calls have ended. -/
theorem ReachableBy.visited {ds : List Declaration} {c : Session} (h : ReachableBy ds c) :
    VisitedBy ds c.state := by
  have hitems : (Call.source (fun _ ↦ none) ⟨[], []⟩).items = [] ++ [] := rfl
  have hvisited := VisitedBy.of_call h _ hitems
  rwa [acceptedIn, List.append_nil] at hvisited

theorem VisitedBy.visited {ds : List Declaration} {s : State} (h : VisitedBy ds s) : Visited s := by
  obtain ⟨hc, call, hitems⟩ := h
  exact .of_call hc.reachable call hitems

/-- Every state that collections pass through has a history. -/
theorem Visited.exists_history {s : State} (h : Visited s) : ∃ ds, VisitedBy ds s := by
  obtain ⟨hc, call, hitems⟩ := h
  obtain ⟨ds, hds⟩ := hc.exists_history
  exact ⟨_, .of_call hds call hitems⟩

/-- A run goes on with the accepted declarations of more items. -/
theorem State.Run.append_acceptedIn {ds : List Declaration} {es : List Entry} {c : Session}
    (h : initial.Run ds es) (hc : c.state = initial.addAll es) (items : List Item) :
    ∃ more, initial.Run (ds ++ acceptedIn items c) more ∧
      (replay items c).session.state = initial.addAll more := by
  obtain ⟨rest, hrest, hstate⟩ := run_acceptedIn items c
  rw [hc] at hrest hstate
  refine ⟨es ++ rest, append_iff.mpr ⟨es, rest, rfl, h, hrest⟩, ?_⟩
  rw [hstate, addAll_append]

theorem ReachableBy.exists_run {ds : List Declaration} {c : Session} (h : ReachableBy ds c) :
    ∃ es, State.initial.Run ds es ∧ c.state = State.initial.addAll es := by
  induction h with
  | initial => exact ⟨[], .nil _, rfl⟩
  | call _ call ih =>
    obtain ⟨es, hrun, hstate⟩ := ih
    rw [call.perform_eq_replay]
    exact hrun.append_acceptedIn hstate call.items

/-- **Histories are runs.** The declarations of a history have been read one after another from
nothing on, and the state is the one behind their entries. -/
theorem VisitedBy.exists_run {ds : List Declaration} {s : State} (h : VisitedBy ds s) :
    ∃ es, State.initial.Run ds es ∧ s = State.initial.addAll es := by
  obtain ⟨hc, call, -⟩ := h
  obtain ⟨es, hrun, hstate⟩ := hc.exists_run
  exact hrun.append_acceptedIn hstate _

end NativeApi

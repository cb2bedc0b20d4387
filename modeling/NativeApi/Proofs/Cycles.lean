import Mathlib.Logic.Relation
import NativeApi.Proofs.Refusal

/-!
# Cycles of includes

Which files include which is a matter of their contents alone (`Includes`): an include line is
resolved against the file that it stands in, and neither what has been declared nor how the file has
been reached matters to it. If a file includes itself, directly or through others, its expansion
never ends by itself. What ends it is the limit, and it leaves an obstacle in the expansion, or an
unreadable file has left one before (`exists_obstacle_of_cycle`).

An expansion with an obstacle is not replayed to its end. So no source from which a cycle is reached
is ever collected with success.
-/

namespace NativeApi

/-! ## The graph of includes -/

/-- A source has an include line that names another one. -/
def Includes (read : Text → Option Text) (source inner : Source) : Prop :=
  ∃ raw ∈ source.lines, ∃ path content, (Line.ofText raw).target? = some path ∧
    read (Path.resolve source.path path) = some content ∧
    inner = Source.ofContent (Path.resolve source.path path) content

/-! ## Expansions of include lines -/

theorem mem_expandLines (included : Nat → Text → List Item) (file : Text) (number : Nat)
    {lines : List Text} {raw : Text} (hraw : raw ∈ lines) :
    ∃ k, ∀ i ∈ expandLine included file k raw, i ∈ expandLines included file number lines := by
  induction lines generalizing number with
  | nil => cases hraw
  | cons first rest ih =>
    rcases List.mem_cons.mp hraw with rfl | hrest
    · exact ⟨number, fun i hi ↦ List.mem_append_left _ hi⟩
    · obtain ⟨k, hk⟩ := ih (number + 1) hrest
      exact ⟨k, fun i hi ↦ List.mem_append_right _ (hk i hi)⟩

theorem expandLine_of_target? {included : Nat → Text → List Item} {file raw path : Text}
    {number : Nat} (h : (Line.ofText raw).target? = some path) :
    expandLine included file number raw = included number path := by
  rw [expandLine]
  cases hline : Line.ofText raw with
  | blank => rw [hline] at h; cases h
  | unknown word => rw [hline] at h; cases h
  | command k =>
    rw [hline, Line.target?] at h
    split at h
    · rename_i target hstatement
      cases h
      simp only [hstatement]
    · cases h

/-- An include line whose file is not opened. -/
def Item.IsObstacle (i : Item) : Prop := ∃ fault, i.element = .boundary (some fault)

section Expansion

variable {read : Text → Option Text} {source inner : Source}

/-- At the limit an include line is an obstacle. -/
theorem Includes.exists_obstacle (h : Includes read source inner) :
    ∃ i ∈ expand read 0 source, i.IsObstacle := by
  obtain ⟨raw, hraw, path, -, htarget, -⟩ := h
  rw [expand]
  obtain ⟨k, hk⟩ := mem_expandLines
    (fun number path ↦ [⟨.boundary (some (.includeDepth path)), source.path, number⟩]) source.path 1
    hraw
  rw [expandLine_of_target? htarget] at hk
  exact ⟨_, hk _ List.mem_cons_self, _, rfl⟩

/-- Before the limit the items of an included source are among those of the including one. -/
theorem Includes.mem_expand (h : Includes read source inner) {levels : Nat} {i : Item}
    (hi : i ∈ expand read levels inner) : i ∈ expand read (levels + 1) source := by
  obtain ⟨raw, hraw, path, content, htarget, hread, rfl⟩ := h
  rw [expand]
  obtain ⟨k, hk⟩ := mem_expandLines _ source.path 1 hraw
  refine hk i ?_
  rw [expandLine_of_target? htarget]
  simp only [hread]
  exact List.mem_cons_of_mem _ hi

/-- However many includes may be opened, a source from which a cycle is reached leads to an
obstacle. -/
theorem exists_obstacle_of_cycle (hcycle : Relation.TransGen (Includes read) inner inner)
    (levels : Nat) (h : Relation.TransGen (Includes read) source inner) :
    ∃ i ∈ expand read levels source, i.IsObstacle := by
  -- Each source before the cycle or on it includes another such source, so there is always an
  -- include line for the next level.
  induction levels generalizing source with
  | zero =>
    obtain ⟨next, hnext, -⟩ := Relation.TransGen.head'_iff.mp h
    exact hnext.exists_obstacle
  | succ levels ih =>
    obtain ⟨next, hnext, hrest⟩ := Relation.TransGen.head'_iff.mp h
    have hinner : Relation.TransGen (Includes read) next inner := .trans_right hrest hcycle
    obtain ⟨i, hi, hobstacle⟩ := ih hinner
    exact ⟨i, hnext.mem_expand hi, hobstacle⟩

end Expansion

/-! ## Replays with obstacles -/

theorem success_apply_of_success_replay {items : List Item} {c : Session}
    (h : (replay items c).success = true) {i : Item} (hi : i ∈ items) :
    ∃ d, (i.apply d).success = true := by
  induction items generalizing c with
  | nil => cases hi
  | cons first rest ih =>
    rw [replay_cons] at h
    obtain ⟨hfirst, hrest⟩ := success_andThen.mp h
    rcases List.mem_cons.mp hi with rfl | hi
    · exact ⟨c, hfirst⟩
    · exact ih hrest hi

theorem Item.IsObstacle.not_success {i : Item} (h : i.IsObstacle) (c : Session) :
    (i.apply c).success = false := by
  obtain ⟨fault, hfault⟩ := h
  rw [Item.apply, hfault, Element.apply]
  cases c.state.requireHeader .inclusion <;> rfl

/-- **Cycles never succeed.** Collecting a source from which a cycle of includes is reached fails,
whatever has been declared and however many includes may be opened. -/
theorem not_success_of_cycle {read : Text → Option Text} {source inner : Source}
    (h : Relation.ReflTransGen (Includes read) source inner)
    (hcycle : Relation.TransGen (Includes read) inner inner) (levels : Nat) (c : Session) :
    (collectWithin read levels source c).success = false := by
  obtain ⟨i, hi, hobstacle⟩ := exists_obstacle_of_cycle hcycle levels (.trans_right h hcycle)
  rw [Bool.eq_false_iff, collectWithin_eq_replay]
  intro hsuccess
  obtain ⟨d, hd⟩ := success_apply_of_success_replay hsuccess hi
  rw [hobstacle.not_success d] at hd
  cases hd

end NativeApi

import Mathlib.Data.List.Nodup
import NativeApi.Proofs.Position
import NativeApi.Proofs.Reachable

/-!
# Enumerations

Two kinds of entries change the list of enumerations, and each in one way: a new enumeration goes to
the end of the list, and a variant goes to the end of the enumeration in the slot
(`State.enumerations_add_cases`). So an enumeration keeps its position, its name and its base type,
whatever is declared after it, and the variants that it has.

An enumeration is refused if its name is taken. Names are therefore pairwise distinct, and looking
up a name gives the one enumeration that has it (`Model.findEnumeration?_eq_some_iff`).
-/

namespace NativeApi

/-! ## Lookup -/

namespace Model

variable {m : Model}

theorem findEnumeration?_eq_none_iff {name : Text} :
    m.findEnumeration? name = none ↔ name ∉ m.enumerations.map (·.name) := by
  rw [findEnumeration?, List.find?_eq_none, List.mem_map, not_exists]
  simp only [beq_iff_eq, not_and]

theorem mem_of_findEnumeration? {name : Text} {e : Enumeration}
    (h : m.findEnumeration? name = some e) : e ∈ m.enumerations ∧ e.name = name := by
  have hname := List.find?_some h
  exact ⟨List.mem_of_find?_eq_some h, beq_iff_eq.mp hname⟩

/-- Where names are distinct, a name is that of at most one enumeration, and lookup finds it. -/
theorem findEnumeration?_eq_some_iff (hnodup : (m.enumerations.map (·.name)).Nodup) {name : Text}
    {e : Enumeration} : m.findEnumeration? name = some e ↔ e ∈ m.enumerations ∧ e.name = name := by
  constructor
  · exact mem_of_findEnumeration?
  · rintro ⟨he, rfl⟩
    cases hfind : m.findEnumeration? e.name with
    | none =>
      rw [findEnumeration?_eq_none_iff] at hfind
      exact absurd (List.mem_map_of_mem he) hfind
    | some f =>
      obtain ⟨hf, hname⟩ := mem_of_findEnumeration? hfind
      rw [List.inj_on_of_nodup_map hnodup hf he hname]

end Model

/-! ## Changes -/

namespace Enumeration

/-- The same enumeration later: it may have got more variants. -/
structure Extends (e later : Enumeration) : Prop where
  name : later.name = e.name
  base : later.base = e.base
  variants : e.variants <+: later.variants

theorem Extends.refl (e : Enumeration) : e.Extends e := ⟨rfl, rfl, List.prefix_rfl⟩

theorem Extends.addVariant {e later : Enumeration} (h : e.Extends later) (v : Variant) :
    e.Extends (later.addVariant v) :=
  ⟨h.name, h.base, h.variants.trans (List.prefix_append _ _)⟩

end Enumeration

namespace State

variable {s : State} {e : Entry}

/-- What an entry can do to the list of enumerations. -/
theorem enumerations_add_cases (s : State) (e : Entry) :
    (∃ name base flags, e = .enumeration name base flags ∧
      (s.add e).model.enumerations = s.model.enumerations ++ [⟨name, base, flags, []⟩]) ∨
    (∃ v i, e = .variant v ∧ s.scope.enumeration = some i ∧
      (s.add e).model.enumerations = s.model.enumerations.modify i (Enumeration.addVariant v)) ∨
    (s.add e).model.enumerations = s.model.enumerations := by
  cases e with
  | enumeration name base flags => exact .inl ⟨name, base, flags, rfl, rfl⟩
  | variant v =>
    cases hslot : s.scope.enumeration with
    | none => exact .inr (.inr (by simp only [add, hslot]))
    | some i => exact .inr (.inl ⟨v, i, rfl, rfl, by simp only [add, hslot]; rfl⟩)
  | argument a =>
    refine .inr (.inr ?_)
    simp only [add]
    split
    · rfl
    · exact Model.enumerations_addArgument _ _ _
  | _ =>
    refine .inr (.inr ?_)
    simp only [add]
    try split
    all_goals rfl

/-- An enumeration stays at its position. -/
theorem exists_extends_add {i : Nat} {d later : Enumeration} (hd : d.Extends later)
    (h : s.model.enumerations[i]? = some later) :
    ∃ f, (s.add e).model.enumerations[i]? = some f ∧ d.Extends f := by
  rcases s.enumerations_add_cases e with ⟨name, base, flags, -, heq⟩ | ⟨v, j, -, -, heq⟩ | heq
  · have hlt : i < s.model.enumerations.length := (List.getElem?_eq_some_iff.mp h).1
    rw [heq, List.getElem?_append_left hlt]
    exact ⟨later, h, hd⟩
  · rw [heq, List.getElem?_modify, h, Option.map_eq_map, Option.map_some]
    split
    · exact ⟨_, rfl, hd.addVariant v⟩
    · exact ⟨_, rfl, hd⟩
  · rw [heq]
    exact ⟨later, h, hd⟩

end State

/-- Enumerations stay through any items, accepted or refused. -/
theorem exists_extends_replay (items : List Item) {c : Session} {i : Nat} {d : Enumeration}
    (h : c.state.model.enumerations[i]? = some d) :
    ∃ f, (replay items c).session.state.model.enumerations[i]? = some f ∧ d.Extends f := by
  refine state_replay_induction
    (P := fun s ↦ ∃ f, s.model.enumerations[i]? = some f ∧ d.Extends f) ?_ items ⟨d, h, .refl d⟩
  rintro s - e ⟨later, hlater, hd⟩ -
  exact State.exists_extends_add hd hlater

/-! ## The invariant -/

namespace Model

/-- Names of enumerations are distinct, and their base types are mentioned without stars. -/
structure EnumerationsValid (m : Model) : Prop where
  nodup : (m.enumerations.map (·.name)).Nodup
  base : ∀ e ∈ m.enumerations, e.base = .named e.base.name

end Model

theorem State.enumerationsValid_add {s : State} {d : Declaration} {e : Entry}
    (hs : s.model.EnumerationsValid) (h : s.read d = .ok e) :
    (s.add e).model.EnumerationsValid := by
  have hreads := (State.read_eq_ok.mp h).1
  have hadmits := (State.read_eq_ok.mp h).2
  rcases s.enumerations_add_cases e with ⟨name, base, flags, rfl, heq⟩ | ⟨v, i, -, -, heq⟩ | heq
  · constructor
    · -- The new name is none of the old ones, or the enumeration would not have been read.
      have hnew : name ∉ s.model.enumerations.map (·.name) :=
        Model.findEnumeration?_eq_none_iff.mp hadmits.2
      rw [heq, List.map_append, List.map_singleton, List.nodup_append_comm]
      exact List.nodup_cons.mpr ⟨hnew, hs.nodup⟩
    · rw [heq, List.forall_mem_append, List.forall_mem_singleton]
      refine ⟨hs.base, ?_⟩
      cases hreads
      rfl
  · constructor
    · have hnames : (s.add e).model.enumerations.map (·.name)
          = s.model.enumerations.map (·.name) :=
        heq ▸ map_modify_of_eq (Enumeration.addVariant v) (·.name) (fun _ ↦ rfl) i
      rw [hnames]
      exact hs.nodup
    · intro b hb
      rw [heq] at hb
      rcases mem_modify hb with hb | ⟨a, ha, rfl⟩
      · exact hs.base b hb
      · exact hs.base a ha
  · exact ⟨heq ▸ hs.nodup, heq ▸ hs.base⟩

theorem Visited.enumerationsValid {s : State} (h : Visited s) : s.model.EnumerationsValid :=
  h.induction (P := fun s ↦ s.model.EnumerationsValid)
    ⟨List.nodup_nil, fun _ he ↦ absurd he List.not_mem_nil⟩
    fun _ _ _ hs hread ↦ State.enumerationsValid_add hs hread

end NativeApi

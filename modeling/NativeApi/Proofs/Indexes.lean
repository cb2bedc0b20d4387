import NativeApi.Collection.Indexed
import NativeApi.Proofs.Enumerations
import NativeApi.Proofs.Slots

/-!
# Name indexes are exact

An index and its list are filled by separate steps, and the step of the index does nothing where the
name is there already. So the two stay in step only as long as no name comes twice, and that no name
comes twice is checked in the index. Neither fact can be had without the other. What carries both is
that an index is exact (`Indexes`): it gives a position for a name if and only if the name stands
there.

Where all indexes are exact, they answer as the lists do, so reading from indexes is reading from
lists (`NameIndexes.read_eq`), and an entry that has been read keeps them exact. A collection with
indexes therefore goes as the one without (`replayIndexed_agrees`).
-/

namespace NativeApi

/-! ## One index -/

/-- An index gives a position for a name exactly if the name stands there. -/
def Indexes (index : NameIndex) (names : List Text) : Prop :=
  ∀ (name : Text) (i : Nat), index[name]? = some i ↔ names[i]? = some name

theorem getElem?_append_singleton_eq_some_iff {α : Type} {l : List α} {a b : α} {i : Nat} :
    (l ++ [a])[i]? = some b ↔ l[i]? = some b ∨ i = l.length ∧ a = b := by
  rw [List.getElem?_append]
  split
  · rename_i h
    simp [Nat.ne_of_lt h]
  · rename_i h
    rw [List.getElem?_singleton, List.getElem?_eq_none (Nat.le_of_not_lt h)]
    have hzero : i - l.length = 0 ↔ i = l.length := by omega
    simp [hzero]

namespace Indexes

variable {index : NameIndex} {names : List Text} {name : Text}

theorem empty : Indexes ∅ [] := by
  intro name i
  rw [Std.HashMap.getElem?_empty, List.getElem?_nil]
  exact iff_of_false nofun nofun

theorem getElem?_eq_none_iff (h : Indexes index names) : index[name]? = none ↔ name ∉ names := by
  constructor
  · intro hnone hmem
    obtain ⟨i, hi⟩ := List.mem_iff_getElem?.mp hmem
    rw [(h name i).mpr hi] at hnone
    cases hnone
  · intro hmem
    by_contra hsome
    obtain ⟨i, hi⟩ := Option.ne_none_iff_exists'.mp hsome
    exact hmem (List.mem_of_getElem? ((h name i).mp hi))

theorem contains_iff (h : Indexes index names) : index.contains name = true ↔ name ∈ names := by
  rw [Std.HashMap.contains_eq_isSome_getElem?, ← Option.ne_none_iff_isSome, ne_eq,
    h.getElem?_eq_none_iff, not_not]

/-- A name cannot have two positions in an index, so it has not two in the list. -/
theorem nodup (h : Indexes index names) : names.Nodup := by
  rw [List.nodup_iff_getElem?_ne_getElem?]
  intro i j hij hj heq
  have hname : names[j]? = some names[j] := List.getElem?_eq_getElem hj
  have hi : index[names[j]]? = some i := (h _ i).mpr (heq.trans hname)
  have hj : index[names[j]]? = some j := (h _ j).mpr hname
  exact (Nat.ne_of_lt hij) (Option.some.inj (hi.symm.trans hj))

/-- A new name goes to the end of the list and to that position in the index. -/
theorem insertIfNew (h : Indexes index names) (hnew : name ∉ names) :
    Indexes (index.insertIfNew name names.length) (names ++ [name]) := by
  have habsent : ¬name ∈ index := by
    rwa [← Std.HashMap.contains_iff_mem, h.contains_iff]
  intro other i
  rw [Std.HashMap.getElem?_insertIfNew, getElem?_append_singleton_eq_some_iff, ← h other i]
  by_cases hother : name = other
  · subst hother
    have hnone : index[name]? = none := h.getElem?_eq_none_iff.mpr hnew
    rw [if_pos ⟨beq_self_eq_true name, habsent⟩, hnone, Option.some.injEq, eq_comm]
    simp
  · have hne : ¬((name == other) = true ∧ ¬name ∈ index) :=
      fun hand ↦ hother (beq_iff_eq.mp hand.1)
    rw [if_neg hne]
    simp [hother]

end Indexes

/-! ## The indexes of a model -/

/-- A variant is checked against the names of the others, and for the rest as if there were none. -/
theorem State.readVariantOf_eq (s : State) (e : Enumeration) (name value : Text) :
    s.readVariantOf e name value =
      if e.hasVariant name then .error (.duplicateVariant name e.name)
      else s.readVariantOf { e with variants := [] } name value := by
  rw [State.readVariantOf]
  split
  · rfl
  · rfl

namespace NameIndexes

/-- Every index is exact: that of the enumerations, and those of the variants, of which there is one
for each enumeration. -/
structure Exact (names : NameIndexes) (m : Model) : Prop where
  enumerations : Indexes names.enumerations (m.enumerations.map (·.name))
  length : names.variants.length = m.enumerations.length
  variants : ∀ (i : Nat) (index : NameIndex) (e : Enumeration), names.variants[i]? = some index →
    m.enumerations[i]? = some e → Indexes index (e.variants.map (·.name))

theorem exact_empty : empty.Exact Model.empty where
  enumerations := Indexes.empty
  length := rfl
  variants _ _ _ _ := nofun

namespace Exact

variable {names : NameIndexes} {m : Model} (h : names.Exact m)
include h

/-- Every enumeration has an index. -/
theorem exists_index {i : Nat} {e : Enumeration} (he : m.enumerations[i]? = some e) :
    ∃ index, names.variants[i]? = some index ∧ Indexes index (e.variants.map (·.name)) := by
  have hlt : i < names.variants.length := h.length ▸ (List.getElem?_eq_some_iff.mp he).1
  have hindex : names.variants[i]? = some names.variants[i] := List.getElem?_eq_getElem hlt
  exact ⟨_, hindex, h.variants i _ e hindex he⟩

/-! ### Lookup -/

theorem findEnumeration?_eq_some_iff {name : Text} {e : Enumeration} :
    names.findEnumeration? m name = some e ↔ e ∈ m.enumerations ∧ e.name = name := by
  rw [findEnumeration?, Option.bind_eq_some_iff]
  constructor
  · rintro ⟨i, hi, he⟩
    have hname := (h.enumerations name i).mp hi
    rw [List.getElem?_map, he, Option.map_some, Option.some.injEq] at hname
    exact ⟨List.mem_of_getElem? he, hname⟩
  · rintro ⟨he, rfl⟩
    obtain ⟨i, hi⟩ := List.mem_iff_getElem?.mp he
    refine ⟨i, (h.enumerations e.name i).mpr ?_, hi⟩
    rw [List.getElem?_map, hi, Option.map_some]

theorem findEnumeration?_eq : names.findEnumeration? m = m.findEnumeration? := by
  funext name
  apply Option.ext
  intro e
  rw [h.findEnumeration?_eq_some_iff, m.findEnumeration?_eq_some_iff h.enumerations.nodup]

theorem hasVariant_iff {i : Nat} {e : Enumeration} (he : m.enumerations[i]? = some e)
    {name : Text} : names.hasVariant i name = true ↔ name ∈ e.variants.map (·.name) := by
  obtain ⟨index, hindex, hexact⟩ := h.exists_index he
  rw [hasVariant, hindex, Option.any_some, hexact.contains_iff]

theorem hasVariant_eq {i : Nat} {e : Enumeration} (he : m.enumerations[i]? = some e) :
    names.hasVariant i = e.hasVariant := by
  funext name
  rw [Bool.eq_iff_iff, h.hasVariant_iff he, Enumeration.hasVariant, List.any_eq_true, List.mem_map]
  simp only [beq_iff_eq]

end Exact

/-! ### Reading -/

section Read

variable {names : NameIndexes} {s : State} (h : names.Exact s.model)
include h

theorem reference_eq : names.reference s = s.reference := by
  funext name depth
  rw [reference, State.reference, enrich, Model.enrich, h.findEnumeration?_eq]
  cases s.model.findEnumeration? (s.model.baseIlType name) with
  | none => rfl
  | some e => rfl

theorem readEnumeration_eq : names.readEnumeration s = s.readEnumeration := by
  funext keyword flags name base
  rw [readEnumeration, State.readEnumeration, h.findEnumeration?_eq]

theorem readVariant_eq : names.readVariant s = s.readVariant := by
  funext name value
  rw [readVariant, State.readVariant]
  cases s.requireHeader .variant with
  | error fault => rfl
  | ok header =>
    cases hscope : s.scope.enumeration with
    | none => rfl
    | some i =>
      cases he : s.model.enumerations[i]? with
      | none => simp [requireContext, bind, Except.bind, he]
      | some e =>
        simp only [requireContext, he, bind, Except.bind, h.hasVariant_eq he,
          s.readVariantOf_eq e]
        split <;> rfl

/-- **Reading from indexes.** Where the indexes are exact, declarations are read in them as in the
lists. -/
theorem read_eq (d : Declaration) : names.read s d = s.read d := by
  have hreference := reference_eq h
  cases d with
  | functionPointer name type depth code =>
    simp only [read, readFunctionPointer, State.read, State.readFunctionPointer, hreference]
  | function name type depth convention =>
    simp only [read, readFunction, State.read, State.readFunction, hreference]
  | argument optional direction name type depth attributes =>
    simp only [read, readArgument, State.read, State.readArgument, hreference]
  | method name type depth =>
    simp only [read, readMethod, State.read, State.readMethod, hreference]
  | enumeration flags name base => simp only [read, State.read, readEnumeration_eq h]
  | variant name value => simp only [read, State.read, readVariant_eq h]
  | field name type depth =>
    simp only [read, readField, State.read, State.readField, hreference]
  | _ => rfl

end Read

/-! ### Additions -/

namespace Exact

variable {names : NameIndexes} {m : Model} (h : names.Exact m)
include h

theorem of_enumerations_eq {n : Model} (heq : n.enumerations = m.enumerations) :
    names.Exact n where
  enumerations := heq ▸ h.enumerations
  length := heq ▸ h.length
  variants i index e hindex he := h.variants i index e hindex (heq ▸ he)

theorem addEnumeration {n : Model} {e : Enumeration} (hn : n.enumerations = m.enumerations ++ [e])
    (hvariants : e.variants = []) (hnew : e.name ∉ m.enumerations.map (·.name)) :
    (names.addEnumeration e.name m.enumerations.length).Exact n where
  enumerations := by
    have hexact := h.enumerations.insertIfNew hnew
    rw [List.length_map] at hexact
    rw [hn, List.map_append, List.map_singleton]
    exact hexact
  length := by
    rw [hn, NameIndexes.addEnumeration, List.length_append, List.length_append, h.length]
    rfl
  variants i index d hindex hd := by
    rw [hn, getElem?_append_singleton_eq_some_iff] at hd
    rw [NameIndexes.addEnumeration, getElem?_append_singleton_eq_some_iff, h.length] at hindex
    rcases hindex with hindex | ⟨rfl, rfl⟩
    · rcases hd with hd | ⟨rfl, rfl⟩
      · exact h.variants i index d hindex hd
      · rw [List.getElem?_eq_none (Nat.le_of_eq h.length)] at hindex
        cases hindex
    · rcases hd with hd | ⟨-, rfl⟩
      · rw [List.getElem?_eq_none (Nat.le_refl _)] at hd
        cases hd
      · rw [hvariants]
        exact Indexes.empty

theorem addVariant {i : Nat} {e : Enumeration} {v : Variant} (he : m.enumerations[i]? = some e)
    (hnew : e.hasVariant v.name = false) :
    (names.addVariant i v.name e.variants.length).Exact (m.addVariant i v) where
  enumerations := by
    rw [m.enumerationNames_addVariant]
    exact h.enumerations
  length := by
    rw [NameIndexes.addVariant, Model.addVariant, List.length_modify, List.length_modify, h.length]
  variants j index d hindex hd := by
    rw [NameIndexes.addVariant, List.getElem?_modify] at hindex
    rw [Model.addVariant, List.getElem?_modify] at hd
    obtain ⟨old, hold, rfl⟩ := Option.map_eq_some_iff.mp hindex
    obtain ⟨b, hb, rfl⟩ := Option.map_eq_some_iff.mp hd
    have hexact := h.variants j old b hold hb
    by_cases hij : i = j
    · subst hij
      obtain rfl : e = b := Option.some.inj (he.symm.trans hb)
      have hname : v.name ∉ e.variants.map (·.name) := by
        rw [← h.hasVariant_iff he, h.hasVariant_eq he, hnew]
        exact Bool.false_ne_true
      have hmore := hexact.insertIfNew hname
      rw [List.length_map] at hmore
      rw [if_pos rfl, if_pos rfl, Enumeration.addVariant, List.map_append, List.map_singleton]
      exact hmore
    · rw [if_neg hij, if_neg hij]
      exact hexact

end Exact

/-- An entry that has been read keeps the indexes exact. -/
theorem Exact.add {names : NameIndexes} {s : State} {e : Entry} (h : names.Exact s.model)
    (ha : s.Admits e) : (names.add s e).Exact (s.add e).model := by
  have hcases := s.enumerations_add_cases e
  cases e with
  | enumeration name base flags =>
    exact h.addEnumeration (e := ⟨name, base, flags, []⟩) rfl rfl
      (Model.findEnumeration?_eq_none_iff.mp ha.2)
  | variant v =>
    obtain ⟨-, e, he, hnew, -⟩ := ha
    obtain ⟨i, hscope, hi⟩ := Option.bind_eq_some_iff.mp he
    simp only [NameIndexes.add, State.add, hscope, hi, Option.map_some, Option.getD_some]
    exact h.addVariant hi hnew
  | _ =>
    rcases hcases with ⟨_, _, _, he, -⟩ | ⟨_, _, he, -⟩ | heq
    · cases he
    · cases he
    · exact h.of_enumerations_eq heq

end NameIndexes

/-! ## Collections with indexes -/

/-- A session with the indexes of its model. -/
structure IndexedSession where
  session : Session
  names : NameIndexes

namespace IndexedSession

def initial : IndexedSession := ⟨Session.initial, NameIndexes.empty⟩

/-- Reads a declaration in the indexes. -/
def read (c : IndexedSession) (d : Declaration) : Except Fault Entry :=
  c.names.read c.session.state d

/-- The session with one more entry, in the lists and in the indexes. -/
def accept (c : IndexedSession) (e : Entry) : IndexedSession :=
  ⟨(c.session.accept (c.session.state.add e)).session, c.names.add c.session.state e⟩

def Exact (c : IndexedSession) : Prop := c.names.Exact c.session.state.model

end IndexedSession

namespace Item

/-- The effect of an item, and whether it is accepted. Only declarations look at the indexes. -/
def applyIndexed (i : Item) (c : IndexedSession) : IndexedSession × Bool :=
  match i.element with
  | .declaration d =>
    match c.read d with
    | .ok e => (c.accept e, true)
    | .error fault => (⟨(c.session.refuse fault i.file i.line).session, c.names⟩, false)
  | _ => (⟨(i.apply c.session).session, c.names⟩, (i.apply c.session).success)

end Item

/-- The effect of items up to the first one that is refused. -/
def replayIndexed : List Item → IndexedSession → IndexedSession × Bool
  | [], c => (c, true)
  | i :: items, c =>
    match i.applyIndexed c with
    | (d, true) => replayIndexed items d
    | (d, false) => (d, false)

/-- Two ways to collect agree: they leave the same session and both succeed or both fail, and the
indexes that one of them has kept are exact. -/
structure Agrees (indexed : IndexedSession × Bool) (o : Outcome) : Prop where
  session : indexed.1.session = o.session
  success : indexed.2 = o.success
  exact : indexed.1.Exact

theorem Item.applyIndexed_agrees (i : Item) {c : IndexedSession} (h : c.Exact) :
    Agrees (i.applyIndexed c) (i.apply c.session) := by
  obtain ⟨element, file, line⟩ := i
  cases element with
  | declaration d =>
    have heq : c.read d = c.session.state.read d := NameIndexes.read_eq h d
    simp only [applyIndexed, heq, Item.apply, Element.apply, State.declare]
    cases hread : c.session.state.read d with
    | error fault => exact ⟨rfl, rfl, h⟩
    | ok e => exact ⟨rfl, rfl, h.add (State.read_eq_ok.mp hread).2⟩
  | invalid fault => exact ⟨rfl, rfl, h⟩
  | boundary obstacle =>
    refine ⟨rfl, rfl, ?_⟩
    have hstate := Item.state_apply_of_not_declaration (i := ⟨.boundary obstacle, file, line⟩)
      (fun d hd ↦ by cases hd) c.session
    rw [applyIndexed, IndexedSession.Exact, hstate]
    exact h

/-- **Collecting with indexes.** From exact indexes on, items act as they do without indexes. -/
theorem replayIndexed_agrees (items : List Item) {c : IndexedSession} (h : c.Exact) :
    Agrees (replayIndexed items c) (replay items c.session) := by
  induction items generalizing c with
  | nil => exact ⟨rfl, rfl, h⟩
  | cons i items ih =>
    have hagrees := i.applyIndexed_agrees h
    rw [replayIndexed, replay_cons, Outcome.andThen]
    generalize i.applyIndexed c = next at hagrees ⊢
    obtain ⟨d, accepted⟩ := next
    obtain ⟨hsession, hsuccess, hexact⟩ := hagrees
    rw [← hsuccess, ← hsession]
    cases accepted with
    | true => exact ih hexact
    | false => exact ⟨hsession, hsuccess, hexact⟩

/-! ### Sessions that arise -/

/-- The sessions that calls lead to, whether they succeed or fail. -/
inductive IndexedReachable : IndexedSession → Prop
  | initial : IndexedReachable IndexedSession.initial
  | call {c : IndexedSession} (h : IndexedReachable c) (call : Call) :
      IndexedReachable (replayIndexed call.items c).1

/-- The sessions that calls pass through, behind any number of items of a call. -/
inductive IndexedVisited : IndexedSession → Prop
  | of_call {c : IndexedSession} (h : IndexedReachable c) (call : Call) {before after : List Item}
      (hitems : call.items = before ++ after) : IndexedVisited (replayIndexed before c).1

theorem IndexedReachable.reachable_exact {c : IndexedSession} (h : IndexedReachable c) :
    Reachable c.session ∧ c.Exact := by
  induction h with
  | initial => exact ⟨.initial, NameIndexes.exact_empty⟩
  | call _ call ih =>
    obtain ⟨hsession, -, hexact⟩ := replayIndexed_agrees call.items ih.2
    refine ⟨?_, hexact⟩
    rw [hsession, ← call.perform_eq_replay]
    exact ih.1.call call

/-- Collecting with indexes passes through the states that collections pass through. -/
theorem IndexedVisited.visited_exact {c : IndexedSession} (h : IndexedVisited c) :
    Visited c.session.state ∧ c.Exact := by
  obtain ⟨hc, call, hitems⟩ := h
  obtain ⟨hreachable, hexact⟩ := hc.reachable_exact
  obtain ⟨hsession, -, hbehind⟩ := replayIndexed_agrees _ hexact
  refine ⟨?_, hbehind⟩
  rw [hsession]
  exact .of_call hreachable call hitems

/-- Calls begin where calls have ended. -/
theorem IndexedReachable.visited {c : IndexedSession} (h : IndexedReachable c) :
    IndexedVisited c := by
  have hitems : (Call.source (fun _ ↦ none) ⟨[], []⟩).items = [] ++ [] := rfl
  exact .of_call h _ hitems

theorem Reachable.exists_indexed {c : Session} (h : Reachable c) :
    ∃ d, IndexedReachable d ∧ d.session = c := by
  induction h with
  | initial => exact ⟨_, .initial, rfl⟩
  | call _ call ih =>
    obtain ⟨d, hd, rfl⟩ := ih
    obtain ⟨hsession, -, -⟩ := replayIndexed_agrees call.items hd.reachable_exact.2
    exact ⟨_, hd.call call, by rw [hsession, ← call.perform_eq_replay]⟩

/-- Every state that collections pass through is passed through with indexes. -/
theorem Visited.exists_indexed {s : State} (h : Visited s) :
    ∃ c, IndexedVisited c ∧ c.session.state = s := by
  obtain ⟨hc, call, hitems⟩ := h
  obtain ⟨d, hd, rfl⟩ := hc.exists_indexed
  obtain ⟨hsession, -, -⟩ := replayIndexed_agrees _ hd.reachable_exact.2
  exact ⟨_, .of_call hd call hitems, by rw [hsession]⟩

/-! ## Used names -/

namespace IndexedSession

/-- The enumerations of the model. -/
def enumerations (c : IndexedSession) : List Enumeration := c.session.state.model.enumerations

/-- The names of enumerations and variants in the first session are refused in the second one. A
variant has to be refused where its enumeration is the one that variants belong to. -/
structure NamesRefusedIn (c later : IndexedSession) : Prop where
  enumeration : ∀ e ∈ c.enumerations, ∀ (flags : Bool) (base : Text),
    later.read (.enumeration flags e.name base) = .error (.duplicateEnumeration e.name)
  variant : ∀ (i : Nat) (e : Enumeration), c.enumerations[i]? = some e →
    later.session.state.scope.enumeration = some i → ∀ v ∈ e.variants, ∀ value : Text,
    later.read (.variant v.name value) = .error (.duplicateVariant v.name e.name)

variable {c : IndexedSession}

/-- Where an enumeration is declared, there is a header. -/
theorem exists_header (hslots : c.session.state.SlotsValid) {i : Nat} {e : Enumeration}
    (he : c.enumerations[i]? = some e) : ∃ header, c.session.state.model.header = some header := by
  by_contra hnone
  have hempty := (hslots.unheaded (Option.eq_none_iff_forall_ne_some.mpr (not_exists.mp hnone))).1
  rw [enumerations, hempty] at he
  cases he

theorem read_enumeration_of_used (h : c.Exact) (hslots : c.session.state.SlotsValid) {i : Nat}
    {e : Enumeration} (he : c.enumerations[i]? = some e) (flags : Bool) (base : Text) :
    c.read (.enumeration flags e.name base) = .error (.duplicateEnumeration e.name) := by
  obtain ⟨header, hheader⟩ := exists_header hslots he
  have hfind : c.names.findEnumeration? c.session.state.model e.name = some e :=
    h.findEnumeration?_eq_some_iff.mpr ⟨List.mem_of_getElem? he, rfl⟩
  simp only [read, NameIndexes.read, NameIndexes.readEnumeration, State.requireHeader, hheader,
    requireContext, bind, Except.bind, hfind]
  rfl

theorem read_variant_of_used (h : c.Exact) (hslots : c.session.state.SlotsValid) {i : Nat}
    {e : Enumeration} (he : c.enumerations[i]? = some e)
    (hscope : c.session.state.scope.enumeration = some i) {v : Variant} (hv : v ∈ e.variants)
    (value : Text) :
    c.read (.variant v.name value) = .error (.duplicateVariant v.name e.name) := by
  obtain ⟨header, hheader⟩ := exists_header hslots he
  have hused : c.names.hasVariant i v.name = true :=
    (h.hasVariant_iff he).mpr (List.mem_map_of_mem hv)
  rw [enumerations] at he
  simp only [read, NameIndexes.read, NameIndexes.readVariant, State.requireHeader, hheader,
    requireContext, bind, Except.bind, hscope, he, hused]
  rfl

/-- Names that have been used stay used, whatever items follow. -/
theorem namesRefusedIn_replay (h : c.Exact) (hslots : c.session.state.SlotsValid)
    (items : List Item) : c.NamesRefusedIn (replayIndexed items c).1 := by
  obtain ⟨hsession, -, hexact⟩ := replayIndexed_agrees items h
  have hslots : (replayIndexed items c).1.session.state.SlotsValid := by
    rw [hsession]
    exact slotsValid_replay items hslots
  -- Each enumeration stands at its position behind the items, with its name and its variants.
  have hlater : ∀ (i : Nat) (e : Enumeration), c.enumerations[i]? = some e →
      ∃ f, (replayIndexed items c).1.enumerations[i]? = some f ∧ e.Extends f := by
    intro i e he
    rw [enumerations, hsession]
    exact exists_extends_replay items he
  constructor
  · intro e he flags base
    obtain ⟨i, hi⟩ := List.mem_iff_getElem?.mp he
    obtain ⟨f, hf, hextends⟩ := hlater i e hi
    rw [← hextends.name]
    exact read_enumeration_of_used hexact hslots hf flags base
  · intro i e he hscope v hv value
    obtain ⟨f, hf, hextends⟩ := hlater i e he
    rw [← hextends.name]
    exact read_variant_of_used hexact hslots hf hscope (hextends.variants.subset hv) value

end IndexedSession

/-- **Name indexes are exact and names are unique.** Wherever a collection with indexes has got to,
which is where a collection without them gets to as well, each index gives a position for a name if
and only if the name stands there; no two enumerations have a name in common, and no two variants of
one enumeration. So lookup in the indexes finds what has been declared and nothing else, and a name
that has been used is refused behind any further items, in whatever files they stand. -/
theorem name_indexes_exact {c : IndexedSession} (h : IndexedVisited c) :
    Visited c.session.state ∧ (∀ d, c.read d = c.session.state.read d) ∧
      c.names.Exact c.session.state.model ∧
      (c.enumerations.map (·.name)).Nodup ∧
      (∀ e ∈ c.enumerations, (e.variants.map (·.name)).Nodup) ∧
      (∀ (name : Text) (e : Enumeration),
        c.names.findEnumeration? c.session.state.model name = some e ↔
          e ∈ c.enumerations ∧ e.name = name) ∧
      (∀ (i : Nat) (e : Enumeration), c.enumerations[i]? = some e → ∀ name : Text,
        c.names.hasVariant i name = true ↔ ∃ v ∈ e.variants, v.name = name) ∧
      ∀ items : List Item, c.NamesRefusedIn (replayIndexed items c).1 := by
  obtain ⟨hvisited, hexact⟩ := h.visited_exact
  refine ⟨hvisited, NameIndexes.read_eq hexact, hexact, hexact.enumerations.nodup, fun e he ↦ ?_,
    fun name e ↦ hexact.findEnumeration?_eq_some_iff, fun i e he name ↦ ?_, fun items ↦
    c.namesRefusedIn_replay hexact hvisited.slotsValid items⟩
  · obtain ⟨i, hi⟩ := List.mem_iff_getElem?.mp he
    obtain ⟨index, -, hindex⟩ := hexact.exists_index hi
    exact hindex.nodup
  · rw [hexact.hasVariant_iff he, List.mem_map]

/-- A call that declares an enumeration in an included file, adds a variant to it outside, and fails
when it declares the enumeration again. -/
def repeatedCall : Call :=
  .source (fun _ ↦ some "flags\tMode\tUINT16\nvariant\tOpen\t1")
    ⟨"main", ["meta\tApi\t1.0.0.0", "enum\tKind\tDWORD", "include\tmodes", "variant\tShut\t2",
      "enum\tMode\tDWORD"]⟩

def repeatedSession : IndexedSession := (replayIndexed repeatedCall.items IndexedSession.initial).1

theorem name_indexes_exact_across_files :
    (replayIndexed repeatedCall.items IndexedSession.initial).2 = false ∧
      IndexedVisited repeatedSession ∧
      repeatedSession.names.enumerations[("Mode" : Text)]? = some 1 ∧
      repeatedSession.names.hasVariant 1 "Shut" = true ∧
      repeatedSession.names.hasVariant 0 "Shut" = false ∧
      repeatedSession.read (.enumeration true "Mode" "BYTE")
        = .error (.duplicateEnumeration "Mode") := by
  have hagrees := replayIndexed_agrees repeatedCall.items (c := IndexedSession.initial)
    NameIndexes.exact_empty
  have hfails : (replay repeatedCall.items Session.initial).success = false := by decide +kernel
  have henumerations : repeatedSession.enumerations
      = [⟨"Kind", .named "DWORD", false, []⟩,
        ⟨"Mode", .named "UINT16", true, [⟨"Open", ⟨1, false⟩⟩, ⟨"Shut", ⟨2, false⟩⟩]⟩] := by
    rw [IndexedSession.enumerations, repeatedSession, hagrees.session]
    decide +kernel
  have hvisited : IndexedVisited repeatedSession :=
    (IndexedReachable.call .initial repeatedCall).visited
  obtain ⟨-, -, hexact, -, -, -, hvariant, hrefused⟩ := name_indexes_exact hvisited
  have hkind : repeatedSession.enumerations[0]? = some ⟨"Kind", .named "DWORD", false, []⟩ := by
    rw [henumerations]
    rfl
  have hmode : repeatedSession.enumerations[1]? = some ⟨"Mode", .named "UINT16", true,
      [⟨"Open", ⟨1, false⟩⟩, ⟨"Shut", ⟨2, false⟩⟩]⟩ := by
    rw [henumerations]
    rfl
  refine ⟨hagrees.success.trans hfails, hvisited, ?_, ?_, ?_, ?_⟩
  · rw [hexact.enumerations, List.getElem?_map, ← IndexedSession.enumerations, hmode]
    rfl
  · exact (hvariant 1 _ hmode "Shut").mpr ⟨⟨"Shut", ⟨2, false⟩⟩, by decide, rfl⟩
  · rw [Bool.eq_false_iff, ne_eq, hvariant 0 _ hkind "Shut"]
    rintro ⟨v, hv, -⟩
    cases hv
  · exact (hrefused []).enumeration _ (List.mem_of_getElem? hmode) true "BYTE"

end NativeApi

import NativeApi.Proofs.Association
import NativeApi.Proofs.Indexes

/-!
# Independent declarations

Some declarations only add to what is there: a library, a constant, a variant, a field, an argument.
Each of these groups writes to one part of a state. To read a declaration, though, the whole state
may be looked at, since a type can be anything that has been declared. What is looked at then is
less than it seems: the header, the names of function pointers and structs, and of the enumerations
their names and base types. No group writes to any of these.

So a declaration of one group is read in the same way before and behind an entry of another
(`State.read_add_of_groups`), and two such entries may be added in either order
(`State.add_comm_of_groups`). The same holds of name indexes (`NameIndexes.add_comm_of_groups`),
because only variants write to them.
-/

namespace NativeApi

/-! ## Groups -/

/-- The groups of declarations that only add to what is there. -/
inductive LineGroup
  | library
  | constant
  | variant
  | field
  | argument
  deriving DecidableEq, Repr

namespace LineGroup

/-- A place in some fixed order. -/
def rank : LineGroup → Nat
  | library => 0
  | constant => 1
  | variant => 2
  | field => 3
  | argument => 4

theorem rank_lt_or_gt {g h : LineGroup} (hne : g ≠ h) : g.rank < h.rank ∨ h.rank < g.rank := by
  cases g <;> cases h <;> first | exact absurd rfl hne | decide

end LineGroup

/-- The group of the lines with a keyword. -/
def Keyword.group? : Keyword → Option LineGroup
  | dll => some .library
  | guid => some .constant
  | variant => some .variant
  | field => some .field
  | argument => some .argument
  | optionalArgument => some .argument
  | _ => none

def Declaration.group? (d : Declaration) : Option LineGroup := d.keyword.group?

def Entry.group? : Entry → Option LineGroup
  | dll _ => some .library
  | guid _ => some .constant
  | variant _ => some .variant
  | field _ => some .field
  | argument _ => some .argument
  | _ => none

theorem Reads.group?_eq {m : Model} {d : Declaration} {e : Entry} (h : Reads m d e) :
    e.group? = d.group? := by
  cases h with
  | @argument optional => cases optional <;> rfl
  | @enumeration flags => cases flags <;> rfl
  | _ => rfl

/-! ## What entries of a group do -/

namespace Entry

/-- What an entry of a group makes of a model, for the slots of a scope. -/
def amend (scope : Scope) (m : Model) : Entry → Model
  | dll name => m.addDll (Text.toLower name)
  | guid c => { m with guids := m.guids ++ [c] }
  | variant v => scope.enumeration.elim m fun index ↦ m.addVariant index v
  | field f => scope.struct.elim m fun index ↦ m.addField index f
  | argument a => scope.callable.elim m fun slot ↦ m.addArgument a slot
  | _ => m

/-- What an entry of a group makes of a scope. -/
def enter (scope : Scope) : Entry → Scope
  | dll name => { scope with dll := some name }
  | _ => scope

end Entry

/-- An entry of a group changes the model and the scope apart from each other. -/
theorem State.add_of_group {s : State} {e : Entry} {g : LineGroup} (he : e.group? = some g) :
    s.add e = ⟨e.amend s.scope s.model, e.enter s.scope⟩ := by
  cases e with
  | dll name => rfl
  | guid c => rfl
  | variant v => simp only [add, Entry.amend]; cases s.scope.enumeration <;> rfl
  | field f => simp only [add, Entry.amend]; cases s.scope.struct <;> rfl
  | argument a => simp only [add, Entry.amend]; cases s.scope.callable <;> rfl
  | _ => cases he

/-! ## Reading sees no other group -/

namespace Model

variable {m n : Model}

/-- What enumerations replace a mention by. -/
def bases (m : Model) : List (Text × TypeReference) := m.enumerations.map fun e ↦ (e.name, e.base)

theorem findEnumeration?_map (m : Model) (name : Text) :
    (m.findEnumeration? name).map (fun e ↦ (e.name, e.base)) = m.bases.find? (·.1 == name) := by
  rw [bases, List.find?_map, findEnumeration?]
  rfl

theorem enrich_eq (m : Model) (type : TypeReference) :
    m.enrich type =
      if type.depth = 0 then
        (m.bases.find? (·.1 == m.baseIlType type.name)).elim type fun p ↦
          { p.2 with backingEnum := some p.1 }
      else type := by
  rw [enrich, ← findEnumeration?_map]
  cases m.findEnumeration? (m.baseIlType type.name) <;> rfl

/-- Mentions are replaced alike where types have the same texts and enumerations the same bases. -/
theorem enrich_congr (htypes : m.SameTypes n) (hbases : n.bases = m.bases) :
    n.enrich = m.enrich := by
  have hbase (name : Text) : n.baseIlType name = m.baseIlType name := by
    have hil := congrFun htypes.ilType ⟨name, 0, none⟩
    rwa [ilType, ilType, List.replicate_zero, List.append_nil, List.append_nil] at hil
  funext type
  rw [enrich_eq, enrich_eq, hbases, hbase]

end Model

namespace State

variable {s : State} {e : Entry} {g : LineGroup} (he : e.group? = some g)
include he

theorem header_add_of_group : (s.add e).model.header = s.model.header := by
  cases e with
  | argument a =>
    simp only [add]
    split
    · rfl
    · rename_i slot hslot
      cases slot <;> rfl
  | header h => cases he
  | _ =>
    simp only [add]
    try split
    all_goals rfl

theorem sameTypes_add_of_group : s.model.SameTypes (s.add e).model := by
  have hpointers := s.functionPointerNames_add e
  have hstructs := s.structNames_add e
  have hnone : e.functionPointerName? = none ∧ e.structName? = none := by
    cases e <;> first | exact ⟨rfl, rfl⟩ | cases he
  rw [hnone.1, Option.toList_none, List.append_nil] at hpointers
  rw [hnone.2, Option.toList_none, List.append_nil] at hstructs
  exact Model.sameTypes_of_names (header_add_of_group he) hpointers hstructs

theorem bases_add_of_group : (s.add e).model.bases = s.model.bases := by
  rw [Model.bases, Model.bases]
  rcases s.enumerations_add_cases e with ⟨name, base, flags, rfl, -⟩ | ⟨v, i, -, -, heq⟩ | heq
  · cases he
  · rw [heq]
    exact map_modify_of_eq (Enumeration.addVariant v) (fun e ↦ (e.name, e.base)) (fun _ ↦ rfl) i
  · rw [heq]

theorem reference_add_of_group : (s.add e).reference = s.reference := by
  funext name depth
  rw [reference, reference,
    Model.enrich_congr (sameTypes_add_of_group he) (bases_add_of_group he)]

theorem enumerations_add_of_group (hne : g ≠ .variant) :
    (s.add e).model.enumerations = s.model.enumerations := by
  rcases s.enumerations_add_cases e with ⟨name, base, flags, rfl, -⟩ | ⟨v, i, rfl, -, -⟩ | heq
  · cases he
  · cases he
    exact absurd rfl hne
  · exact heq

/-- Of the slots, only that of libraries can have changed. -/
theorem scope_add_of_group : ∃ dll, (s.add e).scope = { s.scope with dll := dll } := by
  rw [add_of_group he]
  cases e with
  | dll name => exact ⟨some name, rfl⟩
  | _ => exact ⟨s.scope.dll, rfl⟩

/-- **Reading sees no other group.** Behind an entry, declarations of other groups are read as they
are before it. -/
theorem read_add_of_groups {d : Declaration} {h : LineGroup} (hd : d.group? = some h)
    (hne : g ≠ h) : (s.add e).read d = s.read d := by
  have hheader (keyword : Keyword) :
      (s.add e).requireHeader keyword = s.requireHeader keyword := by
    rw [requireHeader, requireHeader, header_add_of_group he]
  obtain ⟨dll, hscope⟩ := scope_add_of_group (s := s) he
  cases d with
  | dll name => simp only [read, readDll, hheader]
  | guid name value => simp only [read, readGuid, hheader]
  | field name type depth =>
    simp only [read, readField, hheader, hscope, reference_add_of_group he]
  | argument optional direction name type depth attributes =>
    simp only [read, readArgument, hheader, hscope, reference_add_of_group he]
  | variant name value =>
    have hvariant : g ≠ .variant := by
      cases hd
      exact hne
    simp only [read, readVariant, readVariantOf, hheader, hscope,
      enumerations_add_of_group he hvariant, (sameTypes_add_of_group he).ilType]
  | enumeration flags name base => cases flags <;> cases hd
  | _ => cases hd

end State

/-! ## Additions commute -/

namespace Entry

variable {e f : Entry} {g h : LineGroup}

/-- No group looks at the slot of libraries. -/
theorem amend_enter (scope : Scope) (m : Model) (e f : Entry) :
    e.amend (f.enter scope) m = e.amend scope m := by
  cases f with
  | dll name => cases e <;> rfl
  | _ => rfl

theorem amend_comm_of_rank_lt (he : e.group? = some g) (hf : f.group? = some h)
    (hlt : g.rank < h.rank) (scope : Scope) (m : Model) :
    f.amend scope (e.amend scope m) = e.amend scope (f.amend scope m) := by
  cases e with
  | dll name =>
    cases f with
    | guid c => rfl
    | variant v => simp only [amend]; cases scope.enumeration <;> rfl
    | field f => simp only [amend]; cases scope.struct <;> rfl
    | argument a =>
      simp only [amend]
      cases scope.callable with
      | none => rfl
      | some slot => cases slot <;> rfl
    | _ => cases he; cases hf <;> exact absurd hlt (by decide)
  | guid c =>
    cases f with
    | variant v => simp only [amend]; cases scope.enumeration <;> rfl
    | field f => simp only [amend]; cases scope.struct <;> rfl
    | argument a =>
      simp only [amend]
      cases scope.callable with
      | none => rfl
      | some slot => cases slot <;> rfl
    | _ => cases he; cases hf <;> exact absurd hlt (by decide)
  | variant v =>
    cases f with
    | field f =>
      simp only [amend]
      cases scope.enumeration <;> cases scope.struct <;> rfl
    | argument a =>
      simp only [amend]
      cases scope.enumeration <;> cases scope.callable with
      | none => rfl
      | some slot => cases slot <;> rfl
    | _ => cases he; cases hf <;> exact absurd hlt (by decide)
  | field f' =>
    cases f with
    | argument a =>
      simp only [amend]
      cases scope.struct <;> cases scope.callable with
      | none => rfl
      | some slot => cases slot <;> rfl
    | _ => cases he; cases hf <;> exact absurd hlt (by decide)
  | argument a => cases he; cases f <;> cases hf <;> exact absurd hlt (by decide)
  | _ => cases he

theorem amend_comm (he : e.group? = some g) (hf : f.group? = some h) (hne : g ≠ h)
    (scope : Scope) (m : Model) :
    f.amend scope (e.amend scope m) = e.amend scope (f.amend scope m) := by
  rcases LineGroup.rank_lt_or_gt hne with hlt | hgt
  · exact amend_comm_of_rank_lt he hf hlt scope m
  · exact (amend_comm_of_rank_lt hf he hgt scope m).symm

/-- Only libraries enter a scope. -/
theorem enter_comm (he : e.group? = some g) (hf : f.group? = some h) (hne : g ≠ h)
    (scope : Scope) : f.enter (e.enter scope) = e.enter (f.enter scope) := by
  cases e with
  | dll name =>
    cases f with
    | dll other =>
      cases he
      cases hf
      exact absurd rfl hne
    | _ => rfl
  | _ => rfl

end Entry

namespace State

variable {s : State} {e f : Entry} {g h : LineGroup}

/-- **Additions commute.** Entries of different groups may be added in either order. -/
theorem add_comm_of_groups (he : e.group? = some g) (hf : f.group? = some h) (hne : g ≠ h) :
    (s.add e).add f = (s.add f).add e := by
  rw [add_of_group he, add_of_group hf, add_of_group he, add_of_group hf, Entry.amend_enter,
    Entry.amend_enter, Entry.amend_comm he hf hne, Entry.enter_comm he hf hne]

end State

/-! ## Name indexes -/

namespace NameIndexes

variable {names : NameIndexes} {s : State} {e f : Entry} {g h : LineGroup}

theorem add_of_group (he : e.group? = some g) (hne : g ≠ .variant) : names.add s e = names := by
  cases e with
  | variant v =>
    cases he
    exact absurd rfl hne
  | enumeration name base flags => cases he
  | _ => rfl

/-- What an entry does to the indexes is the same behind an entry of another group. -/
theorem add_add_of_groups (he : e.group? = some g) (hf : f.group? = some h) (hne : g ≠ h) :
    names.add (s.add f) e = names.add s e := by
  by_cases hg : g = .variant
  · have hh : h ≠ .variant := fun heq ↦ hne (hg.trans heq.symm)
    obtain ⟨dll, hscope⟩ := State.scope_add_of_group (s := s) hf
    cases e with
    | variant v => simp only [add, hscope, State.enumerations_add_of_group hf hh]
    | enumeration name base flags => cases he
    | _ => rfl
  · rw [add_of_group he hg, add_of_group he hg]

theorem add_comm_of_groups (he : e.group? = some g) (hf : f.group? = some h) (hne : g ≠ h) :
    (names.add s e).add (s.add e) f = (names.add s f).add (s.add f) e := by
  by_cases hg : g = .variant
  · have hh : h ≠ .variant := fun heq ↦ hne (hg.trans heq.symm)
    rw [add_of_group hf hh, add_of_group hf hh, add_add_of_groups he hf hne]
  · rw [add_of_group he hg, add_of_group he hg, add_add_of_groups hf he hne.symm]

end NameIndexes

end NativeApi

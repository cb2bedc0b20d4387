import NativeApi.Proofs.Growth
import NativeApi.Proofs.LiteralRange
import NativeApi.Proofs.Mention
import NativeApi.Proofs.ModelTexts

/-!
# The order of resolutions

The same name is resolved again and again, in models of different age: where a line mentions it,
where a literal is checked, and where the text is written. What it resolves to can differ, but only
in one direction (`Model.Extends.resolution_cases`). A name that is taken verbatim may become a
value type or a class, and a value type may become a class, since a function pointer takes
precedence over a struct of its name whichever of the two comes first. Nothing leads back, and fixed
meanings and names of COM interfaces depend on no declaration at all.
-/

namespace NativeApi

/-! ## When a name is resolved in a way -/

namespace Resolution

/-- A rule gives the name its meaning, and no declaration can change that. -/
def IsFixed (name : Text) : Prop :=
  (wellKnownTypes.lookup name).isSome = true ∨ isComInterface name = true

/-- How far a name has come. Where a model grows, no name falls back to a lower rank. -/
def rank : Resolution → Nat
  | verbatim => 0
  | localValue => 1
  | localClass => 2
  | wellKnown _ => 2

end Resolution

namespace Model

variable {m n : Model} {name : Text}

theorem resolution_eq_wellKnown_iff {il : Text} :
    m.resolution name = .wellKnown il ↔ Resolution.wellKnownTypes.lookup name = some il := by
  constructor
  · exact lookup_of_resolution
  · intro h
    rw [resolution, h]

theorem resolution_eq_localClass_iff :
    m.resolution name = .localClass ↔ Resolution.wellKnownTypes.lookup name = none ∧
      (Resolution.isComInterface name = true ∨ m.declaresFunctionPointer name = true) := by
  rw [resolution]
  cases Resolution.wellKnownTypes.lookup name with
  | some il => simp
  | none =>
    cases Resolution.isComInterface name <;> cases m.declaresFunctionPointer name <;>
      cases m.declaresStruct name <;> simp

theorem resolution_eq_localValue_iff :
    m.resolution name = .localValue ↔ Resolution.wellKnownTypes.lookup name = none ∧
      Resolution.isComInterface name = false ∧ m.declaresFunctionPointer name = false ∧
      m.declaresStruct name = true := by
  rw [resolution]
  cases Resolution.wellKnownTypes.lookup name with
  | some il => simp
  | none =>
    cases Resolution.isComInterface name <;> cases m.declaresFunctionPointer name <;>
      cases m.declaresStruct name <;> simp

/-- A fixed meaning and the form of a COM interface are found before any declaration. -/
theorem resolution_eq_of_isFixed (h : Resolution.IsFixed name) (m n : Model) :
    n.resolution name = m.resolution name := by
  cases hlookup : Resolution.wellKnownTypes.lookup name with
  | some il => rw [resolution_eq_wellKnown_iff.mpr hlookup, resolution_eq_wellKnown_iff.mpr hlookup]
  | none =>
    have hclass : Resolution.isComInterface name = true :=
      h.resolve_left (by rw [hlookup]; exact Bool.false_ne_true)
    rw [resolution_eq_localClass_iff.mpr ⟨hlookup, .inl hclass⟩,
      resolution_eq_localClass_iff.mpr ⟨hlookup, .inl hclass⟩]

/-! ## One step and many -/

theorem Extends.refl (m : Model) : m.Extends m := ⟨fun _ h ↦ h, fun _ h ↦ h⟩

theorem Extends.trans {o : Model} (h : m.Extends n) (h' : n.Extends o) : m.Extends o where
  functionPointer name hname := h'.functionPointer name (h.functionPointer name hname)
  struct name hname := h'.struct name (h.struct name hname)

end Model

/-- What declares a name once declares it in every later state. -/
theorem State.Leads.extends {s t : State} (h : s.Leads t) : s.model.Extends t.model := by
  induction h with
  | refl => exact .refl s.model
  | add _ _ ih => exact ih.trans (State.extends_add _ _)

namespace Model

variable {m n : Model}

/-- **Resolutions move one way.** The resolution of a name stays as it is, or a name that was taken
verbatim has been declared, or a function pointer has taken over the name of a struct. -/
theorem Extends.resolution_cases (h : m.Extends n) (name : Text) :
    n.resolution name = m.resolution name ∨
      (m.resolution name = .verbatim ∧ n.resolution name = .localClass) ∨
      (m.resolution name = .verbatim ∧ n.resolution name = .localValue) ∨
      (m.resolution name = .localValue ∧ n.resolution name = .localClass) := by
  cases hm : m.resolution name with
  | wellKnown il =>
    left
    rw [resolution_eq_wellKnown_iff] at hm ⊢
    exact hm
  | localClass =>
    left
    rw [resolution_eq_localClass_iff] at hm ⊢
    exact ⟨hm.1, hm.2.imp_right (h.functionPointer name)⟩
  | localValue =>
    obtain ⟨hlookup, hclass, -, hstruct⟩ := resolution_eq_localValue_iff.mp hm
    cases hpointer : n.declaresFunctionPointer name with
    | true =>
      have hn := resolution_eq_localClass_iff.mpr ⟨hlookup, .inr hpointer⟩
      exact .inr (.inr (.inr ⟨rfl, hn⟩))
    | false =>
      exact .inl (resolution_eq_localValue_iff.mpr
        ⟨hlookup, hclass, hpointer, h.struct name hstruct⟩)
  | verbatim =>
    obtain ⟨hlookup, hclass, -, -⟩ := resolution_eq_verbatim_iff.mp hm
    cases hpointer : n.declaresFunctionPointer name with
    | true =>
      have hn := resolution_eq_localClass_iff.mpr ⟨hlookup, .inr hpointer⟩
      exact .inr (.inl ⟨rfl, hn⟩)
    | false =>
      cases hstruct : n.declaresStruct name with
      | true =>
        have hn := resolution_eq_localValue_iff.mpr ⟨hlookup, hclass, hpointer, hstruct⟩
        exact .inr (.inr (.inl ⟨rfl, hn⟩))
      | false =>
        exact .inl (resolution_eq_verbatim_iff.mpr ⟨hlookup, hclass, hpointer, hstruct⟩)

theorem Extends.resolution_eq_or_rank_lt (h : m.Extends n) (name : Text) :
    n.resolution name = m.resolution name ∨
      (m.resolution name).rank < (n.resolution name).rank := by
  rcases h.resolution_cases name with hsame | ⟨hm, hn⟩ | ⟨hm, hn⟩ | ⟨hm, hn⟩
  · exact .inl hsame
  all_goals
    rw [hm, hn]
    exact .inr (by decide)

/-- A resolution that has changed does not change back. -/
theorem Extends.resolution_eq_of_return {o : Model} (h : m.Extends n) (h' : n.Extends o)
    {name : Text} (hreturn : o.resolution name = m.resolution name) :
    n.resolution name = m.resolution name := by
  rcases h.resolution_eq_or_rank_lt name with hsame | hlt
  · exact hsame
  · rcases h'.resolution_eq_or_rank_lt name with ho | hlt'
    · rw [← ho, hreturn]
    · rw [hreturn] at hlt'
      exact absurd hlt (Nat.lt_asymm hlt')

/-! ## Texts of names -/

theorem qualified_eq_of_header_eq (h : n.header = m.header) (name : Text) :
    n.qualified name = m.qualified name := by
  rw [qualified, qualified, Model.name, Model.name, h]

theorem baseIlType_eq_of_resolution_eq (hheader : n.header = m.header) {name : Text}
    (h : n.resolution name = m.resolution name) : n.baseIlType name = m.baseIlType name := by
  rw [baseIlType, baseIlType, h, qualified_eq_of_header_eq hheader]

theorem baseIlType_of_localClass (hheader : n.header = m.header) {name : Text}
    (h : n.resolution name = .localClass) : n.baseIlType name = "class " ++ m.qualified name := by
  rw [baseIlType, h, ← qualified_eq_of_header_eq hheader]

theorem baseIlType_of_localValue (hheader : n.header = m.header) {name : Text}
    (h : n.resolution name = .localValue) :
    n.baseIlType name = "valuetype " ++ m.qualified name := by
  rw [baseIlType, h, ← qualified_eq_of_header_eq hheader]

/-- A form with the namespace in it is longer than the name. -/
theorem append_qualified_ne_self (m : Model) {start : Text} (hstart : start ≠ []) (name : Text) :
    start ++ m.qualified name ≠ name := by
  intro heq
  have hlength := congrArg List.length heq
  have hpos := List.length_pos_of_ne_nil hstart
  simp only [qualified, List.length_append] at hlength
  omega

/-- How the text of a name in a model differs from that in an earlier one, and what has been
declared in between. -/
inductive RetextedAs (m n : Model) (name : Text) : Prop
  | same (h : n.baseIlType name = m.baseIlType name)
  | functionPointer (hm : m.baseIlType name = name)
      (hn : n.baseIlType name = "class " ++ m.qualified name)
      (hbefore : m.declaresFunctionPointer name = false)
      (hsince : n.declaresFunctionPointer name = true)
  | struct (hm : m.baseIlType name = name)
      (hn : n.baseIlType name = "valuetype " ++ m.qualified name)
      (hbefore : m.declaresStruct name = false) (hsince : n.declaresStruct name = true)
  | takenOver (hm : m.baseIlType name = "valuetype " ++ m.qualified name)
      (hn : n.baseIlType name = "class " ++ m.qualified name)
      (hstruct : m.declaresStruct name = true) (hbefore : m.declaresFunctionPointer name = false)
      (hsince : n.declaresFunctionPointer name = true)

theorem Extends.retextedAs (h : m.Extends n) (hheader : n.header = m.header) (name : Text) :
    m.RetextedAs n name := by
  rcases h.resolution_cases name with hsame | ⟨hm, hn⟩ | ⟨hm, hn⟩ | ⟨hm, hn⟩
  · exact .same (baseIlType_eq_of_resolution_eq hheader hsame)
  · obtain ⟨-, hclass, hpointer, -⟩ := resolution_eq_verbatim_iff.mp hm
    have hsince := (resolution_eq_localClass_iff.mp hn).2.resolve_left (by simp [hclass])
    exact .functionPointer (baseIlType_eq_self_iff.mpr hm) (baseIlType_of_localClass hheader hn)
      hpointer hsince
  · obtain ⟨-, -, -, hstruct⟩ := resolution_eq_verbatim_iff.mp hm
    obtain ⟨-, -, -, hsince⟩ := resolution_eq_localValue_iff.mp hn
    exact .struct (baseIlType_eq_self_iff.mpr hm) (baseIlType_of_localValue hheader hn)
      hstruct hsince
  · obtain ⟨-, hclass, hpointer, hstruct⟩ := resolution_eq_localValue_iff.mp hm
    have hsince := (resolution_eq_localClass_iff.mp hn).2.resolve_left (by simp [hclass])
    exact .takenOver (baseIlType_of_localValue rfl hm) (baseIlType_of_localClass hheader hn)
      hstruct hpointer hsince

/-- The texts tell resolutions apart. -/
theorem Extends.resolution_eq_of_baseIlType_eq (h : m.Extends n) (hheader : n.header = m.header)
    {name : Text} (hil : n.baseIlType name = m.baseIlType name) :
    n.resolution name = m.resolution name := by
  rcases h.resolution_cases name with hsame | ⟨hm, hn⟩ | ⟨hm, hn⟩ | ⟨hm, hn⟩
  · exact hsame
  · rw [baseIlType_of_localClass hheader hn, baseIlType_eq_self_iff.mpr hm] at hil
    exact absurd hil (m.append_qualified_ne_self (by decide) name)
  · rw [baseIlType_of_localValue hheader hn, baseIlType_eq_self_iff.mpr hm] at hil
    exact absurd hil (m.append_qualified_ne_self (by decide) name)
  · rw [baseIlType_of_localClass hheader hn, baseIlType_of_localValue rfl hm] at hil
    exact absurd (List.cons.inj hil).1 (by decide)

end Model

/-- **Resolution moves one way.** Between a state and a later one with the same header, the text of
a name stays the same, or it was the name itself and is a class or a value type of this assembly
now, as a function pointer or a struct of the name has been declared, or it was that of a struct and
is the class of a function pointer that has been declared since. Well-known names and names of COM
interfaces keep what they resolve to and their text, and no text comes back once it has changed. -/
theorem resolution_moves_one_way {s t : State} (h : s.Leads t)
    (hheader : t.model.header = s.model.header) (name : Text) :
    s.model.RetextedAs t.model name ∧
    (Resolution.IsFixed name → t.model.resolution name = s.model.resolution name ∧
      t.model.baseIlType name = s.model.baseIlType name) ∧
    ∀ u : State, t.Leads u → u.model.header = s.model.header →
      u.model.baseIlType name = s.model.baseIlType name →
      t.model.baseIlType name = s.model.baseIlType name := by
  refine ⟨h.extends.retextedAs hheader name, fun hfixed ↦ ?_, fun u hu hlater hreturn ↦ ?_⟩
  · have hresolution := Model.resolution_eq_of_isFixed hfixed s.model t.model
    exact ⟨hresolution, Model.baseIlType_eq_of_resolution_eq hheader hresolution⟩
  · have hresolution := (h.extends.trans hu.extends).resolution_eq_of_baseIlType_eq hlater hreturn
    have hbetween := h.extends.resolution_eq_of_return hu.extends hresolution
    exact Model.baseIlType_eq_of_resolution_eq hheader hbetween

/-- Two structs. -/
def structCall : Call :=
  .source (fun _ ↦ none) ⟨"structs", ["meta\tApi\t1.0.0.0", "struct\tItem", "struct\tPoint"]⟩

/-- A function pointer takes over the name of one of them, and then the call fails. -/
def pointerCall : Call :=
  .source (fun _ ↦ none) ⟨"callbacks", ["fptr\tItem\tvoid\t0", "struct\tIcon", "arg\tin"]⟩

def structSession : Session := (structCall.perform Session.initial).session

def pointerSession : Session := (pointerCall.perform structSession).session

theorem resolution_moves_one_way_behind_takeover :
    structSession.state.Leads pointerSession.state ∧
      pointerSession.state.model.header = structSession.state.model.header ∧
      structSession.state.model.baseIlType "Item" = "valuetype Api.Item" ∧
      pointerSession.state.model.baseIlType "Item" = "class Api.Item" ∧
      pointerSession.state.model.declaresFunctionPointer "Item" = true ∧
      pointerSession.state.model.baseIlType "IPoint"
        = structSession.state.model.baseIlType "IPoint" := by
  have hleads : structSession.state.Leads pointerSession.state :=
    pointerCall.leads_perform structSession
  have hheader : pointerSession.state.model.header = structSession.state.model.header := by
    decide
  have hqualified : structSession.state.model.qualified "Item" = "Api.Item" := by decide
  have hchanged : pointerSession.state.model.baseIlType "Item"
      ≠ structSession.state.model.baseIlType "Item" := by decide
  have hdeclared : structSession.state.model.baseIlType "Item" ≠ "Item" := by decide
  obtain ⟨hitem, -, -⟩ := resolution_moves_one_way hleads hheader "Item"
  obtain ⟨-, hpoint, -⟩ := resolution_moves_one_way hleads hheader "IPoint"
  cases hitem with
  | same h => exact absurd h hchanged
  | functionPointer hm _ _ _ => exact absurd hm hdeclared
  | struct hm _ _ _ => exact absurd hm hdeclared
  | takenOver hm hn _ _ hsince =>
    rw [hqualified] at hm hn
    exact ⟨hleads, hheader, hm, hn, hsince, (hpoint (.inr rfl)).2⟩

end NativeApi

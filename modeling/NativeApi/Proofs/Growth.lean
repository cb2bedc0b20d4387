import NativeApi.Proofs.Reachable

/-!
# Growth of models

Nothing that has been declared is taken away or changed afterwards. A declaration stays at its
position in its list, its own data stay as they are, and its members stay at the front of the
members that it has later. Growth is the same relation at each level: a list grows if its elements
grow where they stand and others follow them (`PrefixUpTo`), and what has members grows if the list
of them does.

One entry lets the model grow, in one list. Accepted entries are all that collections do to a state,
so growth is kept by every item that is replayed, whether a call succeeds or stops early.
-/

namespace NativeApi

/-! ## Lists -/

/-- Up to `R` between the elements, the first list is a prefix of the second. -/
def PrefixUpTo {α : Type} (R : α → α → Prop) (l k : List α) : Prop :=
  ∀ (i : Nat) (a : α), l[i]? = some a → ∃ b, k[i]? = some b ∧ R a b

namespace PrefixUpTo

variable {α : Type} {R : α → α → Prop} {l k j : List α}

theorem refl (hR : ∀ a, R a a) (l : List α) : PrefixUpTo R l l := fun _ a ha ↦ ⟨a, ha, hR a⟩

theorem trans (hR : ∀ a b c, R a b → R b c → R a c) (h : PrefixUpTo R l k)
    (h' : PrefixUpTo R k j) : PrefixUpTo R l j := by
  intro i a ha
  obtain ⟨b, hb, hab⟩ := h i a ha
  obtain ⟨c, hc, hbc⟩ := h' i b hb
  exact ⟨c, hc, hR a b c hab hbc⟩

theorem append (hR : ∀ a, R a a) (l k : List α) : PrefixUpTo R l (l ++ k) := by
  intro i a ha
  have hlt : i < l.length := (List.getElem?_eq_some_iff.mp ha).1
  rw [List.getElem?_append_left hlt]
  exact ⟨a, ha, hR a⟩

/-- A change of one element by which it grows. -/
theorem modify (hR : ∀ a, R a a) {f : α → α} (hf : ∀ a, R a (f a)) (l : List α) (position : Nat) :
    PrefixUpTo R l (l.modify position f) := by
  intro i a ha
  rw [List.getElem?_modify, ha, Option.map_eq_map, Option.map_some]
  split
  · exact ⟨f a, rfl, hf a⟩
  · exact ⟨a, rfl, hR a⟩

end PrefixUpTo

/-! ## Declarations -/

namespace Signature

/-- The same signature later: it may have got more arguments. -/
def Grows (s later : Signature) : Prop :=
  ∃ more, later = { s with arguments := s.arguments ++ more }

theorem Grows.refl (s : Signature) : s.Grows s := ⟨[], by rw [List.append_nil]⟩

theorem Grows.trans {s t u : Signature} (h : s.Grows t) (h' : t.Grows u) : s.Grows u := by
  obtain ⟨more, rfl⟩ := h
  obtain ⟨others, rfl⟩ := h'
  exact ⟨more ++ others, by simp only [List.append_assoc]⟩

theorem grows_addArgument (a : Argument) (s : Signature) : s.Grows (s.addArgument a) := ⟨[a], rfl⟩

end Signature

namespace FreeFunction

/-- The same function later: its signature may have grown. -/
def Grows (f later : FreeFunction) : Prop :=
  ∃ signature, f.signature.Grows signature ∧ later = { f with signature := signature }

theorem Grows.refl (f : FreeFunction) : f.Grows f := ⟨f.signature, .refl _, rfl⟩

theorem Grows.trans {f g h : FreeFunction} (hfg : f.Grows g) (hgh : g.Grows h) : f.Grows h := by
  obtain ⟨s, hs, rfl⟩ := hfg
  obtain ⟨t, ht, rfl⟩ := hgh
  exact ⟨t, hs.trans ht, rfl⟩

theorem grows_addArgument (a : Argument) (f : FreeFunction) : f.Grows (f.addArgument a) :=
  ⟨_, f.signature.grows_addArgument a, rfl⟩

end FreeFunction

namespace FunctionPointer

/-- The same function pointer later: its signature may have grown. -/
def Grows (p later : FunctionPointer) : Prop :=
  ∃ signature, p.signature.Grows signature ∧ later = { p with signature := signature }

theorem Grows.refl (p : FunctionPointer) : p.Grows p := ⟨p.signature, .refl _, rfl⟩

theorem Grows.trans {p q r : FunctionPointer} (hpq : p.Grows q) (hqr : q.Grows r) :
    p.Grows r := by
  obtain ⟨s, hs, rfl⟩ := hpq
  obtain ⟨t, ht, rfl⟩ := hqr
  exact ⟨t, hs.trans ht, rfl⟩

theorem grows_addArgument (a : Argument) (p : FunctionPointer) : p.Grows (p.addArgument a) :=
  ⟨_, p.signature.grows_addArgument a, rfl⟩

end FunctionPointer

namespace Interface

/-- The same interface later: its methods may have grown, and it may have got more. -/
def Grows (i later : Interface) : Prop :=
  ∃ methods, PrefixUpTo Signature.Grows i.methods methods ∧ later = { i with methods := methods }

theorem Grows.refl (i : Interface) : i.Grows i :=
  ⟨i.methods, .refl Signature.Grows.refl _, rfl⟩

theorem Grows.trans {i j k : Interface} (hij : i.Grows j) (hjk : j.Grows k) : i.Grows k := by
  obtain ⟨ms, hms, rfl⟩ := hij
  obtain ⟨ns, hns, rfl⟩ := hjk
  exact ⟨ns, hms.trans (fun _ _ _ ↦ Signature.Grows.trans) hns, rfl⟩

theorem grows_addMethod (s : Signature) (i : Interface) : i.Grows (i.addMethod s) :=
  ⟨_, .append Signature.Grows.refl _ _, rfl⟩

theorem grows_addArgument (index : Nat) (a : Argument) (i : Interface) :
    i.Grows (i.addArgument index a) :=
  ⟨_, .modify Signature.Grows.refl (Signature.grows_addArgument a) _ _, rfl⟩

end Interface

namespace Enumeration

/-- The same enumeration later: it may have got more variants. -/
def Grows (e later : Enumeration) : Prop :=
  ∃ more, later = { e with variants := e.variants ++ more }

theorem Grows.refl (e : Enumeration) : e.Grows e := ⟨[], by rw [List.append_nil]⟩

theorem Grows.trans {d e f : Enumeration} (hde : d.Grows e) (hef : e.Grows f) : d.Grows f := by
  obtain ⟨more, rfl⟩ := hde
  obtain ⟨others, rfl⟩ := hef
  exact ⟨more ++ others, by simp only [List.append_assoc]⟩

theorem grows_addVariant (v : Variant) (e : Enumeration) : e.Grows (e.addVariant v) := ⟨[v], rfl⟩

end Enumeration

namespace Struct

/-- The same struct later: it may have got more fields. -/
def Grows (s later : Struct) : Prop :=
  ∃ more, later = { s with fields := s.fields ++ more }

theorem Grows.refl (s : Struct) : s.Grows s := ⟨[], by rw [List.append_nil]⟩

theorem Grows.trans {s t u : Struct} (h : s.Grows t) (h' : t.Grows u) : s.Grows u := by
  obtain ⟨more, rfl⟩ := h
  obtain ⟨others, rfl⟩ := h'
  exact ⟨more ++ others, by simp only [List.append_assoc]⟩

theorem grows_addField (f : Field) (s : Struct) : s.Grows (s.addField f) := ⟨[f], rfl⟩

end Struct

/-! ## Models -/

namespace Model

/-- The same model later. -/
structure Grows (m later : Model) : Prop where
  /-- A header stays. -/
  header : ∀ h, m.header = some h → later.header = some h
  functions : PrefixUpTo FreeFunction.Grows m.functions later.functions
  functionPointers :
    PrefixUpTo FunctionPointer.Grows m.functionPointers later.functionPointers
  interfaces : PrefixUpTo Interface.Grows m.interfaces later.interfaces
  enumerations : PrefixUpTo Enumeration.Grows m.enumerations later.enumerations
  structs : PrefixUpTo Struct.Grows m.structs later.structs
  guids : m.guids <+: later.guids
  dlls : m.dlls ⊆ later.dlls

namespace Grows

variable {m n o : Model}

theorem refl (m : Model) : m.Grows m where
  header _ h := h
  functions := .refl FreeFunction.Grows.refl _
  functionPointers := .refl FunctionPointer.Grows.refl _
  interfaces := .refl Interface.Grows.refl _
  enumerations := .refl Enumeration.Grows.refl _
  structs := .refl Struct.Grows.refl _
  guids := List.prefix_rfl
  dlls := List.Subset.refl _

theorem trans (hmn : m.Grows n) (hno : n.Grows o) : m.Grows o where
  header h hh := hno.header h (hmn.header h hh)
  functions := hmn.functions.trans (fun _ _ _ ↦ FreeFunction.Grows.trans) hno.functions
  functionPointers :=
    hmn.functionPointers.trans (fun _ _ _ ↦ FunctionPointer.Grows.trans) hno.functionPointers
  interfaces := hmn.interfaces.trans (fun _ _ _ ↦ Interface.Grows.trans) hno.interfaces
  enumerations := hmn.enumerations.trans (fun _ _ _ ↦ Enumeration.Grows.trans) hno.enumerations
  structs := hmn.structs.trans (fun _ _ _ ↦ Struct.Grows.trans) hno.structs
  guids := hmn.guids.trans hno.guids
  dlls := List.Subset.trans hmn.dlls hno.dlls

end Grows

theorem mem_insertText_iff {t u : Text} {ts : List Text} :
    u ∈ insertText t ts ↔ u = t ∨ u ∈ ts := by
  induction ts with
  | nil => rw [insertText, List.mem_cons]
  | cons v ts ih =>
    rw [insertText]
    split
    · rw [List.mem_cons]
    · split
      · rename_i h
        rw [h, List.mem_cons, ← or_assoc, or_self]
      · rw [List.mem_cons, ih, List.mem_cons, or_left_comm]

/-- An argument lets the signature in the slot grow. -/
theorem grows_addArgument (m : Model) (a : Argument) (slot : CallableSlot) :
    m.Grows (m.addArgument a slot) := by
  cases slot with
  | function index =>
    exact { Grows.refl m with
      functions := .modify FreeFunction.Grows.refl (FreeFunction.grows_addArgument a) _ _ }
  | functionPointer index =>
    exact { Grows.refl m with
      functionPointers :=
        .modify FunctionPointer.Grows.refl (FunctionPointer.grows_addArgument a) _ _ }
  | method interface index =>
    exact { Grows.refl m with
      interfaces := .modify Interface.Grows.refl (Interface.grows_addArgument index a) _ _ }

end Model

/-! ## Entries -/

namespace State

/-- An entry lets one list of the model grow, or adds a header or a library. It is a header only if
there is none, so none is replaced. -/
theorem grows_add {s : State} {e : Entry} (h : s.Admits e) : s.model.Grows (s.add e).model := by
  have hrefl := Model.Grows.refl s.model
  cases e with
  | header new =>
    have hnone : s.model.header = none := h
    refine { hrefl with header := fun old hold ↦ ?_ }
    rw [hnone] at hold
    cases hold
  | functionPointer name returnType code =>
    exact { hrefl with functionPointers := .append FunctionPointer.Grows.refl _ _ }
  | dll name =>
    exact { hrefl with dlls := fun _ hdll ↦ Model.mem_insertText_iff.mpr (.inr hdll) }
  | function name returnType convention =>
    simp only [add]
    split
    · exact hrefl
    · exact { hrefl with functions := .append FreeFunction.Grows.refl _ _ }
  | argument a =>
    simp only [add]
    split
    · exact hrefl
    · exact s.model.grows_addArgument a _
  | interface name group value base =>
    exact { hrefl with interfaces := .append Interface.Grows.refl _ _ }
  | method name returnType =>
    simp only [add]
    split
    · exact hrefl
    · exact { hrefl with
        interfaces := .modify Interface.Grows.refl (Interface.grows_addMethod _) _ _ }
  | enumeration name base flags =>
    exact { hrefl with enumerations := .append Enumeration.Grows.refl _ _ }
  | variant v =>
    simp only [add]
    split
    · exact hrefl
    · exact { hrefl with
        enumerations := .modify Enumeration.Grows.refl (Enumeration.grows_addVariant v) _ _ }
  | struct name => exact { hrefl with structs := .append Struct.Grows.refl _ _ }
  | field f =>
    simp only [add]
    split
    · exact hrefl
    · exact { hrefl with structs := .modify Struct.Grows.refl (Struct.grows_addField f) _ _ }
  | guid c => exact { hrefl with guids := List.prefix_append _ _ }

end State

/-! ## Later states -/

namespace State

/-- Accepted declarations lead from a state to another. -/
inductive Leads (s : State) : State → Prop
  | refl : s.Leads s
  | add {t : State} {d : Declaration} {e : Entry} (h : s.Leads t) (hread : t.read d = .ok e) :
      s.Leads (t.add e)

namespace Leads

theorem grows {s t : State} (h : s.Leads t) : s.model.Grows t.model := by
  induction h with
  | refl => exact .refl s.model
  | add _ hread ih => exact ih.trans (grows_add (State.read_eq_ok.mp hread).2)

end Leads

end State

/-- Items lead to a later state, whether all of them are accepted or one is refused. -/
theorem leads_replay (items : List Item) (c : Session) :
    c.state.Leads (replay items c).session.state :=
  state_replay_induction (P := c.state.Leads) (fun _ _ _ h hread ↦ h.add hread) items .refl

theorem Call.leads_perform (call : Call) (c : Session) :
    c.state.Leads (call.perform c).session.state := by
  rw [call.perform_eq_replay]
  exact leads_replay call.items c

/-- **Models only grow.** Whatever a call does, and whether it succeeds or fails, the model before
it is in the model after it: a header stays, every declaration stays at its position with its own
data and with its members at the front, and no library is lost. -/
theorem model_grows (call : Call) (c : Session) :
    c.state.model.Grows (call.perform c).session.state.model :=
  (call.leads_perform c).grows

end NativeApi

import Mathlib.Data.List.Induction
import Mathlib.Data.List.Nodup
import NativeApi.Proofs.Dependence
import NativeApi.Proofs.Operand

/-!
# Well-formed declarations

Which lists of declarations can be collected is a condition on the list alone: each declaration
stands behind what it needs, its operands denote something, and names are not repeated where they
must not be. `WellFormed` states the condition on the whole list, in terms of what stands before and
between declarations.

Collection goes line by line. `MayFollow` is what the condition asks of one more declaration, and
`wellFormed_append_singleton` says that it asks nothing else.
-/

namespace NativeApi

/-! ## Declarations -/

namespace Declaration

def enumerationName? : Declaration → Option Text
  | enumeration _ name _ => some name
  | _ => none

def functionPointerName? : Declaration → Option Text
  | functionPointer name .. => some name
  | _ => none

def structName? : Declaration → Option Text
  | struct name => some name
  | _ => none

/-- The base type of an enumeration. -/
def base? : Declaration → Option Text
  | enumeration _ _ base => some base
  | _ => none

end Declaration

/-- The base type of the latest enumeration in a list. -/
def latestBase? (ds : List Declaration) : Option Text := (ds.filterMap Declaration.base?).getLast?

/-- The range of a base type behind a list of declarations. Names of interfaces, function pointers
and structs have none, unless they are well-known names. -/
def rangeBehind? (ds : List Declaration) (base : Text) : Option IntegerRange :=
  match Resolution.wellKnownTypes.lookup base with
  | some il => IntegerRange.ofIlType? il
  | none =>
    if Resolution.isComInterface base || ds.any (·.functionPointerName? == some base)
        || ds.any (·.structName? == some base) then none
    else IntegerRange.ofIlType? base

/-- Lists of declarations in which each has what it needs. -/
structure WellFormed (ds : List Declaration) : Prop where
  /-- The first declaration is the header, and no other is. -/
  header : ∀ d rest, ds = d :: rest →
    d.opens? = some .header ∧ ∀ e ∈ rest, e.opens? ≠ some .header
  /-- A declaration stands behind one of the kind that it depends on. -/
  context : ∀ before d after, ds = before ++ d :: after →
    ∀ c, d.needs? = some c → ∃ o ∈ before, o.opens? = some c
  operands : ∀ d ∈ ds, d.OperandsValid
  enumerations : (ds.filterMap Declaration.enumerationName?).Nodup
  /-- Between two variants of one name stands an enumeration. -/
  variants : ∀ before d after, ds = before ++ d :: after →
    ∀ name w, d = .variant name w →
      ∀ first v between, before = first ++ .variant name v :: between →
        ∃ o ∈ between, o.opens? = some .enumeration
  /-- The value of a variant is in the range of the base type of its enumeration. -/
  values : ∀ before d after, ds = before ++ d :: after →
    ∀ name value, d = .variant name value →
      ∀ i, IntegerLiteral.Spells value i → ∀ base ∈ latestBase? before,
        ∀ r ∈ rangeBehind? before base, -(r.negative : Int) ≤ i ∧ i ≤ r.positive

/-! ## One more declaration -/

/-- What the whole condition asks of a declaration behind a list. -/
structure MayFollow (ds : List Declaration) (d : Declaration) : Prop where
  header : d.opens? = some .header ↔ ds = []
  context : ∀ c, d.needs? = some c → ∃ o ∈ ds, o.opens? = some c
  operands : d.OperandsValid
  enumeration : ∀ name ∈ d.enumerationName?, name ∉ ds.filterMap Declaration.enumerationName?
  variant : ∀ name w, d = .variant name w →
    ∀ first v between, ds = first ++ .variant name v :: between →
      ∃ o ∈ between, o.opens? = some .enumeration
  value : ∀ name value, d = .variant name value →
    ∀ i, IntegerLiteral.Spells value i → ∀ base ∈ latestBase? ds,
      ∀ r ∈ rangeBehind? ds base, -(r.negative : Int) ≤ i ∧ i ≤ r.positive

/-- A property of elements behind what stands before them, for a list with one more element. -/
theorem forall_splits_append_singleton {α : Type} {P : List α → α → Prop} {l : List α} {x : α} :
    (∀ before a after, l ++ [x] = before ++ a :: after → P before a) ↔
      (∀ before a after, l = before ++ a :: after → P before a) ∧ P l x := by
  constructor
  · intro h
    refine ⟨fun before a after hl ↦ ?_, h l x [] rfl⟩
    refine h before a (after ++ [x]) ?_
    rw [hl, List.append_assoc, List.cons_append]
  · rintro ⟨h, hx⟩ before a after hl
    -- A split of the longer list is at its last element or is a split of the list.
    rcases List.eq_nil_or_concat after with rfl | ⟨front, y, rfl⟩
    · obtain ⟨rfl, ha⟩ := List.append_inj' hl rfl
      cases ha
      exact hx
    · rw [List.concat_eq_append, ← List.cons_append, ← List.append_assoc] at hl
      obtain ⟨rfl, -⟩ := List.append_inj' hl rfl
      exact h before a front rfl

theorem filterMap_append_singleton {α β : Type} (f : α → Option β) (l : List α) (x : α) :
    (l ++ [x]).filterMap f = l.filterMap f ++ (f x).toList := by
  rw [List.filterMap_append]
  cases hx : f x with
  | none => rw [List.filterMap_cons_none hx, List.filterMap_nil, Option.toList_none]
  | some b => rw [List.filterMap_cons_some hx, List.filterMap_nil, Option.toList_some]

/-- Images without repetition, for a list with one more element. -/
theorem nodup_filterMap_append_singleton {α β : Type} {f : α → Option β} {l : List α} {x : α} :
    ((l ++ [x]).filterMap f).Nodup ↔
      (l.filterMap f).Nodup ∧ ∀ b ∈ f x, b ∉ l.filterMap f := by
  rw [filterMap_append_singleton]
  cases f x with
  | none =>
    rw [Option.toList_none, List.append_nil]
    exact (and_iff_left fun b hb ↦ by cases hb).symm
  | some b =>
    rw [Option.toList_some, ← List.concat_eq_append, List.nodup_concat, and_comm]
    simp

/-- The rule for headers, for a list with one more declaration. -/
theorem header_append_singleton {ds : List Declaration} {d : Declaration} :
    (∀ e rest, ds ++ [d] = e :: rest →
        e.opens? = some .header ∧ ∀ o ∈ rest, o.opens? ≠ some .header) ↔
      (∀ e rest, ds = e :: rest →
        e.opens? = some .header ∧ ∀ o ∈ rest, o.opens? ≠ some .header) ∧
        (d.opens? = some .header ↔ ds = []) := by
  cases ds with
  | nil => simp
  | cons first rest =>
    simp only [List.cons_append, List.cons.injEq, reduceCtorEq, iff_false]
    constructor
    · intro h
      obtain ⟨hfirst, hrest⟩ := h first (rest ++ [d]) ⟨rfl, rfl⟩
      rw [List.forall_mem_append] at hrest
      refine ⟨?_, hrest.2 d (List.mem_singleton_self d)⟩
      rintro e others ⟨rfl, rfl⟩
      exact ⟨hfirst, hrest.1⟩
    · rintro ⟨h, hd⟩ e others ⟨rfl, rfl⟩
      obtain ⟨hfirst, hrest⟩ := h first rest ⟨rfl, rfl⟩
      refine ⟨hfirst, List.forall_mem_append.mpr ⟨hrest, fun o ho ↦ ?_⟩⟩
      rwa [List.mem_singleton.mp ho]

theorem wellFormed_nil : WellFormed [] where
  header _ _ h := by cases h
  context before d after h := by simp at h
  operands _ hd := absurd hd List.not_mem_nil
  enumerations := .nil
  variants before d after h := by simp at h
  values before d after h := by simp at h

/-- The condition on the whole list comes down to the condition on each next declaration. -/
theorem wellFormed_append_singleton {ds : List Declaration} {d : Declaration} :
    WellFormed (ds ++ [d]) ↔ WellFormed ds ∧ MayFollow ds d := by
  have hnames := nodup_filterMap_append_singleton (l := ds) (x := d)
    (f := Declaration.enumerationName?)
  constructor
  · intro h
    obtain ⟨hheader, hfollow⟩ := header_append_singleton.mp h.header
    obtain ⟨hcontext, hneeds⟩ := forall_splits_append_singleton.mp h.context
    obtain ⟨hoperands, hd⟩ := List.forall_mem_append.mp h.operands
    obtain ⟨henumerations, hname⟩ := hnames.mp h.enumerations
    obtain ⟨hvariants, hvariant⟩ := forall_splits_append_singleton.mp h.variants
    obtain ⟨hvalues, hvalue⟩ := forall_splits_append_singleton.mp h.values
    exact ⟨⟨hheader, hcontext, hoperands, henumerations, hvariants, hvalues⟩,
      ⟨hfollow, hneeds, hd d (List.mem_singleton_self d), hname, hvariant, hvalue⟩⟩
  · rintro ⟨h, hd⟩
    refine ⟨header_append_singleton.mpr ⟨h.header, hd.header⟩,
      forall_splits_append_singleton.mpr ⟨h.context, hd.context⟩, ?_,
      hnames.mpr ⟨h.enumerations, hd.enumeration⟩,
      forall_splits_append_singleton.mpr ⟨h.variants, hd.variant⟩,
      forall_splits_append_singleton.mpr ⟨h.values, hd.value⟩⟩
    refine List.forall_mem_append.mpr ⟨h.operands, fun o ho ↦ ?_⟩
    rw [List.mem_singleton.mp ho]
    exact hd.operands

/-! ## The latest enumeration -/

/-- The names of the variants behind the latest enumeration. -/
def latestVariants (ds : List Declaration) : List Text :=
  (ds.reverse.takeWhile fun d ↦ d.opens? != some .enumeration).filterMap fun d ↦
    match d with
    | .variant name _ => some name
    | _ => none

theorem mem_latestVariants_append {ds : List Declaration} {d : Declaration} {name : Text} :
    name ∈ latestVariants (ds ++ [d]) ↔
      (∃ v, d = .variant name v) ∨
        d.opens? ≠ some .enumeration ∧ name ∈ latestVariants ds := by
  cases d with
  | variant other value => simp [latestVariants, Declaration.opens?, @eq_comm _ name other]
  | _ => simp [latestVariants, Declaration.opens?]

/-- A name is among them if a variant of that name stands behind the latest enumeration. -/
theorem mem_latestVariants_iff {ds : List Declaration} {name : Text} :
    name ∈ latestVariants ds ↔
      ∃ first v between, ds = first ++ .variant name v :: between ∧
        ∀ o ∈ between, o.opens? ≠ some .enumeration := by
  induction ds using List.reverseRecOn with
  | nil => simp [latestVariants]
  | append_singleton ds d ih =>
    rw [mem_latestVariants_append, ih]
    constructor
    · rintro (⟨v, rfl⟩ | ⟨hd, first, v, between, rfl, hbetween⟩)
      · exact ⟨ds, v, [], rfl, fun o ho ↦ absurd ho List.not_mem_nil⟩
      · refine ⟨first, v, between ++ [d], by simp, List.forall_mem_append.mpr ⟨hbetween, ?_⟩⟩
        intro o ho
        rwa [List.mem_singleton.mp ho]
    · rintro ⟨first, v, between, hds, hbetween⟩
      rcases List.eq_nil_or_concat between with rfl | ⟨front, last, rfl⟩
      · obtain ⟨-, hd⟩ := List.append_inj' hds rfl
        exact .inl ⟨v, List.singleton_inj.mp hd⟩
      · rw [List.concat_eq_append] at hds hbetween
        rw [← List.cons_append, ← List.append_assoc] at hds
        obtain ⟨rfl, hlast⟩ := List.append_inj' hds rfl
        rw [List.singleton_inj.mp hlast]
        rw [List.forall_mem_append] at hbetween
        exact .inr ⟨hbetween.2 last (List.mem_singleton_self last), first, v, front, rfl,
          hbetween.1⟩

theorem latestBase?_append (ds : List Declaration) (d : Declaration) :
    latestBase? (ds ++ [d]) = d.base?.or (latestBase? ds) := by
  rw [latestBase?, filterMap_append_singleton, List.getLast?_append, latestBase?]
  cases d.base? <;> rfl

/-- There is a latest base type if there is an enumeration. -/
theorem isSome_latestBase?_iff {ds : List Declaration} :
    (latestBase? ds).isSome ↔ ∃ o ∈ ds, o.opens? = some .enumeration := by
  induction ds using List.reverseRecOn with
  | nil => simp [latestBase?]
  | append_singleton ds d ih =>
    have hd : d.base?.isSome ↔ d.opens? = some .enumeration := by
      cases d <;> simp [Declaration.base?, Declaration.opens?]
    rw [latestBase?_append, Option.isSome_or, Bool.or_eq_true, hd, ih]
    simp only [List.mem_append, List.mem_singleton, or_and_right, exists_or, exists_eq_left,
      or_comm]

end NativeApi

import NativeApi.Collection.Declare

/-!
# Faults of declarations

A declaration is refused for what its own line says or for what has been declared before it, never
for a file. Faults that concern files come from include lines and from calls only, so a diagnostic
with such a fault tells that an include line or a call has failed.
-/

namespace NativeApi

namespace Fault

/-- The fault is about a file that should be opened. -/
def concernsFile : Fault → Bool
  | includeDepth _ => true
  | unreadableSource _ => true
  | unreadableInclude _ => true
  | _ => false

/-- The code for includes that are nested too deeply has no other use. -/
theorem code_eq_includeDepth_iff {fault : Fault} :
    fault.code = "META-E3010" ↔ ∃ path, fault = .includeDepth path := by
  cases fault with
  | includeDepth path => exact iff_of_true rfl ⟨path, rfl⟩
  | missingContext keyword context =>
    refine iff_of_false ?_ (by simp)
    cases context <;> simp only [code, Context.code] <;> decide
  | range quantity n =>
    refine iff_of_false ?_ (by simp)
    cases quantity <;> simp only [code, Quantity.rangeCode] <;> decide
  | _ =>
    refine iff_of_false ?_ (by simp)
    simp only [code]
    decide

end Fault

/-- If the reading fails, the fault is about no file. -/
def FileIndependent {α : Type} (x : Except Fault α) : Prop :=
  ∀ fault, x = .error fault → fault.concernsFile = false

namespace FileIndependent

variable {α β : Type}

theorem ok (a : α) : FileIndependent (.ok a : Except Fault α) := fun _ h ↦ by cases h

theorem error {fault : Fault} (h : fault.concernsFile = false) :
    FileIndependent (.error fault : Except Fault α) := by
  intro other hother
  cases hother
  exact h

theorem bind {x : Except Fault α} {f : α → Except Fault β} (hx : FileIndependent x)
    (hf : ∀ a, FileIndependent (f a)) : FileIndependent (x >>= f) := by
  intro fault h
  cases x with
  | error other => cases h; exact hx fault rfl
  | ok a => exact hf a fault h

theorem ite {p : Prop} [Decidable p] {x y : Except Fault α} (hx : FileIndependent x)
    (hy : FileIndependent y) : FileIndependent (if p then x else y) := by
  split
  · exact hx
  · exact hy

/-! ## Operands -/

theorem requireContext (keyword : Keyword) (context : Context) (o : Option α) :
    FileIndependent (requireContext keyword context o) := by
  cases o with
  | none => exact .error rfl
  | some a => exact .ok a

theorem readQuantity (quantity : Quantity) (t : Text) :
    FileIndependent (readQuantity quantity t) := by
  rw [NativeApi.readQuantity]
  split
  · exact .ok _
  · exact .error rfl

theorem boundQuantity (quantity : Quantity) (bound : Nat) (n : Int) :
    FileIndependent (boundQuantity quantity bound n) :=
  (ok _).ite (error rfl)

theorem readDepth (t : Text) : FileIndependent (readDepth t) :=
  (readQuantity .depth t).bind fun n ↦ boundQuantity .depth word32Bound n

theorem readCode (t : Option Text) : FileIndependent (readCode t) := by
  cases t with
  | none => exact .ok 1
  | some t =>
    exact (readQuantity .conventionCode t).bind fun n ↦
      (boundQuantity .conventionCode word32Bound n).bind fun code ↦ .ok _

theorem readConvention (t : Option Text) : FileIndependent (readConvention t) := by
  cases t with
  | none => exact .ok _
  | some t =>
    exact (ok t).ite (error rfl)

theorem readDirection (t : Text) : FileIndependent (readDirection t) :=
  (ok _).ite ((ok _).ite ((ok _).ite (error rfl)))

theorem applyWord (a : Argument) (word : Text) : FileIndependent (a.applyWord word) := by
  refine (ok a).ite ((ok _).ite ((ok _).ite ?_))
  split
  · exact .error rfl
  · refine (error rfl).ite ?_
    split
    · exact .error rfl
    · exact .ok _

theorem applyWords (a : Argument) (words : Text) : FileIndependent (a.applyWords words) := by
  rw [Argument.applyWords]
  induction Text.splitOn Text.blank words generalizing a with
  | nil => exact .ok a
  | cons word rest ih =>
    rw [List.foldlM_cons]
    exact (applyWord a word).bind ih

/-! ## Declarations -/

variable (s : State)

theorem readVariantOf (e : Enumeration) (name value : Text) :
    FileIndependent (s.readVariantOf e name value) := by
  refine (error rfl).ite ?_
  split
  · exact .error rfl
  · dsimp only
    split
    · exact .ok _
    · exact (ok _).ite (error rfl)

/-- A declaration that is refused is refused for nothing about a file. -/
theorem read (d : Declaration) : FileIndependent (s.read d) := by
  cases d with
  | header name version =>
    rw [State.read, State.readHeader]
    split
    · exact .error rfl
    · exact .ok _
  | functionPointer name type depth code =>
    exact (requireContext _ _ _).bind fun _ ↦ (readDepth depth).bind fun _ ↦
      (readCode code).bind fun _ ↦ .ok _
  | dll name => exact (requireContext _ _ _).bind fun _ ↦ .ok _
  | function name type depth convention =>
    exact (requireContext _ _ _).bind fun _ ↦ (requireContext _ _ _).bind fun _ ↦
      (readDepth depth).bind fun _ ↦ (readConvention convention).bind fun _ ↦ .ok _
  | argument optional direction name type depth attributes =>
    exact (requireContext _ _ _).bind fun _ ↦ (requireContext _ _ _).bind fun _ ↦
      (readDirection direction).bind fun _ ↦ (readDepth depth).bind fun _ ↦
        (applyWords _ attributes).bind fun _ ↦ .ok _
  | interface name group value base =>
    exact (requireContext _ _ _).bind fun _ ↦ (readQuantity _ group).bind fun _ ↦
      (readQuantity _ value).bind fun _ ↦ (boundQuantity _ _ _).bind fun _ ↦
        (boundQuantity _ _ _).bind fun _ ↦ .ok _
  | method name type depth =>
    exact (requireContext _ _ _).bind fun _ ↦ (requireContext _ _ _).bind fun _ ↦
      (readDepth depth).bind fun _ ↦ .ok _
  | standardMethod name =>
    exact (requireContext _ _ _).bind fun _ ↦ (requireContext _ _ _).bind fun _ ↦ .ok _
  | enumeration flags name base =>
    exact (requireContext _ _ _).bind fun _ ↦ (error rfl).ite (ok _)
  | variant name value =>
    exact (requireContext _ _ _).bind fun _ ↦ (requireContext _ _ _).bind fun _ ↦
      (requireContext _ _ _).bind fun e ↦ (readVariantOf s e name value).bind fun _ ↦ .ok _
  | struct name => exact (requireContext _ _ _).bind fun _ ↦ .ok _
  | field name type depth =>
    exact (requireContext _ _ _).bind fun _ ↦ (requireContext _ _ _).bind fun _ ↦
      (readDepth depth).bind fun _ ↦ .ok _
  | guid name value =>
    refine (requireContext _ _ _).bind fun _ ↦ ?_
    split
    · exact .error rfl
    · exact .ok _

theorem declare (d : Declaration) : FileIndependent (s.declare d) := by
  intro fault h
  rw [State.declare] at h
  cases hread : s.read d with
  | error other =>
    rw [hread] at h
    cases h
    exact read s d fault hread
  | ok e => rw [hread] at h; cases h

end FileIndependent

end NativeApi

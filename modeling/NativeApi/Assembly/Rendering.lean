import NativeApi.Diagnostic

/-!
# Renderings

Assembly text is written from the top to the bottom, and writing may meet something that has no
encoding. It ends there, but what stands before it has been written. A `Rendering` is therefore a
text together with the fault that ended it, if one did, and `++` puts a rendering behind another
unless the first one ended early.
-/

namespace NativeApi

/-- A text and the fault that ended it early. -/
structure Rendering where
  text : Text
  fault : Option Fault
  deriving DecidableEq, Repr

namespace Rendering

def empty : Rendering := ⟨[], none⟩

/-- Writes a text. -/
def write (t : Text) : Rendering := ⟨t, none⟩

/-- Ends with a fault. -/
def stop (f : Fault) : Rendering := ⟨[], some f⟩

/-- Writes `s` behind `r`, if `r` did not end early. -/
def append (r s : Rendering) : Rendering :=
  match r.fault with
  | none => ⟨r.text ++ s.text, s.fault⟩
  | some _ => r

instance : Append Rendering := ⟨append⟩

/-- Writes a list of renderings one behind the other. -/
def concat (rs : List Rendering) : Rendering := rs.foldr (· ++ ·) empty

/-! ## Appending -/

@[simp] theorem text_append (r s : Rendering) :
    (r ++ s).text = r.text ++ if r.fault = none then s.text else [] := by
  show (append r s).text = _
  cases h : r.fault <;> simp [append, h]

@[simp] theorem fault_append (r s : Rendering) : (r ++ s).fault = r.fault.or s.fault := by
  show (append r s).fault = _
  cases h : r.fault <;> simp [append, h]

theorem ext {r s : Rendering} (ht : r.text = s.text) (hf : r.fault = s.fault) : r = s := by
  cases r; cases s; cases ht; cases hf; rfl

theorem append_assoc (r s t : Rendering) : r ++ s ++ t = r ++ (s ++ t) := by
  apply ext
  · cases hr : r.fault <;> cases hs : s.fault <;> simp [hr, hs]
  · cases hr : r.fault <;> simp [hr]

@[simp] theorem empty_append (r : Rendering) : empty ++ r = r := ext rfl rfl

@[simp] theorem append_empty (r : Rendering) : r ++ empty = r := by
  apply ext
  · cases hr : r.fault <;> simp [empty]
  · cases hr : r.fault <;> simp [empty, hr]

/-! ## Layout -/

/-- The white space at the start of a line inside `level` blocks. -/
def indent (level : Nat) : Text := List.replicate (4 * level) Text.blank

/-- A block in braces, each brace on a line of its own. -/
def block (level : Nat) (body : Rendering) : Rendering :=
  write (indent level ++ "\x7b\n") ++ body ++ write (indent level ++ "\x7d\n")

end Rendering

end NativeApi

import NativeApi.Proofs.Encodable
import NativeApi.Proofs.Operand
import NativeApi.Proofs.Reachable

/-!
# Named fields

A blob with one named field says itself how its value is to be read: the element type stands in
front of the name, and both element types that are used here are signed. Array sizes are written as
unsigned words of the same widths, so what is read back is the array size only while the sign bit is
clear. An array size in the upper half of its range is read as a negative number, which is less by
the bound of the form (`array_size_reads_back`).

The comment beside the blob shows the array size itself in either case.
-/

namespace NativeApi

open Text (Numeral)

/-! ## Signed words -/

namespace LittleEndian

/-- The integer that a list of bytes denotes in two's complement. -/
def signed (b : Blob) : Int := Int.bmod (value b) (Nat.pow 256 b.length)

/-- A word that is read as signed keeps the lower half of its range and moves the upper one below
zero. -/
theorem signed_bytes {width n : Nat} (h : n < Nat.pow 256 width) :
    signed (bytes width n)
      = if 2 * n < Nat.pow 256 width then (n : Int) else n - Nat.pow 256 width := by
  have hmod : (n : Int) % (Nat.pow 256 width : Nat) = n := by
    rw [← Int.natCast_emod, Nat.mod_eq_of_lt h]
  rw [signed, length_bytes, value_bytes, Nat.mod_eq_of_lt h, Int.bmod_def, hmod]
  generalize Nat.pow 256 width = bound at h ⊢
  by_cases hhalf : 2 * n < bound
  · have hlower : (n : Int) < (bound + 1) / 2 := by omega
    rw [if_pos hlower, if_pos hhalf]
  · have hupper : ¬(n : Int) < (bound + 1) / 2 := by omega
    rw [if_neg hupper, if_neg hhalf]

end LittleEndian

/-! ## Reading blobs -/

/-- A named field: its element type, its name and the bytes of its value. -/
structure NamedField where
  elementType : UInt8
  name : Text
  word : Blob
  deriving DecidableEq, Repr

namespace NamedField

/-- How many bytes the values of an element type take: signed words of 16 and of 32 bits. -/
def width? (elementType : UInt8) : Option Nat :=
  if elementType = 0x06 then some 2 else if elementType = 0x08 then some 4 else none

/-- Reads a blob that has one named field and no other argument: the prolog `01 00`, one named
argument, and the byte for a field. Behind the name stands one word of the element type and nothing
else. -/
def ofBlob? (b : Blob) : Option NamedField :=
  if b.take 5 = [0x01, 0x00, 0x01, 0x00, 0x53] then
    match b.drop 5 with
    | elementType :: length :: rest =>
      let word := rest.drop length.toNat
      if length.toNat ≤ 0x7F ∧ width? elementType = some word.length then
        some ⟨elementType, rest.take length.toNat, word⟩
      else none
    | _ => none
  else none

/-- The value of the field. -/
def value (f : NamedField) : Int := LittleEndian.signed f.word

/-- A named field is read back from the blob that was made for it. -/
theorem ofBlob?_namedField? {elementType : UInt8} {name : Text} {n width : Nat} {blob : Blob}
    (h : Attribute.namedField? elementType name n width = some blob)
    (hwidth : width? elementType = some width) :
    ofBlob? blob = some ⟨elementType, name, LittleEndian.bytes width n⟩ := by
  rw [Attribute.namedField?, CountedString.short?, LittleEndian.encode?] at h
  by_cases hname : name.length ≤ CountedString.shortLimit
  · by_cases hn : n < Nat.pow 256 width
    · rw [if_pos hname, if_pos hn] at h
      have hblob := Option.some.inj h
      have hfront : blob.take 5 = [0x01, 0x00, 0x01, 0x00, 0x53] := by
        rw [← hblob]
        rfl
      have hback : blob.drop 5 = elementType :: UInt8.ofNat name.length
          :: (name ++ LittleEndian.bytes width n) := by
        rw [← hblob]
        rfl
      have hshort : name.length ≤ 0x7F := hname
      have hlength : (UInt8.ofNat name.length).toNat = name.length := by
        rw [UInt8.toNat_ofNat']
        omega
      rw [ofBlob?, if_pos hfront, hback]
      simp only [hlength, List.drop_left, List.take_left, LittleEndian.length_bytes]
      rw [if_pos ⟨hshort, hwidth⟩]
    · rw [if_pos hname, if_neg hn] at h
      cases h
  · rw [if_neg hname] at h
    cases h

end NamedField

/-! ## Array sizes -/

/-- The forms of array sizes, each with the name of its field and the bound of its words. -/
inductive SizeField : SizeForm → Text → Nat → Prop
  | inArgument : SizeField .inArgument "CountParamIndex" 0x10000
  | constant : SizeField .constant "CountConst" 0x100000000

namespace SizeForm

/-- The field that an array size of the form sets. -/
def fieldName : SizeForm → Text
  | inArgument => "CountParamIndex"
  | constant => "CountConst"

def elementType : SizeForm → UInt8
  | inArgument => 0x06
  | constant => 0x08

/-- How many bytes an array size of the form takes. -/
def width : SizeForm → Nat
  | inArgument => 2
  | constant => 4

variable (form : SizeForm)

theorem sizeField : SizeField form form.fieldName form.bound := by
  cases form with
  | inArgument => exact .inArgument
  | constant => exact .constant

theorem bound_eq : form.bound = Nat.pow 256 form.width := by cases form <;> rfl

theorem width?_elementType : NamedField.width? form.elementType = some form.width := by
  cases form <;> rfl

theorem blob?_size (n : Nat) :
    (form.size n).blob? = Attribute.namedField? form.elementType form.fieldName n form.width := by
  cases form <;> rfl

theorem comment_size (n : Nat) :
    (form.size n).comment = form.fieldName ++ " = " ++ Text.decimal n := by
  cases form <;> rfl

variable {form}

/-- An array size within the bound of its form has a blob, which gives its field the size in two's
complement. -/
theorem exists_field_of_lt {n : Nat} (h : n < form.bound) :
    ∃ blob field, (form.size n).blob? = some blob ∧ NamedField.ofBlob? blob = some field ∧
      field.name = form.fieldName ∧
      field.value = if 2 * n < form.bound then (n : Int) else n - form.bound := by
  rw [bound_eq] at h ⊢
  have hname : form.fieldName.length ≤ CountedString.shortLimit := by cases form <;> decide
  have hblob : (form.size n).blob?.isSome := by
    rw [blob?_size]
    exact (Attribute.isSome_namedField?_iff hname).mpr h
  obtain ⟨blob, hblob⟩ := Option.isSome_iff_exists.mp hblob
  have hfield := NamedField.ofBlob?_namedField? (form.blob?_size n ▸ hblob) form.width?_elementType
  exact ⟨blob, _, hblob, hfield, rfl, LittleEndian.signed_bytes h⟩

/-- A word for an array size tells its form and its digits. -/
theorem mark_append_inj {other : SizeForm} {digits others : Text}
    (h : form.mark ++ digits = other.mark ++ others) : form = other ∧ digits = others := by
  cases form with
  | inArgument =>
    cases other with
    | inArgument => exact ⟨rfl, List.append_cancel_left h⟩
    | constant => cases h
  | constant =>
    cases other with
    | inArgument => cases h
    | constant => exact ⟨rfl, List.append_cancel_left h⟩

end SizeForm

namespace Argument

variable {a b : Argument} {words : List Text} {form : SizeForm} {digits : Text}

/-- The attribute that gives an array size stands among the attributes of an argument. -/
theorem text_attributes_of_size {size : ArraySize} {blob : Blob} (hsize : a.size = some size)
    (hblob : size.blob? = some blob) (level : Nat) (function : Text) (position : Nat) :
    ∃ before after, (a.attributes level function position).text
      = before ++ customAttribute (level + 1)
          (platformAttribute "NativeArrayInfoAttribute::.ctor()") blob size.comment ++ after := by
  have hpayload : a.hasPayload = true := by simp [hasPayload, hsize]
  have hattribute : a.sizeAttribute (level + 1) function
      = Rendering.write (customAttribute (level + 1)
          (platformAttribute "NativeArrayInfoAttribute::.ctor()") blob size.comment) := by
    simp only [sizeAttribute, hsize, hblob]
  rw [attributes, if_pos hpayload, hattribute, Rendering.text_append, Rendering.text_append,
    Rendering.fault_append, Rendering.fault_write, Rendering.fault_write, Option.none_or,
    if_pos rfl, if_pos rfl]
  exact ⟨_, _, rfl⟩

/-- An array size stays when more words are applied. -/
theorem Takes.size_eq {size : ArraySize} {word : Text} (h : a.Takes word b)
    (ha : a.size = some size) : b.size = some size := by
  cases h with
  | nothing => exact ha
  | const => exact ha
  | comOut => exact ha
  | size hword hnone hsize =>
    rw [hnone] at ha
    cases ha

/-- A word for an array size gives an argument that takes it the size of its digits. -/
theorem Takes.size?_eq (h : a.Takes (form.mark ++ digits) b) :
    ∃ size, form.size? digits = some size ∧ b.size = some size := by
  generalize hmark : form.mark ++ digits = word at h
  cases h with
  | nothing => cases form <;> cases hmark
  | const => cases form <;> cases hmark
  | comOut => cases form <;> cases hmark
  | size hword hnone hsize =>
    obtain ⟨hother, -⟩ := SizeForm.ofWord?_eq_some_iff.mp hword
    obtain ⟨rfl, rfl⟩ := SizeForm.mark_append_inj (hmark.trans hother)
    exact ⟨_, hsize, rfl⟩

theorem exists_size_of_mem (h : words.foldlM applyWord a = .ok b)
    (hmem : form.mark ++ digits ∈ words) :
    ∃ size, form.size? digits = some size ∧ b.size = some size := by
  induction words generalizing a with
  | nil => cases hmem
  | cons word words ih =>
    rw [List.foldlM_cons, bind_eq_ok] at h
    obtain ⟨next, hword, hwords⟩ := h
    rcases List.mem_cons.mp hmem with rfl | hmem
    · obtain ⟨size, hsize, hnext⟩ := (applyWord_eq_ok.mp hword).size?_eq
      exact ⟨size, hsize, foldlM_applyWord_induction (fun _ _ _ ha h ↦ h.size_eq ha) hwords hnext⟩
    · exact ih hwords hmem

/-- The comment of the size attribute of an argument shows `n` for a field, and its blob gives the
field the value `i`. -/
def ShowsSize (a : Argument) (name : Text) (n : Nat) (i : Int) : Prop :=
  ∃ size blob field, a.size = some size ∧ size.blob? = some blob ∧
    (∀ level function position, ∃ before after, (a.attributes level function position).text
      = before ++ customAttribute (level + 1)
          (platformAttribute "NativeArrayInfoAttribute::.ctor()") blob
          (name ++ " = " ++ Text.decimal n) ++ after) ∧
    NamedField.ofBlob? blob = some field ∧ field.name = name ∧ field.value = i

end Argument

/-- **Array sizes read back.** Where an argument is read whose attribute words have one for an array
size, its digits denote a number within the bound of the form. The size attribute shows the number
in its comment and gives it to the field of the form as a word, which is the number itself if the
sign bit is clear and less by the bound otherwise. -/
theorem array_size_reads_back {s : State} {optional : Bool}
    {direction name type depth attributes digits : Text} {a : Argument} {form : SizeForm}
    (h : s.read (.argument optional direction name type depth attributes) = .ok (.argument a))
    (hword : form.mark ++ digits ∈ Text.splitOn Text.blank attributes) :
    ∃ field bound n, SizeField form field bound ∧ Numeral 10 digits n ∧ n < bound ∧
      a.ShowsSize field n (if 2 * n < bound then (n : Int) else n - bound) := by
  have hreads := (State.read_eq_ok.mp h).1
  cases hreads with
  | argument hdepth hwords =>
    obtain ⟨size, hsize, ha⟩ := Argument.exists_size_of_mem hwords hword
    obtain ⟨n, hn, hlt, rfl⟩ := SizeForm.size?_eq_some_iff.mp hsize
    obtain ⟨blob, field, hblob, hfield, hname, hvalue⟩ := SizeForm.exists_field_of_lt hlt
    have htext := Argument.text_attributes_of_size ha hblob
    rw [form.comment_size] at htext
    exact ⟨_, _, n, form.sizeField, Text.number?_eq_some_iff.mp hn, hlt, _, blob, field, ha, hblob,
      htext, hfield, hname, hvalue⟩

/-- A session with a function pointer to give arguments to. -/
def callbackSession : Session :=
  ((Call.source (fun _ ↦ none)
    ⟨"callbacks", ["meta\tApi\t1.0.0.0", "fptr\tCallback\tvoid\t0"]⟩).perform
      Session.initial).session

/-- An argument whose array size is given by another one at an index. -/
def indexedArgument (index : Nat) : Argument :=
  ⟨"items", ⟨"BYTE", 1, none⟩, .input, false, false, false, some (.inArgument index)⟩

/-- The greatest index has all bits set, so it is read back as `-1`. -/
theorem array_size_reads_back_greatest :
    callbackSession.state.read (.argument false "in" "items" "BYTE" "1" "ca65535")
        = .ok (.argument (indexedArgument 65535)) ∧
      SizeForm.inArgument.mark ++ "65535" ∈ Text.splitOn Text.blank "ca65535" ∧
      (indexedArgument 65535).ShowsSize "CountParamIndex" 65535 (-1) := by
  have hread : callbackSession.state.read (.argument false "in" "items" "BYTE" "1" "ca65535")
      = .ok (.argument (indexedArgument 65535)) := by
    rfl
  have hword : SizeForm.inArgument.mark ++ "65535" ∈ Text.splitOn Text.blank "ca65535" := by
    decide
  have hnumber : Text.number? 10 "65535" = some 65535 := by decide
  obtain ⟨field, bound, n, hform, hn, -, hshows⟩ := array_size_reads_back hread hword
  rw [← Text.number?_eq_some_iff, hnumber] at hn
  cases hn
  cases hform
  exact ⟨hread, hword, hshows⟩

/-- Array sizes in the upper half are accepted and shown, but not read back. -/
theorem array_size_changes_sign :
    ¬∀ (c : Session), Reachable c → ∀ (optional : Bool)
      (direction name type depth attributes digits : Text) (a : Argument) (form : SizeForm),
      c.state.read (.argument optional direction name type depth attributes) = .ok (.argument a) →
      form.mark ++ digits ∈ Text.splitOn Text.blank attributes →
      ∃ n, Numeral 10 digits n ∧ a.ShowsSize form.fieldName n n := by
  intro h
  have hread : callbackSession.state.read (.argument false "in" "items" "BYTE" "1" "ca32768")
      = .ok (.argument (indexedArgument 32768)) := by
    rfl
  have hword : SizeForm.inArgument.mark ++ "32768" ∈ Text.splitOn Text.blank "ca32768" := by
    decide
  obtain ⟨n, hn, size, blob, field, hsize, hblob, -, hfield, -, hvalue⟩ :=
    h callbackSession (.call .initial _) _ _ _ _ _ _ _ _ _ hread hword
  have hnumber : Text.number? 10 "32768" = some 32768 := by decide
  rw [← Text.number?_eq_some_iff, hnumber] at hn
  cases hn
  cases hsize
  cases hblob
  cases hfield
  revert hvalue
  decide

end NativeApi

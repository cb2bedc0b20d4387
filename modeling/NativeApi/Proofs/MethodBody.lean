import NativeApi.Path
import NativeApi.Proofs.PrintedLines

/-!
# Method bodies

The body of a method tells what is attached to its arguments: below a line with the position of an
argument come its attributes, and arguments without any are passed over. The body is therefore the
text of a list of parts, of which each is either a position or a mark, and a mark is what one
attribute says.

Where the names of enumerations have no line feed, the text of a part ends where that of the next
one begins, whatever that is, so a list of parts can be read back from its text
(`BodyPart.flatMap_text_inj`). From the list, the marks of each argument can be read back, because
positions stand between them and positions increase (`methodBody_inj`).
-/

namespace NativeApi

open Text (newline)
open Rendering (write indent)

/-! ## Texts that can be taken apart -/

namespace Text

/-- Two texts up to the first separator. -/
theorem append_cons_inj {separator : UInt8} {t u r s : Text} (ht : separator ∉ t)
    (hu : separator ∉ u) (h : t ++ separator :: r = u ++ separator :: s) : t = u ∧ r = s := by
  have hpieces := congrArg (splitOn separator) h
  rw [splitOn_append_cons ht, splitOn_append_cons hu, List.cons.injEq] at hpieces
  refine ⟨hpieces.1, ?_⟩
  rw [← joinWith_splitOn separator r, hpieces.2, joinWith_splitOn]

/-- Two texts that start with a line. -/
theorem OneLine.append_newline_inj {t u r s : Text} (ht : t.OneLine) (hu : u.OneLine)
    (h : t ++ "\n" ++ r = u ++ "\n" ++ s) : t = u ∧ r = s := by
  rw [List.append_assoc, List.append_assoc] at h
  exact append_cons_inj ht hu h

theorem decimal_inj {n k : Nat} (h : decimal n = decimal k) : n = k := by
  -- The characters of a numeral are found again from its bytes.
  have hcharacters (n : Nat) :
      (decimal n).map (fun b ↦ Char.ofNat b.toNat) = Nat.toDigits 10 n := by
    rw [decimal, List.map_map]
    refine (List.map_congr_left fun c hc ↦ ?_).trans (List.map_id _)
    have hdigit := Nat.isDigit_of_mem_toDigits (by decide) (by decide) hc
    rw [Char.isDigit, Bool.and_eq_true, decide_eq_true_iff, decide_eq_true_iff] at hdigit
    have hhigh : c.val.toNat ≤ 57 := hdigit.2
    have hbyte : c.toUInt8.toNat = c.toNat := by
      rw [show c.toUInt8.toNat = c.val.toNat % 256 from UInt32.toNat_toUInt8 c.val]
      exact Nat.mod_eq_of_lt (by omega)
    rw [Function.comp_apply, hbyte, Char.ofNat_toNat, id]
  have hdigits := congrArg (List.map fun b : UInt8 ↦ Char.ofNat b.toNat) h
  rw [hcharacters, hcharacters] at hdigits
  rw [← Nat.ofDigitChars_ten_toDigits (n := n), hdigits, Nat.ofDigitChars_ten_toDigits]

end Text

/-! ## Custom attributes -/

/-- Behind hexadecimal digits, a comment can be told from the digits. -/
theorem remark_inj {b c : Blob} {comment other : Text}
    (h : Hex.dump b ++ remark comment = Hex.dump c ++ remark other) : comment = other := by
  have hdump (b : Blob) : Path.slash ∉ Hex.dump b := fun hmem ↦
    Hex.forall_mem_dump (Q := (· ≠ Path.slash)) (by decide) (by decide) b _ hmem rfl
  have hremark {t : Text} (ht : t ≠ []) : remark t = " " ++ Path.slash :: ("/ " ++ t) := by
    rw [remark, Text.showIf, if_pos (by simpa using ht)]
    rfl
  have hnil : remark [] = [] := rfl
  have hpresent {b c : Blob} {t : Text} (ht : t ≠ []) :
      Hex.dump b ++ remark [] ≠ Hex.dump c ++ remark t := by
    intro h
    rw [hnil, List.append_nil, hremark ht] at h
    have hmem : Path.slash ∈ Hex.dump c ++ (" " ++ Path.slash :: ("/ " ++ t)) := by simp
    rw [← h] at hmem
    exact hdump b hmem
  by_cases hcomment : comment = []
  · by_cases hother : other = []
    · rw [hcomment, hother]
    · rw [hcomment] at h
      exact absurd h (hpresent hother)
  · by_cases hother : other = []
    · rw [hother] at h
      exact absurd h.symm (hpresent hcomment)
    · rw [hremark hcomment, hremark hother, ← List.append_assoc, ← List.append_assoc] at h
      have hfree (b : Blob) : Path.slash ∉ Hex.dump b ++ (" " : Text) := fun hmem ↦
        (List.mem_append.mp hmem).elim (hdump b) (by decide)
      exact List.append_cancel_left (Text.append_cons_inj (hfree b) (hfree c) h).2

theorem indent_succ (level : Nat) : indent (level + 1) = indent level ++ indent 1 := by
  rw [indent, indent, indent, List.replicate_append_replicate]
  congr 1

/-- A custom attribute ends where what follows begins, and shows its constructor and its comment. -/
theorem customAttribute_append_inj {level : Nat} {constructor comment constructor' comment' : Text}
    {b c : Blob} {r s : Text} (hconstructor : constructor.OneLine) (hcomment : comment.OneLine)
    (hconstructor' : constructor'.OneLine) (hcomment' : comment'.OneLine)
    (h : customAttribute level constructor b comment ++ r
      = customAttribute level constructor' c comment' ++ s) :
    constructor = constructor' ∧ comment = comment' ∧ r = s := by
  have hopening : Text.OneLine " = (" := by decide
  have hlines (constructor : Text) (b : Blob) (comment r : Text) :
      customAttribute level constructor b comment ++ r
        = (indent level ++ ".custom instance void ") ++ ((constructor ++ " = (") ++ "\n"
          ++ (indent (level + 1) ++ ((Hex.dump b ++ remark comment) ++ "\n"
            ++ ((indent level ++ ")\n") ++ r)))) := by
    rw [customAttribute, show (" = (\n" : Text) = " = (" ++ "\n" from rfl]
    simp only [List.append_assoc]
  rw [hlines, hlines] at h
  obtain ⟨hfirst, h⟩ := Text.OneLine.append_newline_inj (hconstructor.append hopening)
    (hconstructor'.append hopening) (List.append_cancel_left h)
  obtain ⟨hsecond, h⟩ := Text.OneLine.append_newline_inj
    ((Hex.oneLine_dump b).append (oneLine_remark hcomment))
    ((Hex.oneLine_dump c).append (oneLine_remark hcomment')) (List.append_cancel_left h)
  exact ⟨List.append_cancel_right hfirst, remark_inj hsecond, List.append_cancel_left h⟩

/-! ## Marks -/

/-- The attributes of arguments. -/
inductive MarkKind
  | const
  | comOut
  | size
  | association
  deriving DecidableEq, Repr

namespace MarkKind

/-- The constructor of the attribute. -/
def constructor : MarkKind → Text
  | const => "ConstAttribute::.ctor()"
  | comOut => "ComOutPtrAttribute::.ctor()"
  | size => "NativeArrayInfoAttribute::.ctor()"
  | association => "AssociatedEnumAttribute::.ctor(string)"

theorem constructor_inj {k l : MarkKind} (h : k.constructor = l.constructor) : k = l := by
  cases k <;> cases l <;> revert h <;> decide

theorem oneLine_constructor (k : MarkKind) : (platformAttribute k.constructor).OneLine := by
  refine oneLine_platformAttribute ?_
  cases k <;> exact .literal (by decide)

end MarkKind

/-- What an attribute says of an argument. -/
inductive Mark
  | const
  | comOut
  | size (s : ArraySize)
  | association (enumeration : Text)
  deriving DecidableEq, Repr

namespace Mark

def kind : Mark → MarkKind
  | const => .const
  | comOut => .comOut
  | size _ => .size
  | association _ => .association

/-- The blob of the attribute, if it has one. -/
def blob? : Mark → Option Blob
  | const => some Attribute.marker
  | comOut => some Attribute.marker
  | size s => s.blob?
  | association enumeration => Attribute.associatedEnum? enumeration

/-- What the comment behind the blob says. -/
def comment : Mark → Text
  | const => []
  | comOut => []
  | size s => s.comment
  | association enumeration => enumeration

/-- The attribute. -/
def text (level : Nat) (x : Mark) : Text :=
  customAttribute level (platformAttribute x.kind.constructor) (x.blob?.getD []) x.comment

end Mark

theorem ArraySize.comment_inj {s t : ArraySize} (h : s.comment = t.comment) : s = t := by
  have hapart : Apart "CountParamIndex = " "CountConst = " := .literal (by decide)
  have hne (index count : Nat) : (inArgument index).comment ≠ (constant count).comment := by
    intro h
    have hstart : "CountConst = " <+: (inArgument index).comment := h ▸ List.prefix_append _ _
    exact hapart.not_start (List.prefix_append _ _) hstart
  cases s with
  | inArgument index =>
    cases t with
    | inArgument other => rw [Text.decimal_inj (List.append_cancel_left h)]
    | constant count => exact absurd h (hne index count)
  | constant count =>
    cases t with
    | inArgument index => exact absurd h.symm (hne index count)
    | constant other => rw [Text.decimal_inj (List.append_cancel_left h)]

namespace Mark

variable {x y : Mark} {level : Nat} {r s : Text}

/-- A mark is told by its kind and its comment. -/
theorem eq_of_kind (hkind : x.kind = y.kind) (hcomment : x.comment = y.comment) : x = y := by
  cases x <;> cases y <;> cases hkind
  · rfl
  · rfl
  · rw [ArraySize.comment_inj hcomment]
  · exact congrArg association hcomment

theorem text_append_inj (hx : x.comment.OneLine) (hy : y.comment.OneLine)
    (h : x.text level ++ r = y.text level ++ s) : x = y ∧ r = s := by
  obtain ⟨hconstructor, hcomment, hrest⟩ := customAttribute_append_inj
    x.kind.oneLine_constructor hx y.kind.oneLine_constructor hy h
  have hkind : x.kind = y.kind := MarkKind.constructor_inj (List.append_cancel_left hconstructor)
  exact ⟨eq_of_kind hkind hcomment, hrest⟩

theorem indent_prefix_text (x : Mark) (level : Nat) : indent level <+: x.text level := by
  rw [text, customAttribute]
  simp only [List.append_assoc]
  exact List.prefix_append _ _

/-- All lines of an attribute are indented. -/
theorem wholeLines_text (hx : x.comment.OneLine) (level : Nat) :
    (x.text level).WholeLines fun line ↦ indent level <+: line := by
  have hdeep : indent level <+: indent (level + 1) := ⟨indent 1, (indent_succ level).symm⟩
  refine wholeLines_customAttribute_of level _ x.kind.oneLine_constructor hx ?_ ?_ ?_
  · exact fun line h ↦ (List.prefix_append _ _).trans h
  · exact fun line h ↦ hdeep.trans h
  · exact List.prefix_append _ _

end Mark

/-! ## Parts of a body -/

/-- A position of an argument, or what an attribute says of the argument at the last position. -/
inductive BodyPart
  | position (k : Nat)
  | attached (x : Mark)
  deriving DecidableEq, Repr

/-- How a line with a position of an argument begins. -/
def positionHead (level : Nat) : Text := indent level ++ ".param ["

/-- The line with a position of an argument. -/
def positionLine (level k : Nat) : Text := positionHead level ++ Text.decimal k ++ "]\n"

theorem positionLine_eq (level k : Nat) :
    positionLine level k = positionHead level ++ Text.decimal k ++ "]" ++ "\n" := by
  rw [positionLine, show ("]\n" : Text) = "]" ++ "\n" from rfl, ← List.append_assoc]

theorem oneLine_position (level k : Nat) :
    (positionHead level ++ Text.decimal k ++ "]").OneLine := by
  have hhead : (positionHead level).OneLine := .append (oneLine_indent level) (by decide)
  exact .append (hhead.append (Text.oneLine_decimal k)) (by decide)

theorem positionHead_apart (level : Nat) : Apart (positionHead level) (indent (level + 1)) := by
  have happart : Apart ".param [" (indent 1) := by decide
  rw [positionHead, indent_succ, Apart, List.prefix_append_right_inj, List.prefix_append_right_inj]
  exact happart

namespace BodyPart

variable {x y : BodyPart} {level : Nat} {r s : Text}

def text (level : Nat) : BodyPart → Text
  | position k => positionLine level k
  | attached x => x.text (level + 1)

/-- The name of the enumeration, if there is one, has no line feed. -/
def OneLine : BodyPart → Prop
  | position _ => True
  | attached x => x.comment.OneLine

theorem position_ne_attached {k : Nat} {x : Mark} :
    (position k).text level ++ r ≠ (attached x).text level ++ s := by
  intro h
  have hposition : positionHead level <+: (position k).text level ++ r := by
    rw [text, positionLine]
    simp only [List.append_assoc]
    exact List.prefix_append _ _
  have hattached : indent (level + 1) <+: (attached x).text level ++ s :=
    (x.indent_prefix_text _).trans (List.prefix_append _ _)
  exact (positionHead_apart level).not_start hposition (h ▸ hattached)

theorem text_append_inj (hx : x.OneLine) (hy : y.OneLine)
    (h : x.text level ++ r = y.text level ++ s) : x = y ∧ r = s := by
  cases x with
  | position k =>
    cases y with
    | attached y => exact absurd h position_ne_attached
    | position l =>
      rw [text, text, positionLine_eq, positionLine_eq] at h
      obtain ⟨hfirst, hrest⟩ :=
        Text.OneLine.append_newline_inj (oneLine_position level k) (oneLine_position level l) h
      have hdecimal := List.append_cancel_left (List.append_cancel_right hfirst)
      rw [Text.decimal_inj hdecimal]
      exact ⟨rfl, hrest⟩
  | attached x =>
    cases y with
    | position l => exact absurd h.symm position_ne_attached
    | attached y =>
      obtain ⟨rfl, hrest⟩ := Mark.text_append_inj hx hy h
      exact ⟨rfl, hrest⟩

theorem text_ne_nil (x : BodyPart) (level : Nat) : x.text level ≠ [] := by
  cases x with
  | position k => exact List.append_ne_nil_of_right_ne_nil _ (by decide)
  | attached x => exact List.append_ne_nil_of_right_ne_nil _ (by decide)

/-- **Parts can be read back from their text.** -/
theorem flatMap_text_inj {xs ys : List BodyPart} (hxs : ∀ x ∈ xs, x.OneLine)
    (hys : ∀ y ∈ ys, y.OneLine) (h : xs.flatMap (text level) = ys.flatMap (text level)) :
    xs = ys := by
  induction xs generalizing ys with
  | nil =>
    cases ys with
    | nil => rfl
    | cons y ys =>
      rw [List.flatMap_nil, List.flatMap_cons] at h
      exact absurd (List.append_eq_nil_iff.mp h.symm).1 (y.text_ne_nil level)
  | cons x xs ih =>
    cases ys with
    | nil =>
      rw [List.flatMap_nil, List.flatMap_cons] at h
      exact absurd (List.append_eq_nil_iff.mp h).1 (x.text_ne_nil level)
    | cons y ys =>
      rw [List.forall_mem_cons] at hxs hys
      rw [List.flatMap_cons, List.flatMap_cons] at h
      obtain ⟨rfl, hrest⟩ := text_append_inj hxs.1 hys.1 h
      rw [ih hxs.2 hys.2 hrest]

end BodyPart

/-! ## Bodies of arguments -/

namespace Argument

variable {a b : Argument}

/-- What is attached to the argument, in the order in which it is written. -/
def marks (a : Argument) : List Mark :=
  (if a.const then [.const] else []) ++ (if a.comOut then [.comOut] else [])
    ++ a.size.toList.map .size ++ a.type.backingEnum.toList.map .association

/-- The argument's position and its marks, if it has any. -/
def bodyParts (position : Nat) (a : Argument) : List BodyPart :=
  if a.hasPayload then .position position :: a.marks.map .attached else []

theorem const_mem_marks_iff : Mark.const ∈ a.marks ↔ a.const = true := by simp [marks]

theorem comOut_mem_marks_iff : Mark.comOut ∈ a.marks ↔ a.comOut = true := by simp [marks]

theorem size_mem_marks_iff {s : ArraySize} : Mark.size s ∈ a.marks ↔ a.size = some s := by
  simp [marks]

theorem association_mem_marks_iff {name : Text} :
    Mark.association name ∈ a.marks ↔ a.type.backingEnum = some name := by
  simp [marks]

theorem marks_eq_nil_iff : a.marks = [] ↔ a.hasPayload = false := by
  simp [marks, hasPayload, and_assoc]

/-- The comments of marks are fixed, but for the names of enumerations. -/
theorem oneLine_of_mem_marks (h : ∀ name ∈ a.type.backingEnum, name.OneLine) {x : Mark}
    (hx : x ∈ a.marks) : x.comment.OneLine := by
  cases x with
  | const => exact List.not_mem_nil
  | comOut => exact List.not_mem_nil
  | size s => exact s.oneLine_comment
  | association name => exact h name (association_mem_marks_iff.mp hx)

theorem text_markerAttribute (level : Nat) (flag : Bool) (x : Mark)
    (hblob : x.blob? = some Attribute.marker) (hcomment : x.comment = []) :
    markerAttribute level flag x.kind.constructor
      = (if flag then [x] else []).flatMap (Mark.text level) := by
  cases flag with
  | false => rfl
  | true =>
    rw [if_pos rfl, List.flatMap_singleton, Mark.text, hblob, hcomment]
    rfl

theorem text_sizeAttribute {level : Nat} {function : Text}
    (h : (a.sizeAttribute level function).fault = none) :
    (a.sizeAttribute level function).text
      = (a.size.toList.map Mark.size).flatMap (Mark.text level) := by
  rw [sizeAttribute] at h ⊢
  cases hsize : a.size with
  | none => rfl
  | some size =>
    cases hblob : size.blob? with
    | none => simp [hsize, hblob, Rendering.stop] at h
    | some blob =>
      simp only [hblob, Option.toList_some, List.map_cons, List.map_nil, List.flatMap_singleton]
      simp only [Mark.text, Mark.blob?, hblob]
      rfl

theorem text_associatedEnum {level : Nat} {type : TypeReference}
    (h : (associatedEnum level type.backingEnum).fault = none) :
    (associatedEnum level type.backingEnum).text
      = (type.backingEnum.toList.map Mark.association).flatMap (Mark.text level) := by
  cases hname : type.backingEnum with
  | none => rfl
  | some name =>
    rw [hname, associatedEnum] at h
    rw [associatedEnum]
    cases hblob : Attribute.associatedEnum? name with
    | none => simp [hblob, Rendering.stop] at h
    | some blob =>
      simp only [Option.toList_some, List.map_cons, List.map_nil, List.flatMap_singleton]
      simp only [Mark.text, Mark.blob?, hblob]
      rfl

/-- The attributes of an argument are the text of its parts of the body. -/
theorem text_attributes {level : Nat} {function : Text} {position : Nat}
    (h : (a.attributes level function position).fault = none) :
    (a.attributes level function position).text
      = (a.bodyParts position).flatMap (BodyPart.text level) := by
  rw [bodyParts]
  by_cases hpayload : a.hasPayload
  · rw [attributes, if_pos hpayload] at h ⊢
    rw [Rendering.fault_append, Option.or_eq_none_iff] at h
    obtain ⟨hfirst, hassociation⟩ := h
    rw [Rendering.text_append, if_pos hfirst, text_associatedEnum hassociation]
    rw [Rendering.fault_append, Option.or_eq_none_iff] at hfirst
    rw [Rendering.text_append, if_pos hfirst.1, text_sizeAttribute hfirst.2, if_pos hpayload]
    have hattached : (a.marks.map BodyPart.attached).flatMap (BodyPart.text level)
        = a.marks.flatMap (Mark.text (level + 1)) := List.flatMap_map ..
    have hconst := text_markerAttribute (level + 1) a.const .const rfl rfl
    have hcomOut := text_markerAttribute (level + 1) a.comOut .comOut rfl rfl
    rw [List.flatMap_cons, hattached, marks, List.flatMap_append, List.flatMap_append,
      List.flatMap_append, ← hconst, ← hcomOut, ← List.append_assoc, ← List.append_assoc,
      ← List.append_assoc]
    rfl
  · rw [attributes, if_neg hpayload, if_neg hpayload]
    rfl

end Argument

/-- The body for all arguments from a position on. -/
def methodBody : Nat → List Argument → List BodyPart
  | _, [] => []
  | position, a :: rest => a.bodyParts position ++ methodBody (position + 1) rest

theorem text_argumentAttributes {level : Nat} {function : Text} {position : Nat}
    {as : List Argument} (h : (argumentAttributes level function position as).fault = none) :
    (argumentAttributes level function position as).text
      = (methodBody position as).flatMap (BodyPart.text level) := by
  induction as generalizing position with
  | nil => rfl
  | cons a as ih =>
    rw [argumentAttributes, Rendering.fault_append, Option.or_eq_none_iff] at h
    rw [argumentAttributes, Rendering.text_append, if_pos h.1, Argument.text_attributes h.1, ih h.2,
      methodBody, List.flatMap_append]

theorem oneLine_methodBody {as : List Argument}
    (has : ∀ a ∈ as, ∀ name ∈ a.type.backingEnum, name.OneLine) (position : Nat) :
    ∀ x ∈ methodBody position as, x.OneLine := by
  induction as generalizing position with
  | nil => exact fun _ hx ↦ absurd hx List.not_mem_nil
  | cons a as ih =>
    obtain ⟨ha, has⟩ := List.forall_mem_cons.mp has
    refine List.forall_mem_append.mpr ⟨?_, ih has (position + 1)⟩
    rw [Argument.bodyParts]
    split
    · refine List.forall_mem_cons.mpr ⟨trivial, fun x hx ↦ ?_⟩
      obtain ⟨mark, hmark, rfl⟩ := List.mem_map.mp hx
      exact Argument.oneLine_of_mem_marks ha hmark
    · exact fun _ hx ↦ absurd hx List.not_mem_nil

/-! ### Reading marks back -/

namespace BodyPart

/-- The list is empty or starts with a position that is not before the given one. -/
def StartsFrom (position : Nat) (xs : List BodyPart) : Prop :=
  ∀ x ∈ xs.head?, ∃ k, position ≤ k ∧ x = .position k

theorem StartsFrom.mono {k l : Nat} {xs : List BodyPart} (h : StartsFrom l xs) (hkl : k ≤ l) :
    StartsFrom k xs := by
  intro x hx
  obtain ⟨j, hj, hposition⟩ := h x hx
  exact ⟨j, Nat.le_trans hkl hj, hposition⟩

/-- Marks end where a position follows. -/
theorem map_attached_append_inj {k l : Nat} {xs ys : List Mark} {us vs : List BodyPart}
    (hus : StartsFrom k us) (hvs : StartsFrom l vs)
    (h : xs.map attached ++ us = ys.map attached ++ vs) : xs = ys ∧ us = vs := by
  have hmark {k : Nat} {us : List BodyPart} {x : Mark} {rest : List BodyPart}
      (hus : StartsFrom k us) : us ≠ attached x :: rest := by
    rintro rfl
    obtain ⟨j, -, hj⟩ := hus _ rfl
    cases hj
  induction xs generalizing ys with
  | nil =>
    cases ys with
    | nil => exact ⟨rfl, h⟩
    | cons y ys => exact absurd h (hmark hus)
  | cons x xs ih =>
    cases ys with
    | nil => exact absurd h.symm (hmark hvs)
    | cons y ys =>
      obtain ⟨hxy, hrest⟩ := List.cons.inj h
      obtain ⟨rfl, rfl⟩ := ih hrest
      cases hxy
      exact ⟨rfl, rfl⟩

end BodyPart

theorem startsFrom_methodBody (position : Nat) (as : List Argument) :
    BodyPart.StartsFrom position (methodBody position as) := by
  induction as generalizing position with
  | nil => exact fun _ hx ↦ absurd hx (Option.not_mem_none _)
  | cons a as ih =>
    rw [methodBody, Argument.bodyParts]
    split
    · exact fun x hx ↦ ⟨position, Nat.le_refl _, (Option.mem_some_iff.mp hx).symm⟩
    · exact (ih (position + 1)).mono (Nat.le_succ _)

/-- **Marks can be read back from a body.** -/
theorem methodBody_inj {position : Nat} {as bs : List Argument} (hlength : as.length = bs.length)
    (h : methodBody position as = methodBody position bs) :
    List.Forall₂ (fun a b ↦ a.marks = b.marks) as bs := by
  induction as generalizing position bs with
  | nil =>
    rw [List.eq_nil_of_length_eq_zero hlength.symm]
    exact .nil
  | cons a as ih =>
    obtain ⟨b, bs, rfl⟩ := List.exists_cons_of_length_eq_add_one hlength.symm
    have hlength : as.length = bs.length := Nat.succ.inj hlength
    have has := startsFrom_methodBody (position + 1) as
    have hbs := startsFrom_methodBody (position + 1) bs
    -- If only one of the arguments has marks, its position stands where a later one is due.
    have hlater {xs us : List BodyPart} (hus : BodyPart.StartsFrom (position + 1) us) :
        BodyPart.position position :: xs ≠ us := by
      rintro rfl
      obtain ⟨k, hk, heq⟩ := hus _ rfl
      cases heq
      omega
    rw [methodBody, methodBody, Argument.bodyParts, Argument.bodyParts] at h
    cases ha : a.hasPayload with
    | true =>
      cases hb : b.hasPayload with
      | true =>
        rw [if_pos ha, if_pos hb] at h
        obtain ⟨hmarks, hrest⟩ :=
          BodyPart.map_attached_append_inj has hbs (List.cons.inj h).2
        exact .cons hmarks (ih hlength hrest)
      | false =>
        rw [if_pos ha, hb] at h
        exact absurd h (hlater hbs)
    | false =>
      cases hb : b.hasPayload with
      | true =>
        rw [if_pos hb, ha] at h
        exact absurd h.symm (hlater has)
      | false =>
        rw [ha, hb] at h
        exact .cons ((Argument.marks_eq_nil_iff.mpr ha).trans
          (Argument.marks_eq_nil_iff.mpr hb).symm) (ih hlength h)

/-! ### Lines with positions -/

/-- Tells whether a line begins as one with a position does. -/
def isPositionLine (level : Nat) (line : Text) : Bool := (positionHead level).isPrefixOf line

theorem isPositionLine_iff {level : Nat} {line : Text} :
    isPositionLine level line = true ↔ positionHead level <+: line := List.isPrefixOf_iff_prefix

/-- The position, if the part is one. -/
def BodyPart.position? : BodyPart → Option Nat
  | position k => some k
  | attached _ => none

/-- The lines with positions are those of parts that are positions. -/
theorem BodyPart.filter_lines {level : Nat} {xs : List BodyPart} (hxs : ∀ x ∈ xs, x.OneLine) :
    (Text.lines (xs.flatMap (text level))).filter (isPositionLine level)
      = (xs.filterMap position?).map (positionLine level) := by
  induction xs with
  | nil => rfl
  | cons x xs ih =>
    rw [List.forall_mem_cons] at hxs
    have hrest := ih hxs.2
    rw [List.flatMap_cons]
    cases x with
    | position k =>
      have hposition : isPositionLine level (positionLine level k) = true := by
        rw [isPositionLine_iff, positionLine, List.append_assoc]
        exact List.prefix_append _ _
      have hlines (rest : Text) :
          (positionLine level k ++ rest).lines = positionLine level k :: rest.lines := by
        rw [positionLine_eq, List.append_assoc]
        exact Text.lines_append_newline (oneLine_position level k) rest
      rw [text, hlines, List.filter_cons_of_pos hposition, hrest]
      rfl
    | attached x =>
      have hlines := x.wholeLines_text hxs.1 (level + 1)
      have hnone : (x.text (level + 1)).lines.filter (isPositionLine level) = [] := by
        refine List.filter_eq_nil_iff.mpr fun line hline ↦ ?_
        rw [isPositionLine_iff]
        exact fun hhead ↦ (positionHead_apart level).not_start hhead
          (hlines.forall_mem_lines line hline)
      rw [text, hlines.lines_append, List.filter_append, hnone, List.nil_append, hrest]
      rfl

/-- The positions in a body are those of the arguments with attributes. -/
theorem filterMap_methodBody (position : Nat) (as : List Argument) :
    (methodBody position as).filterMap BodyPart.position?
      = ((as.zipIdx position).filter (·.1.hasPayload)).map (·.2) := by
  have hmarks (xs : List Mark) :
      (xs.map BodyPart.attached).filterMap BodyPart.position? = [] := by
    rw [List.filterMap_map]
    exact List.filterMap_eq_nil_iff.mpr fun _ _ ↦ rfl
  induction as generalizing position with
  | nil => rfl
  | cons a as ih =>
    rw [methodBody, Argument.bodyParts, List.filterMap_append, ih, List.zipIdx_cons]
    cases ha : a.hasPayload with
    | true =>
      rw [if_pos rfl, List.filter_cons_of_pos (by exact ha), List.map_cons,
        List.filterMap_cons_some (by rfl), hmarks]
      rfl
    | false =>
      rw [List.filter_cons_of_neg (by simp [ha])]
      rfl

end NativeApi

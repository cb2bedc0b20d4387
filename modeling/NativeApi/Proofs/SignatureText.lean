import Mathlib.Data.List.Forall2
import NativeApi.Proofs.MethodBody

/-!
# Signatures in the text

A method shows its arguments twice: in its argument list, with tags, type and name, and in its body,
with what is attached to them. Together they determine all that is known of an argument, if the
pieces that come from a model cannot be taken for something else: a name and the text of a type have
no quote, the text of a type does not begin with a tag, and the name of an enumeration has no line
feed.

Both texts are read from the left. A declaration ends with the second quote, what follows it tells
whether it is the last one, and the tags before the type come in a fixed order. The body is read
back part by part (`methodBody_inj`).
-/

namespace NativeApi

open Text (quoted)
open Rendering (indent)

/-! ## Tags and quotes -/

namespace Text

variable {flag other : Bool} {tag t u : Text}

def quote : UInt8 := 0x27

theorem quoted_eq (t : Text) : quoted t = quote :: (t ++ [quote]) := rfl

theorem showIf_append_inj (ht : ¬tag <+: t) (hu : ¬tag <+: u)
    (h : showIf flag tag ++ t = showIf other tag ++ u) : flag = other ∧ t = u := by
  cases flag with
  | true =>
    cases other with
    | true => exact ⟨rfl, List.append_cancel_left h⟩
    | false => exact absurd ⟨t, h⟩ hu
  | false =>
    cases other with
    | true => exact absurd ⟨u, h.symm⟩ ht
    | false => exact ⟨rfl, h⟩

theorem not_prefix_showIf {before : Text} (hapart : Apart before tag) (ht : ¬tag <+: t)
    (flag : Bool) : ¬tag <+: showIf flag before ++ t := by
  cases flag with
  | true => exact hapart.not_start (List.prefix_append before t)
  | false => exact ht

end Text

theorem Direction.eq_of_passes {d e : Direction} (hin : d.passesIn = e.passesIn)
    (hout : d.passesOut = e.passesOut) : d = e := by
  cases d <;> cases e <;> cases hin <;> cases hout <;> rfl

/-! ## Argument lists -/

/-- What stands before the type of an argument. -/
def argumentTags : List Text := ["[in] ", "[out] ", "[opt] "]

namespace Argument

/-- The texts of an argument cannot be taken for what stands around them. -/
structure Readable (m : Model) (a : Argument) : Prop where
  name : Text.quote ∉ a.name
  type : Text.quote ∉ m.ilType a.type
  tags : ∀ tag ∈ argumentTags, ¬tag <+: m.ilType a.type
  enumeration : ∀ name ∈ a.type.backingEnum, name.OneLine

instance (m : Model) (a : Argument) : Decidable (a.Readable m) :=
  decidable_of_iff (Text.quote ∉ a.name ∧ Text.quote ∉ m.ilType a.type ∧
      (∀ tag ∈ argumentTags, ¬tag <+: m.ilType a.type) ∧
      ∀ name ∈ a.type.backingEnum, name.OneLine)
    ⟨fun ⟨n, t, g, e⟩ ↦ ⟨n, t, g, e⟩, fun ⟨n, t, g, e⟩ ↦ ⟨n, t, g, e⟩⟩

/-- The arguments are declared alike, each in its own model. -/
structure DeclaredAs (m n : Model) (a b : Argument) : Prop where
  direction : a.direction = b.direction
  optional : a.optional = b.optional
  type : m.ilType a.type = n.ilType b.type
  name : a.name = b.name

variable {m n : Model} {a b : Argument} {r s : Text}

/-- The tags of an argument and the text of its type. -/
def taggedType (m : Model) (a : Argument) : Text :=
  Text.showIf a.direction.passesIn "[in] " ++ (Text.showIf a.direction.passesOut "[out] "
    ++ (Text.showIf a.optional "[opt] " ++ m.ilType a.type))

theorem declaration_append (m : Model) (a : Argument) (r : Text) :
    a.declaration m ++ r
      = (a.taggedType m ++ " ") ++ Text.quote :: (a.name ++ Text.quote :: r) := by
  rw [declaration, taggedType, Text.quoted_eq]
  simp only [List.append_assoc, List.cons_append, List.nil_append]

theorem Readable.quote_notMem (ha : a.Readable m) :
    Text.quote ∉ a.taggedType m ++ (" " : Text) := by
  have hfree := Text.compositional_notMem Text.quote
  have hin := hfree.showIf (t := "[in] ") (by decide) a.direction.passesIn
  have hout := hfree.showIf (t := "[out] ") (by decide) a.direction.passesOut
  have hopt := hfree.showIf (t := "[opt] ") (by decide) a.optional
  have htagged : Text.quote ∉ a.taggedType m :=
    hfree.append _ _ hin (hfree.append _ _ hout (hfree.append _ _ hopt ha.type))
  exact hfree.append _ _ htagged (by decide)

theorem Readable.taggedType_inj (ha : a.Readable m) (hb : b.Readable n)
    (h : a.taggedType m = b.taggedType n) :
    a.direction = b.direction ∧ a.optional = b.optional ∧ m.ilType a.type = n.ilType b.type := by
  have hopt {m : Model} {a : Argument} (ha : a.Readable m) :
      ¬("[opt] " : Text) <+: m.ilType a.type := ha.tags _ (by simp [argumentTags])
  have hout {m : Model} {a : Argument} (ha : a.Readable m) :
      ¬("[out] " : Text) <+: Text.showIf a.optional "[opt] " ++ m.ilType a.type :=
    Text.not_prefix_showIf (by decide) (ha.tags _ (by simp [argumentTags])) _
  have hin {m : Model} {a : Argument} (ha : a.Readable m) :
      ¬("[in] " : Text) <+: Text.showIf a.direction.passesOut "[out] "
        ++ (Text.showIf a.optional "[opt] " ++ m.ilType a.type) :=
    Text.not_prefix_showIf (by decide) (Text.not_prefix_showIf (by decide)
      (ha.tags _ (by simp [argumentTags])) _) _
  obtain ⟨hpassesIn, h⟩ := Text.showIf_append_inj (hin ha) (hin hb) h
  obtain ⟨hpassesOut, h⟩ := Text.showIf_append_inj (hout ha) (hout hb) h
  obtain ⟨hoptional, h⟩ := Text.showIf_append_inj (hopt ha) (hopt hb) h
  exact ⟨Direction.eq_of_passes hpassesIn hpassesOut, hoptional, h⟩

/-- A declaration shows how the argument is declared, and where it ends. -/
theorem Readable.declaration_inj (ha : a.Readable m) (hb : b.Readable n)
    (h : a.declaration m ++ r = b.declaration n ++ s) : DeclaredAs m n a b ∧ r = s := by
  rw [declaration_append, declaration_append] at h
  obtain ⟨htype, h⟩ := Text.append_cons_inj ha.quote_notMem hb.quote_notMem h
  obtain ⟨hname, hrest⟩ := Text.append_cons_inj ha.name hb.name h
  obtain ⟨hdirection, hoptional, htype⟩ := ha.taggedType_inj hb (List.append_cancel_right htype)
  exact ⟨⟨hdirection, hoptional, htype, hname⟩, hrest⟩

end Argument

/-- What stands behind a declaration, by the arguments that follow. -/
def separator (rest : List Argument) : Text := if rest.isEmpty then "\n" else ",\n"

theorem argumentLines_cons (m : Model) (level : Nat) (a : Argument) (rest : List Argument) :
    argumentLines m level (a :: rest)
      = indent level ++ (a.declaration m ++ (separator rest ++ argumentLines m level rest)) := by
  cases rest with
  | nil => simp only [argumentLines, separator, List.isEmpty_nil, if_true, List.append_assoc,
      List.append_nil]
  | cons b rest =>
    rw [argumentLines, separator]
    · simp only [List.isEmpty_cons, Bool.false_eq_true, if_false, List.append_assoc]
    · exact List.cons_ne_nil b rest

theorem separator_append_inj {as bs : List Argument} {t u : Text}
    (h : separator as ++ t = separator bs ++ u) : t = u := by
  have hapart : Apart "\n" ",\n" := by decide
  have hne (t u : Text) : ("\n" ++ t : Text) ≠ ",\n" ++ u := fun h ↦
    hapart.not_start (List.prefix_append _ t) ⟨u, h.symm⟩
  rw [separator, separator] at h
  generalize as.isEmpty = last at h
  generalize bs.isEmpty = lastOther at h
  cases last with
  | true =>
    cases lastOther with
    | true => exact List.append_cancel_left h
    | false => exact absurd h (hne t u)
  | false =>
    cases lastOther with
    | true => exact absurd h.symm (hne u t)
    | false => exact List.append_cancel_left h

/-- **An argument list shows how its arguments are declared.** -/
theorem argumentLines_inj {m n : Model} {level : Nat} {as bs : List Argument}
    (has : ∀ a ∈ as, a.Readable m) (hbs : ∀ b ∈ bs, b.Readable n)
    (h : argumentLines m level as = argumentLines n level bs) :
    List.Forall₂ (Argument.DeclaredAs m n) as bs := by
  have hne (m : Model) (a : Argument) (rest : List Argument) :
      argumentLines m level (a :: rest) ≠ [] := by
    rw [argumentLines_cons, Argument.declaration_append]
    simp
  induction as generalizing bs with
  | nil =>
    cases bs with
    | nil => exact .nil
    | cons b bs => exact absurd h.symm (hne n b bs)
  | cons a as ih =>
    cases bs with
    | nil => exact absurd h (hne m a as)
    | cons b bs =>
      rw [List.forall_mem_cons] at has hbs
      rw [argumentLines_cons, argumentLines_cons] at h
      obtain ⟨hdeclared, hrest⟩ := has.1.declaration_inj hbs.1 (List.append_cancel_left h)
      exact .cons hdeclared (ih has.2 hbs.2 (separator_append_inj hrest))

/-! ## Signatures -/

/-- The arguments agree in all that is known of them, their types as far as they are shown. -/
structure Argument.AgreesWith (m n : Model) (a b : Argument) : Prop extends DeclaredAs m n a b where
  const : a.const = b.const
  comOut : a.comOut = b.comOut
  size : a.size = b.size
  backingEnum : a.type.backingEnum = b.type.backingEnum

theorem Argument.DeclaredAs.agreesWith {m n : Model} {a b : Argument} (h : DeclaredAs m n a b)
    (hmarks : a.marks = b.marks) : a.AgreesWith m n b where
  toDeclaredAs := h
  const := by rw [Bool.eq_iff_iff, ← const_mem_marks_iff, hmarks, const_mem_marks_iff]
  comOut := by rw [Bool.eq_iff_iff, ← comOut_mem_marks_iff, hmarks, comOut_mem_marks_iff]
  size := Option.ext fun s ↦ by rw [← size_mem_marks_iff, hmarks, size_mem_marks_iff]
  backingEnum := Option.ext fun name ↦ by
    rw [← association_mem_marks_iff, hmarks, association_mem_marks_iff]

/-- **A signature determines its arguments.** Two argument lists, each of a model of its own, have
the same text, and so have the bodies that are written below them, to the end. Where the texts of
the arguments cannot be taken for what stands around them, the lists agree argument by argument. In
the body, the lines with positions are those of the arguments that something is attached to, in
their order. -/
theorem signature_determines_arguments {m n : Model} {level bodyLevel : Nat}
    {function other : Text} {as bs : List Argument} (has : ∀ a ∈ as, a.Readable m)
    (hbs : ∀ b ∈ bs, b.Readable n) (hlines : argumentLines m level as = argumentLines n level bs)
    (hasEnd : (argumentAttributes bodyLevel function 1 as).fault = none)
    (hbsEnd : (argumentAttributes bodyLevel other 1 bs).fault = none)
    (hbody : (argumentAttributes bodyLevel function 1 as).text
      = (argumentAttributes bodyLevel other 1 bs).text) :
    List.Forall₂ (Argument.AgreesWith m n) as bs ∧
      (argumentAttributes bodyLevel function 1 as).text.lines.filter (isPositionLine bodyLevel)
        = ((as.zipIdx 1).filter (·.1.hasPayload)).map fun p ↦ positionLine bodyLevel p.2 := by
  have hdeclared := argumentLines_inj has hbs hlines
  have hasLines := oneLine_methodBody (fun a ha ↦ (has a ha).enumeration) 1
  have hbsLines := oneLine_methodBody (fun b hb ↦ (hbs b hb).enumeration) 1
  rw [text_argumentAttributes hasEnd] at hbody ⊢
  rw [text_argumentAttributes hbsEnd] at hbody
  have hparts : methodBody 1 as = methodBody 1 bs :=
    BodyPart.flatMap_text_inj hasLines hbsLines hbody
  have hmarks := methodBody_inj hdeclared.length_eq hparts
  refine ⟨hmarks.mp (fun _ _ hab hdeclared ↦ hdeclared.agreesWith hab) hdeclared, ?_⟩
  rw [BodyPart.filter_lines hasLines, filterMap_methodBody, List.map_map]
  rfl

/-- The arguments of a function that reads data. The last but one has a type of the given name. -/
def readArguments (type : Text) : List Argument :=
  [⟨"data", ⟨"BYTE", 1, none⟩, .output, true, false, false, some (.inArgument 1)⟩,
    ⟨"length", .named type, .input, false, false, false, none⟩,
    ⟨"mode", ⟨"UINT32", 0, some "Mode"⟩, .both, false, true, false, none⟩]

/-- Names of types are not shown, if they have the same text. -/
theorem signature_determines_arguments_up_to_type_names :
    readArguments "DWORD" ≠ readArguments "UINT32" ∧
      List.Forall₂ (Argument.AgreesWith Model.empty Model.empty) (readArguments "DWORD")
        (readArguments "UINT32") ∧
      (argumentAttributes 2 "Read" 1 (readArguments "DWORD")).text.lines.filter (isPositionLine 2)
        = [positionLine 2 1, positionLine 2 3] := by
  have hreadable : ∀ a ∈ readArguments "DWORD", a.Readable Model.empty := by decide
  have hother : ∀ a ∈ readArguments "UINT32", a.Readable Model.empty := by decide
  have hlines : argumentLines Model.empty 3 (readArguments "DWORD")
      = argumentLines Model.empty 3 (readArguments "UINT32") := by decide
  have hend : (argumentAttributes 2 "Read" 1 (readArguments "DWORD")).fault = none := by
    decide
  have hotherEnd : (argumentAttributes 2 "Peek" 1 (readArguments "UINT32")).fault = none := by
    decide
  have hbody : (argumentAttributes 2 "Read" 1 (readArguments "DWORD")).text
      = (argumentAttributes 2 "Peek" 1 (readArguments "UINT32")).text := by decide +kernel
  obtain ⟨hagree, hpositions⟩ :=
    signature_determines_arguments hreadable hother hlines hend hotherEnd hbody
  exact ⟨by decide, hagree, hpositions⟩

end NativeApi

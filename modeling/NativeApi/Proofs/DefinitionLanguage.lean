import NativeApi.Proofs.Tracking

/-!
# The definition language

Which lists of lines a fresh session accepts can be said without a state: `InLanguage` is a
condition on the lines alone. Lines have a known keyword and a number of fields in its range, and
the declarations in them are well formed. Blank lines and comments do not matter.

Include lines are left out here. What they stand for is the matter of `NativeApi.Proofs.Expansion`.
-/

namespace NativeApi

/-! ## Lines -/

namespace Keyword

/-- The least number of operands of a line. -/
def leastOperands : Keyword → Nat
  | header => 2
  | functionPointer => 3
  | dll => 1
  | function => 3
  | argument => 4
  | optionalArgument => 4
  | interface => 4
  | method => 3
  | standardMethod => 1
  | inclusion => 1
  | enumeration => 2
  | flags => 2
  | variant => 2
  | struct => 1
  | field => 3
  | guid => 2

/-- The greatest number of operands of a line: some lines may have one more. -/
def mostOperands (k : Keyword) : Nat :=
  if k ∈ [functionPointer, function, argument, optionalArgument] then k.leastOperands + 1
  else k.leastOperands

end Keyword

/-- The line includes a file, or attempts to. -/
def Line.isInclusion : Line → Bool
  | .command k => decide (k.keyword = .inclusion)
  | _ => false

/-- A line that is no blank line has a known keyword and a number of fields in its range. -/
structure FieldsFit (raw : Text) : Prop where
  known : ∀ word, Line.ofText raw ≠ .unknown word
  counted : ∀ k, Line.ofText raw = .command k →
    k.keyword.leastOperands ≤ k.operands.length ∧ k.operands.length ≤ k.keyword.mostOperands

/-- The declaration in a line, if the line is a declaration with as many fields as it takes. -/
def Line.declaration? : Line → Option Declaration
  | .command k =>
    match Statement.ofCommand? k with
    | some (.declare d) => some d
    | _ => none
  | _ => none

/-- The declarations in a list of lines, in order. -/
def declarationsIn (lines : List Text) : List Declaration :=
  lines.filterMap fun raw ↦ (Line.ofText raw).declaration?

/-- The condition on a list of lines. -/
structure InLanguage (lines : List Text) : Prop where
  fields : ∀ raw ∈ lines, FieldsFit raw
  wellFormed : WellFormed (declarationsIn lines)

theorem declarationsIn_cons (raw : Text) (lines : List Text) :
    declarationsIn (raw :: lines)
      = (Line.ofText raw).declaration?.toList ++ declarationsIn lines := by
  cases h : (Line.ofText raw).declaration? <;> simp [declarationsIn, h]

theorem Statement.isSome_ofCommand?_iff {k : Command} :
    (Statement.ofCommand? k).isSome ↔
      k.keyword.leastOperands ≤ k.operands.length ∧
        k.operands.length ≤ k.keyword.mostOperands := by
  obtain ⟨keyword, operands⟩ := k
  -- The longest pattern has five operands, so six cases of lists decide each keyword.
  rcases operands with _ | ⟨a, _ | ⟨b, _ | ⟨c, _ | ⟨d, _ | ⟨e, _ | ⟨f, operands⟩⟩⟩⟩⟩⟩ <;>
    cases keyword <;>
    simp [ofCommand?, Declaration.argument?, Declaration.enumeration?, Keyword.leastOperands,
      Keyword.mostOperands]

/-! ### Lines without includes -/

theorem Statement.keyword_of_inclusion {k : Command} {path : Text}
    (h : Statement.ofCommand? k = some (.inclusion path)) : k.keyword = .inclusion := by
  obtain ⟨keyword, operands⟩ := k
  cases keyword with
  | inclusion => rfl
  | argument => simp [ofCommand?] at h
  | optionalArgument => simp [ofCommand?] at h
  | enumeration => simp [ofCommand?] at h
  | flags => simp [ofCommand?] at h
  | _ =>
    simp only [ofCommand?] at h
    split at h <;> cases h

section Lines

variable {included : Nat → Text → List Item} {file : Text} {raw : Text}

/-- The item of a line that includes nothing. -/
theorem expandLine_cases (included : Nat → Text → List Item) (file : Text)
    (h : (Line.ofText raw).isInclusion = false) (number : Nat) :
    (FieldsFit raw ∧ (Line.ofText raw).declaration? = none ∧
        expandLine included file number raw = []) ∨
      (∃ d, FieldsFit raw ∧ (Line.ofText raw).declaration? = some d ∧
        expandLine included file number raw = [⟨.declaration d, file, number⟩]) ∨
      ∃ fault, ¬FieldsFit raw ∧ (Line.ofText raw).declaration? = none ∧
        expandLine included file number raw = [⟨.invalid fault, file, number⟩] := by
  rw [expandLine]
  cases hline : Line.ofText raw with
  | blank =>
    refine .inl ⟨⟨fun word hword ↦ ?_, fun k hk ↦ ?_⟩, rfl, rfl⟩
    · rw [hline] at hword
      cases hword
    · rw [hline] at hk
      cases hk
  | unknown word => exact .inr (.inr ⟨_, fun hfit ↦ hfit.known word hline, rfl, rfl⟩)
  | command k =>
    have hcount := Statement.isSome_ofCommand?_iff (k := k)
    cases hstatement : Statement.ofCommand? k with
    | none =>
      refine .inr (.inr ⟨.fieldCount k.keyword, fun hfit ↦ ?_, ?_, by simp only [hstatement]⟩)
      · have hsome := hcount.mpr (hfit.counted k hline)
        rw [hstatement] at hsome
        cases hsome
      · simp only [Line.declaration?, hstatement]
    | some statement =>
      cases statement with
      | inclusion path =>
        rw [hline, Line.isInclusion, Statement.keyword_of_inclusion hstatement] at h
        cases h
      | declare d =>
        refine .inr (.inl ⟨d, ⟨fun word hword ↦ ?_, fun other hother ↦ ?_⟩, ?_,
          by simp only [hstatement]⟩)
        · rw [hline] at hword
          cases hword
        · rw [hline] at hother
          cases hother
          exact hcount.mp (Option.isSome_of_eq_some hstatement)
        · simp only [Line.declaration?, hstatement]

theorem element_expandLines_ne_boundary {lines : List Text}
    (h : ∀ raw ∈ lines, (Line.ofText raw).isInclusion = false) (number : Nat) :
    ∀ i ∈ expandLines included file number lines, ∀ obstacle, i.element ≠ .boundary obstacle := by
  induction lines generalizing number with
  | nil => exact fun i hi ↦ absurd hi List.not_mem_nil
  | cons raw lines ih =>
    rw [List.forall_mem_cons] at h
    rw [expandLines, List.forall_mem_append]
    refine ⟨?_, ih h.2 (number + 1)⟩
    rcases expandLine_cases included file h.1 number with
      ⟨-, -, hitems⟩ | ⟨d, -, -, hitems⟩ | ⟨fault, -, -, hitems⟩ <;> rw [hitems]
    · exact fun i hi ↦ absurd hi List.not_mem_nil
    · rw [List.forall_mem_singleton]
      exact fun obstacle hobstacle ↦ by cases hobstacle
    · rw [List.forall_mem_singleton]
      exact fun obstacle hobstacle ↦ by cases hobstacle

/-- No item is invalid exactly if the fields of all lines fit. -/
theorem element_expandLines_ne_invalid_iff {lines : List Text}
    (h : ∀ raw ∈ lines, (Line.ofText raw).isInclusion = false) (number : Nat) :
    (∀ i ∈ expandLines included file number lines, ∀ fault, i.element ≠ .invalid fault) ↔
      ∀ raw ∈ lines, FieldsFit raw := by
  induction lines generalizing number with
  | nil => simp [expandLines]
  | cons raw lines ih =>
    rw [List.forall_mem_cons] at h
    rw [expandLines, List.forall_mem_append, ih h.2 (number + 1), List.forall_mem_cons]
    refine and_congr_left fun _ ↦ ?_
    rcases expandLine_cases included file h.1 number with
      ⟨hfit, -, hitems⟩ | ⟨d, hfit, -, hitems⟩ | ⟨fault, hfit, -, hitems⟩ <;> rw [hitems]
    · exact iff_of_true (fun i hi ↦ absurd hi List.not_mem_nil) hfit
    · rw [List.forall_mem_singleton]
      exact iff_of_true (fun fault hfault ↦ by cases hfault) hfit
    · rw [List.forall_mem_singleton]
      exact iff_of_false (fun hne ↦ hne fault rfl) hfit

/-- The declarations among the items are those in the lines. -/
theorem declarationsOf_expandLines {lines : List Text}
    (h : ∀ raw ∈ lines, (Line.ofText raw).isInclusion = false) (number : Nat) :
    declarationsOf (expandLines included file number lines) = declarationsIn lines := by
  induction lines generalizing number with
  | nil => rfl
  | cons raw lines ih =>
    rw [List.forall_mem_cons] at h
    rw [expandLines, declarationsOf, List.filterMap_append, ← declarationsOf, ← declarationsOf,
      ih h.2 (number + 1), declarationsIn_cons]
    rcases expandLine_cases included file h.1 number with
      ⟨-, hline, hitems⟩ | ⟨d, -, hline, hitems⟩ | ⟨fault, -, hline, hitems⟩ <;>
      rw [hitems, hline] <;> rfl

end Lines

/-- The expansion of a source is one of its lines, whatever its include lines become. -/
theorem exists_expand_eq (read : Text → Option Text) (levels : Nat) (source : Source) :
    ∃ included, expand read levels source
      = expandLines included source.path 1 source.lines := by
  cases levels with
  | zero => exact ⟨_, expand.eq_1 read source⟩
  | succ levels => exact ⟨_, expand.eq_2 read source levels⟩

/-- **The definition language.** A fresh session accepts a list of lines without include lines
exactly if the lines are in the language. -/
theorem accepts_iff_inLanguage (read : Text → Option Text) (path : Text) (lines : List Text)
    (h : ∀ raw ∈ lines, (Line.ofText raw).isInclusion = false) :
    (collectSource read ⟨path, lines⟩ Session.initial).success = true ↔ InLanguage lines := by
  obtain ⟨included, hexpand⟩ := exists_expand_eq read includeLimit ⟨path, lines⟩
  -- Acceptance is a replay without boundaries: no invalid item, and a run over the declarations.
  rw [collectSource, collectWithin_eq_replay, hexpand,
    success_replay_iff (element_expandLines_ne_boundary h 1),
    element_expandLines_ne_invalid_iff h, declarationsOf_expandLines h]
  constructor
  · rintro ⟨hfields, hrun⟩
    exact ⟨hfields, exists_run_iff.mp hrun⟩
  · rintro ⟨hfields, hwellFormed⟩
    exact ⟨hfields, exists_run_iff.mpr hwellFormed⟩

/-- Lines of most kinds, with a comment and a blank line among them. A variant is repeated in the
next enumeration, and a function pointer takes a name that an enumeration is based on. -/
def sampleLines : List Text :=
  ["# sample", "meta\tApi\t1.0.0.0", "enum\tMode\tBYTE", "variant\tFast\t255",
    "variant\tSlow\t-128", "", "flags\tOption\tNotify", "variant\tFast\t0x10000",
    "fptr\tNotify\tvoid\t0\t0x2", "variant\tLast\t-1",
    "arg\tinout\titems\tPWSTR\t4294967295\tconst  ca65535", "dll\ta.dll",
    "guid\tID\t\x7b23170F69-40C1-278A-0000-000000010000\x7d", "fn\tStart\tMode\t0\tstdcall"]

theorem inLanguage_sampleLines :
    (∀ raw ∈ sampleLines, (Line.ofText raw).isInclusion = false) ∧ InLanguage sampleLines := by
  have hlines : ∀ raw ∈ sampleLines, (Line.ofText raw).isInclusion = false := by decide +kernel
  refine ⟨hlines, (accepts_iff_inLanguage (fun _ ↦ none) [] sampleLines hlines).mp ?_⟩
  decide +kernel

end NativeApi

import NativeApi.Path
import NativeApi.Proofs.AttributeWords
import NativeApi.Proofs.Comments

/-!
# Walks along paths

A path is walked component by component with a stack of names, and what is cut off a path or put
behind it shows in the walk: a path walks like its parent and then its last component, and a joined
path like its first part and then its second (`Path.walk_parent`, `Path.walk_join`). Slashes in
excess are not walked.
-/

namespace NativeApi

namespace Path

open Text (splitOn joinWith dropTrailing)

variable {p q z : Text} {a : Bool} {stack : List Text}

/-! ## The last slash -/

/-- A path is one component, or has a last slash and one component behind it. -/
theorem cut_cases (p : Text) :
    slash ∉ p ∨ ∃ front z, slash ∉ z ∧ p = front ++ slash :: z := by
  obtain ⟨z, hz, hp⟩ := Text.exists_dropTrailing_append (· != slash) p
  have hslash : slash ∉ z := fun hmem ↦ absurd (hz slash hmem) (by simp)
  cases hfront : (dropTrailing (· != slash) p).getLast? with
  | none =>
    rw [List.getLast?_eq_none_iff] at hfront
    rw [hfront, List.nil_append] at hp
    exact .inl (hp ▸ hslash)
  | some b =>
    have hb := Text.not_of_mem_getLast?_dropTrailing hfront
    obtain rfl : b = slash := by simpa using hb
    obtain ⟨front, hinit⟩ := List.getLast?_eq_some_iff.mp hfront
    rw [hinit, List.append_assoc, List.singleton_append] at hp
    exact .inr ⟨front, z, hslash, hp⟩

theorem fileName_append_slash (front q : Text) : fileName (front ++ slash :: q) = fileName q := by
  obtain ⟨piece, others, hq⟩ := List.exists_cons_of_ne_nil (Text.splitOn_ne_nil slash q)
  rw [fileName, fileName, Text.splitOn_append_separator, hq, List.getLast?_append_cons]

theorem fileName_of_notMem (h : slash ∉ z) : fileName z = z := by
  rw [fileName, Text.splitOn_eq_singleton h]
  rfl

theorem bne_slash_of_mem (h : slash ∉ z) : ∀ b ∈ z, (b != slash) = true := by
  intro b hb
  rw [bne_iff_ne]
  exact ne_of_mem_of_not_mem hb h

theorem dropTrailing_name (h : slash ∉ z) (front : Text) :
    dropTrailing (· != slash) (front ++ slash :: z) = front ++ [slash] := by
  rw [← List.singleton_append, ← List.append_assoc,
    Text.dropTrailing_append_of_forall (bne_slash_of_mem h)]
  exact Text.dropTrailing_eq_self (by simp)

/-! ## Absolute paths -/

theorem isAbsolute_iff : isAbsolute p = true ↔ ∃ rest, p = slash :: rest := by
  rw [isAbsolute, beq_iff_eq, List.head?_eq_some_iff]

theorem isAbsolute_append (h : p ≠ []) (q : Text) : isAbsolute (p ++ q) = isAbsolute p := by
  rw [isAbsolute, isAbsolute, List.head?_append_of_ne_nil _ h]

theorem isAbsolute_of_notMem (h : slash ∉ p) : isAbsolute p = false := by
  rw [Bool.eq_false_iff, ne_eq, isAbsolute_iff]
  rintro ⟨rest, rfl⟩
  exact h List.mem_cons_self

theorem isRoot_iff : isRoot p = true ↔ p ≠ [] ∧ ∀ b ∈ p, b = slash := by
  rw [isRoot, Bool.and_eq_true, isAbsolute_iff, List.all_eq_true]
  simp only [beq_iff_eq]
  constructor
  · rintro ⟨⟨rest, rfl⟩, hall⟩
    exact ⟨List.cons_ne_nil _ _, hall⟩
  · rintro ⟨hne, hall⟩
    obtain ⟨b, rest, rfl⟩ := List.exists_cons_of_ne_nil hne
    exact ⟨⟨rest, by rw [hall b List.mem_cons_self]⟩, hall⟩

theorem fileName_of_isRoot (h : isRoot p) : fileName p = [] := by
  obtain ⟨hne, hall⟩ := isRoot_iff.mp h
  obtain ⟨front, b, rfl⟩ := (List.eq_nil_or_concat p).resolve_left hne
  rw [List.concat_eq_append] at hall ⊢
  rw [hall b List.mem_concat_self, fileName_append_slash]
  rfl

/-! ## Walks -/

/-- The stack behind a path that is walked from a stack on. -/
def walk (absolute : Bool) (stack : List Text) (p : Text) : List Text :=
  (splitOn slash p).foldl (step absolute) stack

theorem components_eq (p : Text) : components p = (walk (isAbsolute p) [] p).reverse := rfl

theorem walk_of_notMem (h : slash ∉ z) : walk a stack z = step a stack z := by
  rw [walk, Text.splitOn_eq_singleton h]
  rfl

theorem step_nil (a : Bool) (stack : List Text) : step a stack [] = stack := if_pos (.inl rfl)

theorem step_here (a : Bool) (stack : List Text) : step a stack here = stack := if_pos (.inr rfl)

@[simp] theorem walk_nil (a : Bool) (stack : List Text) : walk a stack [] = stack :=
  step_nil a stack

theorem walk_append_slash (p q : Text) :
    walk a stack (p ++ slash :: q) = walk a (walk a stack p) q := by
  rw [walk, Text.splitOn_append_separator, List.foldl_append, walk, walk]

/-- Slashes in excess are not walked. -/
theorem walk_slash_cons (q : Text) : walk a stack (slash :: q) = walk a stack q := by
  rw [← List.nil_append (slash :: q), walk_append_slash, walk_nil]

theorem walk_slashes_append (h : ∀ b ∈ z, b = slash) (p : Text) :
    walk a stack (z ++ p) = walk a stack p := by
  induction z with
  | nil => rfl
  | cons b z ih =>
    obtain ⟨rfl, hz⟩ := List.forall_mem_cons.mp h
    rw [List.cons_append, walk_slash_cons, ih hz]

theorem walk_slashes (h : ∀ b ∈ z, b = slash) : walk a stack z = stack := by
  rw [← List.append_nil z, walk_slashes_append h, walk_nil]

theorem walk_append_slashes (h : ∀ b ∈ z, b = slash) (p : Text) :
    walk a stack (p ++ z) = walk a stack p := by
  cases z with
  | nil => rw [List.append_nil]
  | cons b z =>
    obtain ⟨rfl, hz⟩ := List.forall_mem_cons.mp h
    rw [walk_append_slash, walk_slashes hz]

/-! ### Parents -/

theorem parent_of_isRoot (h : isRoot p) : parent p = p := if_pos h

theorem parent_of_notMem (h : slash ∉ p) : parent p = [] := by
  have hroot : isRoot p = false := by rw [isRoot, isAbsolute_of_notMem h, Bool.false_and]
  have hnone : dropTrailing (· != slash) p = [] := by
    rw [Text.dropTrailing_eq_nil_iff, List.all_eq_true]
    exact bne_slash_of_mem h
  simp only [parent, hroot, hnone, isAbsolute_of_notMem h, Bool.and_false]
  rfl

theorem isAbsolute_of_slashes (h : ∀ b ∈ p, b = slash) (q : Text) :
    isAbsolute (p ++ slash :: q) = true := by
  rw [isAbsolute_iff]
  cases p with
  | nil => exact ⟨q, rfl⟩
  | cons b p =>
    obtain ⟨rfl, -⟩ := List.forall_mem_cons.mp h
    exact ⟨p ++ slash :: q, rfl⟩

theorem isRoot_dropTrailing (p : Text) : isRoot (dropTrailing (· == slash) p) = false := by
  rw [Bool.eq_false_iff, ne_eq, isRoot_iff]
  rintro ⟨hne, hall⟩
  have hlast := Text.not_of_mem_getLast?_dropTrailing (List.getLast?_eq_some_getLast hne)
  rw [hall _ (List.getLast_mem hne)] at hlast
  exact absurd hlast (by decide)

/-- A path and its parent: without a slash there is none, the root is its own, and otherwise the
last component goes, with the slashes before it unless they are the root. -/
inductive HasParent : Text → Text → Prop
  | name {p : Text} (h : slash ∉ p) : HasParent p []
  | root {p : Text} (h : isRoot p) : HasParent p p
  | underRoot {slashes z : Text} (hslashes : ∀ b ∈ slashes, b = slash) (hz : slash ∉ z) :
      HasParent (slashes ++ slash :: z) [slash]
  | below {d slashes z : Text} (hslashes : ∀ b ∈ slashes, b = slash) (hz : slash ∉ z) (hd : d ≠ [])
      (hroot : isRoot d = false) : HasParent (d ++ slashes ++ slash :: z) d

/-- The cases of `HasParent` are those in which the parent is computed. -/
theorem hasParent_parent (p : Text) : HasParent p (parent p) := by
  by_cases hroot : isRoot p = true
  · rw [parent_of_isRoot hroot]
    exact .root hroot
  obtain hslash | ⟨front, z, hz, rfl⟩ := cut_cases p
  · rw [parent_of_notMem hslash]
    exact .name hslash
  have hdirectory : dropTrailing (· == slash) (front ++ [slash])
      = dropTrailing (· == slash) front := by
    rw [Text.dropTrailing_append_singleton, if_pos (beq_self_eq_true slash)]
  obtain ⟨slashes, hslashes, hfront⟩ := Text.exists_dropTrailing_append (· == slash) front
  simp only [beq_iff_eq] at hslashes
  by_cases hnone : dropTrailing (· == slash) front = []
  · rw [hnone, List.nil_append] at hfront
    subst hfront
    have habsolute := isAbsolute_of_slashes hslashes z
    have hparent : parent (front ++ slash :: z) = [slash] := by
      simp [parent, hroot, dropTrailing_name hz, hdirectory, hnone, habsolute]
    rw [hparent]
    exact .underRoot hslashes hz
  · have hparent : parent (front ++ slash :: z) = dropTrailing (· == slash) front := by
      simp [parent, hroot, dropTrailing_name hz, hdirectory, hnone]
    rw [hparent]
    conv_lhs => rw [hfront]
    exact .below hslashes hz hnone (isRoot_dropTrailing front)

theorem HasParent.isAbsolute_eq {d : Text} (h : HasParent p d) : isAbsolute d = isAbsolute p := by
  cases h with
  | name h =>
    rw [isAbsolute_of_notMem h]
    rfl
  | root h => rfl
  | underRoot hslashes hz =>
    rw [isAbsolute_of_slashes hslashes]
    rfl
  | below hslashes hz hd hroot => rw [List.append_assoc, isAbsolute_append hd]

theorem isAbsolute_parent (p : Text) : isAbsolute (parent p) = isAbsolute p :=
  (hasParent_parent p).isAbsolute_eq

/-- A path walks like its parent and then its last component. -/
theorem HasParent.walk_eq {d : Text} (h : HasParent p d) :
    walk a stack p = step a (walk a stack d) (fileName p) := by
  cases h with
  | name h => rw [walk_nil, walk_of_notMem h, fileName_of_notMem h]
  | root h => rw [fileName_of_isRoot h, step_nil]
  | underRoot hslashes hz =>
    rw [walk_append_slash, walk_of_notMem hz, fileName_append_slash, fileName_of_notMem hz,
      walk_slashes hslashes, walk_slash_cons, walk_nil]
  | below hslashes hz hd hroot =>
    rw [walk_append_slash, walk_of_notMem hz, fileName_append_slash, fileName_of_notMem hz,
      walk_append_slashes hslashes]

theorem walk_parent (p : Text) :
    walk a stack p = step a (walk a stack (parent p)) (fileName p) := (hasParent_parent p).walk_eq

/-! ### Joined paths -/

theorem join_of_isAbsolute (h : isAbsolute q = true) (p : Text) : join p q = q := if_pos h

theorem nil_join (q : Text) : join [] q = q := by simp [join]

/-- One slash comes between the two parts, and there may be one already. -/
theorem join_cases (h : isAbsolute q = false) (p : Text) :
    p = [] ∧ join p q = q ∨
      ∃ front, (p = front ∨ p = front ++ [slash]) ∧ p ≠ [] ∧ join p q = front ++ slash :: q := by
  by_cases hp : p = []
  · subst hp
    simp [join, h]
  by_cases hlast : p.getLast? = some slash
  · obtain ⟨front, rfl⟩ := List.getLast?_eq_some_iff.mp hlast
    refine .inr ⟨front, .inr rfl, hp, ?_⟩
    simp [join, h]
  · refine .inr ⟨p, .inl rfl, hp, ?_⟩
    simp [join, h, hp, hlast]

theorem mem_join {b : UInt8} (h : b ∈ q) : b ∈ join p q := by
  rw [join]
  split
  · exact h
  · split <;> exact List.mem_append_right _ h

theorem join_eq_nil_iff : join p q = [] ↔ p = [] ∧ q = [] := by
  cases h : isAbsolute q with
  | true =>
    obtain ⟨rest, rfl⟩ := isAbsolute_iff.mp h
    simp [join_of_isAbsolute h]
  | false =>
    obtain ⟨rfl, hjoin⟩ | ⟨front, -, hp, hjoin⟩ := join_cases h p
    · simp [hjoin]
    · simp [hjoin, hp]

theorem isAbsolute_join (p q : Text) : isAbsolute (join p q) = (isAbsolute p || isAbsolute q) := by
  cases h : isAbsolute q with
  | true => rw [join_of_isAbsolute h, h, Bool.or_true]
  | false =>
    rw [Bool.or_false]
    obtain ⟨rfl, hjoin⟩ | ⟨front, rfl | rfl, hp, hjoin⟩ := join_cases h p
    · rw [hjoin, h]
      rfl
    · rw [hjoin, isAbsolute_append hp]
    · rw [hjoin, ← List.singleton_append, ← List.append_assoc, isAbsolute_append hp]

theorem fileName_join (p q : Text) : fileName (join p q) = fileName q := by
  cases h : isAbsolute q with
  | true => rw [join_of_isAbsolute h]
  | false =>
    obtain ⟨-, hjoin⟩ | ⟨front, -, -, hjoin⟩ := join_cases h p
    · rw [hjoin]
    · rw [hjoin, fileName_append_slash]

/-- A path below another is walked from where the other leads. -/
theorem walk_join (h : isAbsolute q = false) (p : Text) :
    walk a stack (join p q) = walk a (walk a stack p) q := by
  obtain ⟨rfl, hjoin⟩ | ⟨front, rfl | rfl, -, hjoin⟩ := join_cases h p
  · rw [hjoin, walk_nil]
  · rw [hjoin, walk_append_slash]
  · rw [hjoin, walk_append_slash, walk_append_slash, walk_nil]

end Path

end NativeApi

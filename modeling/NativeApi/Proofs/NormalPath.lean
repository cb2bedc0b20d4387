import NativeApi.Proofs.PathWalks

/-!
# The normal form of paths

`Path.IsNormal` says on the text alone what a path in normal form looks like. The names that a walk
leaves are settled (`Path.Settled.walk`): walked again they stay as they are, and written below a
root of at most one slash they make a path in normal form (`Path.isNormal_ofComponents`), the one
that any other way to write the root leads to (`Path.normal_ofComponents`).

So a resolved path is in normal form up to one exception. The root of a path that is nothing but
slashes stays as it is written, and the paths resolved below it start with as many slashes.
-/

namespace NativeApi

namespace Path

open Text (splitOn joinWith showIf)

variable {p c R : Text} {a directory : Bool} {names stack pieces : List Text}

/-! ## Settled names -/

/-- Names that walk to themselves: none is empty or stays in place, and `..` is there only where no
name can be taken off, at the start of a relative path. -/
structure Settled (absolute : Bool) (names : List Text) : Prop where
  nil_notMem : [] ∉ names
  here_notMem : here ∉ names
  slash_notMem : ∀ c ∈ names, slash ∉ c
  above_first : names.Pairwise fun c d ↦ d = above → c = above
  above_notMem : absolute = true → above ∉ names

theorem settled_nil (a : Bool) : Settled a [] :=
  ⟨List.not_mem_nil, List.not_mem_nil, fun _ h ↦ absurd h List.not_mem_nil, .nil,
    fun _ ↦ List.not_mem_nil⟩

theorem Settled.of_append {others : List Text} (h : Settled a (names ++ others)) :
    Settled a names where
  nil_notMem hmem := h.nil_notMem (List.mem_append_left _ hmem)
  here_notMem hmem := h.here_notMem (List.mem_append_left _ hmem)
  slash_notMem c hmem := h.slash_notMem c (List.mem_append_left _ hmem)
  above_first := (List.pairwise_append.mp h.above_first).1
  above_notMem ha hmem := h.above_notMem ha (List.mem_append_left _ hmem)

/-- A name can be put behind settled names if it is not `..`, or if they are all `..` too. -/
theorem Settled.append_singleton (h : Settled a names) (hnil : c ≠ []) (hhere : c ≠ here)
    (hslash : slash ∉ c) (habove : c = above → a = false ∧ ∀ d ∈ names, d = above) :
    Settled a (names ++ [c]) where
  nil_notMem := by simp [h.nil_notMem, hnil.symm]
  here_notMem := by simp [h.here_notMem, Ne.symm hhere]
  slash_notMem d hd := by
    obtain hd | rfl := List.mem_append.mp hd |>.imp_right List.mem_singleton.mp
    · exact h.slash_notMem d hd
    · exact hslash
  above_first := by
    rw [List.pairwise_append]
    refine ⟨h.above_first, List.pairwise_singleton _ _, fun d hd e he hlast ↦ ?_⟩
    rw [List.mem_singleton] at he
    exact (habove (he ▸ hlast)).2 d hd
  above_notMem ha hmem := by
    obtain hmem | hlast := List.mem_append.mp hmem |>.imp_right List.mem_singleton.mp
    · exact h.above_notMem ha hmem
    · rw [(habove hlast.symm).1] at ha
      exact absurd ha (by decide)

theorem Settled.all_above (h : Settled a (names ++ [above])) :
    a = false ∧ ∀ d ∈ names, d = above := by
  refine ⟨?_, fun d hd ↦ ?_⟩
  · rw [Bool.eq_false_iff]
    exact fun ha ↦ h.above_notMem ha List.mem_concat_self
  · exact (List.pairwise_append.mp h.above_first).2.2 d hd above (List.mem_singleton_self _) rfl

/-- The proper name of a file: it is not empty and means neither the same directory nor the one
above. -/
structure IsName (c : Text) : Prop where
  ne_nil : c ≠ []
  ne_here : c ≠ here
  ne_above : c ≠ above

theorem step_of_isName (h : IsName c) (stack : List Text) : step a stack c = c :: stack := by
  rw [step.eq_def, if_neg (not_or.mpr ⟨h.ne_nil, h.ne_here⟩), if_neg h.ne_above]

theorem step_above {top : Text} (h : top ≠ above) (below : List Text) :
    step a (top :: below) above = below := if_neg h

theorem step_above_above (below : List Text) :
    step a (above :: below) above = above :: above :: below := rfl

/-- A settled name is put on. -/
theorem Settled.step_eq (h : Settled a (stack.reverse ++ [c])) : step a stack c = c :: stack := by
  have hnil : c ≠ [] := by
    rintro rfl
    exact h.nil_notMem List.mem_concat_self
  have hhere : c ≠ here := by
    rintro rfl
    exact h.here_notMem List.mem_concat_self
  by_cases habove : c = above
  · subst habove
    obtain ⟨rfl, hall⟩ := h.all_above
    cases stack with
    | nil => rfl
    | cons top below =>
      obtain rfl := hall top (List.mem_reverse.mpr List.mem_cons_self)
      rfl
  · exact step_of_isName ⟨hnil, hhere, habove⟩ stack

theorem Settled.foldl_step (h : Settled a names) : names.foldl (step a) [] = names.reverse := by
  induction names using List.reverseRecOn with
  | nil => rfl
  | append_singleton names c ih =>
    rw [List.foldl_append, ih h.of_append, List.foldl_cons, List.foldl_nil, List.reverse_concat]
    rw [← List.reverse_reverse names] at h
    exact h.step_eq

/-- One step of a walk keeps the names settled. -/
theorem Settled.step (h : Settled a stack.reverse) (hc : slash ∉ c) :
    Settled a (step a stack c).reverse := by
  by_cases hstay : c = [] ∨ c = here
  · have hsame : Path.step a stack c = stack := if_pos hstay
    rwa [hsame]
  rw [not_or] at hstay
  by_cases habove : c = above
  · subst habove
    cases stack with
    | nil =>
      cases a with
      | true => exact settled_nil true
      | false =>
        exact (settled_nil false).append_singleton hstay.1 hstay.2 hc fun _ ↦ ⟨rfl, by simp⟩
    | cons top below =>
      rw [List.reverse_cons] at h
      by_cases htop : top = above
      · subst htop
        obtain ⟨rfl, hall⟩ := h.all_above
        rw [step_above_above, List.reverse_cons, List.reverse_cons]
        refine h.append_singleton hstay.1 hstay.2 hc fun _ ↦ ⟨rfl, fun d hd ↦ ?_⟩
        exact (List.mem_append.mp hd).elim (hall d) List.mem_singleton.mp
      · rw [step_above htop]
        exact h.of_append
  · rw [step_of_isName ⟨hstay.1, hstay.2, habove⟩, List.reverse_cons]
    exact h.append_singleton hstay.1 hstay.2 hc fun hc ↦ absurd hc habove

theorem Settled.foldl (h : Settled a stack.reverse) (hpieces : ∀ c ∈ pieces, slash ∉ c) :
    Settled a (pieces.foldl (Path.step a) stack).reverse := by
  induction pieces generalizing stack with
  | nil => exact h
  | cons c pieces ih =>
    obtain ⟨hc, hpieces⟩ := List.forall_mem_cons.mp hpieces
    exact ih (h.step hc) hpieces

/-- The names that a walk leaves are settled. -/
theorem Settled.walk (h : Settled a stack.reverse) (p : Text) :
    Settled a (walk a stack p).reverse :=
  h.foldl fun _ hc ↦ Text.not_mem_of_mem_splitOn hc

/-! ## Texts in normal form -/

/-- A path in normal form. `.` stands alone, an empty component is the first one of an absolute path
or the last one of a directory, no slash follows a `..` at the end, and nothing but `..` comes
before a `..`: neither a name nor the root. -/
structure IsNormal (p : Text) : Prop where
  here_alone : here ∈ splitOn slash p → p = here
  nil_notMem : [] ∉ (splitOn slash p).tail.dropLast
  above_end : ¬[above, []] <:+ splitOn slash p
  above_first : (splitOn slash p).Pairwise fun c d ↦ d = above → c = above

instance (p : Text) : Decidable (IsNormal p) :=
  decidable_of_iff (((∃ c ∈ splitOn slash p, c = here) → p = here) ∧
      (∀ c ∈ (splitOn slash p).tail.dropLast, c ≠ []) ∧ ¬[above, []] <:+ splitOn slash p ∧
      (splitOn slash p).Pairwise fun c d ↦ d = above → c = above)
    ⟨fun ⟨h₁, h₂, h₃, h₄⟩ ↦ ⟨fun h ↦ h₁ ⟨here, h, rfl⟩, fun h ↦ h₂ [] h rfl, h₃, h₄⟩,
      fun ⟨h₁, h₂, h₃, h₄⟩ ↦
        ⟨fun ⟨_, hc, heq⟩ ↦ h₁ (heq ▸ hc), fun _ hc hnil ↦ h₂ (hnil ▸ hc), h₃, h₄⟩⟩

/-- The components that a path names: those that are not empty and do not stay in place. -/
def written (p : Text) : List Text := (splitOn slash p).filter fun c ↦ c ≠ [] ∧ c ≠ here

/-- The empty component at the end of a path that denotes a directory, unless it ends in `..`. -/
def ending (directory : Bool) (names : List Text) : List Text :=
  if directory && names.getLast? != some above then [[]] else []

theorem ofComponents_nil (R : Text) (directory : Bool) :
    ofComponents R directory [] = if R = [] then here else R := by
  simp [ofComponents]

theorem ofComponents_of_ne_nil (h : names ≠ []) (R : Text) (directory : Bool) :
    ofComponents R directory names = R ++ joinWith slash (names ++ ending directory names) := by
  rw [ofComponents, if_neg (by simpa using h), ending, showIf, List.append_assoc]
  split
  · rw [Text.joinWith_append_singleton slash h]
  · rw [List.append_nil, List.append_nil]

/-- Every slash of the root is followed by a component. -/
theorem splitOn_slashes_append (hR : ∀ b ∈ R, b = slash) (p : Text) :
    splitOn slash (R ++ p) = R.map (fun _ ↦ []) ++ splitOn slash p := by
  induction R with
  | nil => rfl
  | cons b R ih =>
    obtain ⟨rfl, hrest⟩ := List.forall_mem_cons.mp hR
    rw [List.cons_append, Text.splitOn_cons_self, ih hrest, List.map_cons, List.cons_append]

theorem eq_nil_of_mem_ending (h : c ∈ ending directory names) : c = [] := by
  rw [ending] at h
  split at h
  · exact List.mem_singleton.mp h
  · exact absurd h List.not_mem_nil

theorem eq_nil_of_mem_map {R : Text} (h : c ∈ R.map fun _ ↦ ([] : Text)) : c = [] := by
  obtain ⟨-, -, rfl⟩ := List.mem_map.mp h
  rfl

/-- The pieces of a path that is written below a root: an empty one for every slash of the root, and
then the names. -/
theorem splitOn_ofComponents (hR : ∀ b ∈ R, b = slash) (h : Settled a names) (hne : names ≠ [])
    (directory : Bool) :
    splitOn slash (ofComponents R directory names)
      = R.map (fun _ ↦ []) ++ (names ++ ending directory names) := by
  rw [ofComponents_of_ne_nil hne, splitOn_slashes_append hR, Text.splitOn_joinWith (by simp [hne])]
  intro c hc
  obtain hc | hc := List.mem_append.mp hc
  · exact h.slash_notMem c hc
  · rw [eq_nil_of_mem_ending hc]
    exact List.not_mem_nil

/-- The names are all that is written. -/
theorem written_ofComponents (hR : ∀ b ∈ R, b = slash) (h : Settled a names) (directory : Bool) :
    written (ofComponents R directory names) = names := by
  have hempty : ∀ {l : List Text}, (∀ c ∈ l, c = []) →
      l.filter (fun c ↦ decide (c ≠ [] ∧ c ≠ here)) = [] := by
    intro l hl
    rw [List.filter_eq_nil_iff]
    intro c hc
    simp [hl c hc]
  by_cases hne : names = []
  · subst hne
    rw [ofComponents_nil]
    split
    · rfl
    · rw [written, ← List.append_nil R, splitOn_slashes_append hR]
      refine hempty fun c hc ↦ ?_
      obtain hc | hc := List.mem_append.mp hc
      · exact eq_nil_of_mem_map hc
      · exact List.mem_singleton.mp hc
  · have hnames : names.filter (fun c ↦ decide (c ≠ [] ∧ c ≠ here)) = names := by
      rw [List.filter_eq_self]
      intro c hc
      rw [decide_eq_true_iff]
      exact ⟨ne_of_mem_of_not_mem hc h.nil_notMem, ne_of_mem_of_not_mem hc h.here_notMem⟩
    rw [written, splitOn_ofComponents hR h hne, List.filter_append, List.filter_append, hnames,
      hempty fun c ↦ eq_nil_of_mem_map, hempty fun c ↦ eq_nil_of_mem_ending, List.nil_append,
      List.append_nil]

theorem mem_of_mem_dropLast_append_ending {others : List Text}
    (h : c ∈ (others ++ ending directory names).dropLast) : c ∈ others := by
  rw [ending] at h
  split at h
  · rwa [List.dropLast_concat] at h
  · rw [List.append_nil] at h
    exact List.dropLast_subset _ h

/-- No empty component follows a last `..`. -/
theorem Settled.above_end (h : Settled a names) (hne : names ≠ []) (front : List Text) :
    ¬[above, []] <:+ front ++ (names ++ ending directory names) := by
  rintro ⟨others, hothers⟩
  rw [ending] at hothers
  split at hothers
  case isTrue hlast =>
    have hcut : others ++ [above] = front ++ names :=
      (List.append_left_inj [[]]).mp (by simpa using hothers)
    have hend := congrArg List.getLast? hcut
    rw [List.getLast?_append_of_ne_nil _ hne, List.getLast?_concat] at hend
    simp [← hend] at hlast
  case isFalse =>
    have hend := congrArg List.getLast? hothers
    rw [List.append_nil, List.getLast?_append_of_ne_nil _ hne] at hend
    exact h.nil_notMem (List.mem_of_getLast? (by simpa using hend.symm))

/-- Nothing but `..` comes before a `..`, be it a name or the root. -/
theorem Settled.pairwise_pieces (h : Settled a names) {front : List Text}
    (hfront : front ≠ [] → a = true) (hempty : ∀ c ∈ front, c = []) :
    (front ++ (names ++ ending directory names)).Pairwise fun c d ↦ d = above → c = above := by
  have hnot : ∀ {d : Text}, d = [] → d ≠ above := fun hd ↦ hd ▸ by decide
  rw [List.pairwise_append, List.pairwise_append]
  refine ⟨List.pairwise_of_forall_mem_list ?_, ⟨h.above_first,
    List.pairwise_of_forall_mem_list ?_, ?_⟩, ?_⟩
  · exact fun _ _ d hd hlast ↦ absurd hlast (hnot (hempty d hd))
  · exact fun _ _ d hd hlast ↦ absurd hlast (hnot (eq_nil_of_mem_ending hd))
  · exact fun _ _ d hd hlast ↦ absurd hlast (hnot (eq_nil_of_mem_ending hd))
  · intro c hc d hd hlast
    obtain hd | hd := List.mem_append.mp hd
    · exact absurd (hlast ▸ hd) (h.above_notMem (hfront (List.ne_nil_of_mem hc)))
    · exact absurd hlast (hnot (eq_nil_of_mem_ending hd))

theorem Settled.nil_notMem_tail_dropLast (h : Settled a names) (hne : names ≠ []) :
    [] ∉ ((showIf a [slash]).map (fun _ ↦ [])
      ++ (names ++ ending directory names)).tail.dropLast := by
  intro hmem
  cases a with
  | true => exact h.nil_notMem (mem_of_mem_dropLast_append_ending hmem)
  | false =>
    obtain ⟨name, others, rfl⟩ := List.exists_cons_of_ne_nil hne
    exact h.nil_notMem (List.mem_cons_of_mem _ (mem_of_mem_dropLast_append_ending hmem))

theorem Settled.here_notMem_pieces (h : Settled a names) {front : List Text}
    (hempty : ∀ c ∈ front, c = []) : here ∉ front ++ (names ++ ending directory names) := by
  rw [List.mem_append, List.mem_append]
  rintro (hmem | hmem | hmem)
  · exact absurd (hempty _ hmem) (by decide)
  · exact h.here_notMem hmem
  · exact absurd (eq_nil_of_mem_ending hmem) (by decide)

theorem mem_showIf_slash (a : Bool) : ∀ b ∈ showIf a [slash], b = slash := by
  cases a <;> simp [showIf]

/-- Settled names below a root of at most one slash are a path in normal form. -/
theorem isNormal_ofComponents (h : Settled a names) (directory : Bool) :
    IsNormal (ofComponents (showIf a [slash]) directory names) := by
  by_cases hne : names = []
  · subst hne
    cases a <;> exact of_decide_eq_true rfl
  have hpieces := splitOn_ofComponents (mem_showIf_slash a) h hne directory
  have hempty : ∀ c ∈ (showIf a [slash]).map (fun _ ↦ ([] : Text)), c = [] :=
    fun _ ↦ eq_nil_of_mem_map
  refine ⟨fun hmem ↦ ?_, ?_, ?_, ?_⟩ <;> rw [hpieces] at *
  · exact absurd hmem (h.here_notMem_pieces hempty)
  · exact h.nil_notMem_tail_dropLast hne
  · exact h.above_end hne _
  · exact h.pairwise_pieces (by cases a <;> simp [showIf]) hempty

/-! ## Normalising again -/

theorem foldl_step_of_nil (h : ∀ c ∈ pieces, c = []) (stack : List Text) :
    pieces.foldl (step a) stack = stack := by
  induction pieces with
  | nil => rfl
  | cons c pieces ih =>
    obtain ⟨rfl, hpieces⟩ := List.forall_mem_cons.mp h
    rw [List.foldl_cons, step_nil, ih hpieces]

/-- Settled names are walked again as they are written. -/
theorem walk_ofComponents (hR : ∀ b ∈ R, b = slash) (h : Settled a names) (directory : Bool) :
    walk a [] (ofComponents R directory names) = names.reverse := by
  by_cases hne : names = []
  · subst hne
    rw [ofComponents_nil]
    split
    · exact step_here a []
    · exact walk_slashes hR
  · rw [walk, splitOn_ofComponents hR h hne, List.foldl_append, List.foldl_append,
      foldl_step_of_nil fun _ ↦ eq_nil_of_mem_map, h.foldl_step,
      foldl_step_of_nil fun _ ↦ eq_nil_of_mem_ending]

theorem ofComponents_ne_nil (hR : ∀ b ∈ R, b = slash) (h : Settled a names) (directory : Bool) :
    ofComponents R directory names ≠ [] := by
  intro hnil
  have hnames := walk_ofComponents hR h directory
  rw [hnil, walk_nil, eq_comm, List.reverse_eq_nil_iff] at hnames
  subst hnames
  rw [ofComponents_nil] at hnil
  split at hnil
  · exact absurd hnil (by decide)
  · contradiction

theorem isAbsolute_ofComponents (hR : ∀ b ∈ R, b = slash) (h : Settled a names)
    (directory : Bool) : isAbsolute (ofComponents R directory names) = !R.isEmpty := by
  cases R with
  | nil =>
    by_cases hne : names = []
    · subst hne
      rfl
    · obtain ⟨name, others, rfl⟩ := List.exists_cons_of_ne_nil hne
      obtain ⟨b, name, rfl⟩ :=
        List.exists_cons_of_ne_nil (ne_of_mem_of_not_mem List.mem_cons_self h.nil_notMem)
      have hb : b ≠ slash := by
        rintro rfl
        exact h.slash_notMem _ List.mem_cons_self List.mem_cons_self
      rw [ofComponents_of_ne_nil hne, List.nil_append, List.cons_append, isAbsolute,
        Text.head?_joinWith]
      simpa using hb
  | cons b R =>
    obtain rfl := hR b List.mem_cons_self
    by_cases hne : names = []
    · subst hne
      rfl
    · rw [ofComponents_of_ne_nil hne]
      rfl

theorem root_ofComponents (hR : ∀ b ∈ R, b = slash) (h : Settled a names) (hne : names ≠ [])
    (directory : Bool) : root (ofComponents R directory names) = showIf (!R.isEmpty) [slash] := by
  have hroot : ¬isRoot (ofComponents R directory names) := by
    intro hroot
    have hnames := walk_ofComponents hR h directory
    rw [walk_slashes (isRoot_iff.mp hroot).2, eq_comm, List.reverse_eq_nil_iff] at hnames
    exact hne hnames
  rw [root, if_neg hroot, isAbsolute_ofComponents hR h, showIf]

/-- The last component is the last name, unless a slash follows it. -/
theorem fileName_ofComponents (hR : ∀ b ∈ R, b = slash) (h : Settled a (names ++ [c]))
    (directory : Bool) : fileName (ofComponents R directory (names ++ [c]))
      = if directory = true ∧ c ≠ above then [] else c := by
  rw [fileName, splitOn_ofComponents hR h (List.concat_ne_nil _ _), ending, List.getLast?_concat]
  by_cases hslash : directory = true ∧ c ≠ above
  · rw [if_pos hslash, if_pos (by simpa using hslash), ← List.append_assoc, List.getLast?_concat]
    rfl
  · rw [if_neg hslash, if_neg (by simpa using hslash), List.append_nil, ← List.append_assoc,
      List.getLast?_concat]
    rfl

/-- Whether a path ends in a slash can be told from its last component again. -/
theorem ending_ofComponents (hR : ∀ b ∈ R, b = slash) (h : Settled a names) (hne : names ≠ [])
    (directory : Bool) :
    ending (endsInDirectory (ofComponents R directory names)) names = ending directory names := by
  obtain ⟨init, c, rfl⟩ := (List.eq_nil_or_concat names).resolve_left hne
  rw [List.concat_eq_append] at *
  rw [ending, ending, endsInDirectory, fileName_ofComponents hR h, List.getLast?_concat]
  by_cases hslash : directory = true ∧ c ≠ above
  · simp [hslash]
  · have hnil : c ≠ [] := ne_of_mem_of_not_mem List.mem_concat_self h.nil_notMem
    have hhere : c ≠ here := ne_of_mem_of_not_mem List.mem_concat_self h.here_notMem
    have hnot : ¬(directory && some c != some above) = true := by simpa using hslash
    rw [if_neg hslash, if_neg hnot]
    simp [hnil, hhere]

/-- The normal form has at most one slash at the root, but a root alone stays as it is written. -/
theorem normal_ofComponents (hR : ∀ b ∈ R, b = slash) (h : Settled (!R.isEmpty) names)
    (directory : Bool) : normal (ofComponents R directory names)
      = ofComponents (if names = [] then R else showIf (!R.isEmpty) [slash]) directory names := by
  have hnil : (ofComponents R directory names).isEmpty = false := by
    simpa using ofComponents_ne_nil hR h directory
  have hcomponents : components (ofComponents R directory names) = names := by
    rw [components_eq, isAbsolute_ofComponents hR h, walk_ofComponents hR h, List.reverse_reverse]
  rw [normal, normalBelow, hnil, hcomponents, if_neg Bool.false_ne_true]
  by_cases hne : names = []
  · subst hne
    rw [if_pos rfl, ofComponents_nil, ofComponents_nil]
    by_cases hnone : R = []
    · subst hnone
      rfl
    · have hroot : root R = R := if_pos (isRoot_iff.mpr ⟨hnone, hR⟩)
      rw [if_neg hnone, hroot, if_neg hnone]
  · rw [root_ofComponents hR h hne, if_neg hne, ofComponents_of_ne_nil hne (showIf _ _),
      ofComponents_of_ne_nil hne (showIf _ _), ending_ofComponents hR h hne]

/-- A path in normal form that is written below one slash or none is its own normal form. -/
theorem normal_ofComponents_self (h : Settled a names) (directory : Bool) :
    normal (ofComponents (showIf a [slash]) directory names)
      = ofComponents (showIf a [slash]) directory names := by
  have ha : (!(showIf a [slash]).isEmpty) = a := by cases a <;> rfl
  rw [normal_ofComponents (mem_showIf_slash a) (ha.symm ▸ h), ha, ite_self]

end Path

end NativeApi

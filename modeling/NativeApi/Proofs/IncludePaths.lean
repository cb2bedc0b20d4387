import NativeApi.FileTree.Basic
import NativeApi.Proofs.NormalPath

/-!
# The paths of included files

The names of an included file come from one walk, first along the directory of the including file
and then along the target, and the resolved path is the normal form that these names are written as
(`Path.resolve_eq`). A file that is included through another one is therefore the one that is
included directly from the first file by a path that leads along both targets. What a walk does at
each component is said once more by rules without a stack (`Path.Goes`).

The root is where texts and paths differ. A root that is written with several slashes keeps them, as
the paths that are resolved below it do, while the normal form has one. Paths that differ in nothing
but these slashes are `Path.Same`.
-/

namespace NativeApi

namespace Path

open Text (splitOn joinWith showIf)

variable {f i p q z : Text} {names : List Text}

/-! ## Roots -/

/-- The slashes that a path of nothing but slashes has in excess of one. -/
def spareSlashes (p : Text) : Text := if isRoot p then p.tail else []

theorem eq_slash_of_mem_spareSlashes : ∀ b ∈ spareSlashes p, b = slash := by
  intro b hb
  rw [spareSlashes] at hb
  split at hb
  case isTrue hroot => exact (isRoot_iff.mp hroot).2 b (List.mem_of_mem_tail hb)
  case isFalse => exact absurd hb List.not_mem_nil

theorem isAbsolute_of_spareSlashes (h : spareSlashes p ≠ []) : isAbsolute p = true := by
  rw [spareSlashes] at h
  split at h
  case isTrue hroot =>
    rw [isRoot, Bool.and_eq_true] at hroot
    exact hroot.1
  case isFalse => exact absurd rfl h

theorem spareSlashes_of_relative (h : isAbsolute p = false) : spareSlashes p = [] := by
  by_contra hspare
  exact Bool.false_ne_true (h.symm.trans (isAbsolute_of_spareSlashes hspare))

theorem root_of_not_isRoot (h : isRoot p = false) : root p = showIf (isAbsolute p) [slash] := by
  rw [root, h]
  rfl

theorem root_eq (p : Text) : root p = spareSlashes p ++ showIf (isAbsolute p) [slash] := by
  by_cases hroot : isRoot p = true
  · obtain ⟨hne, hall⟩ := isRoot_iff.mp hroot
    obtain ⟨b, rest, rfl⟩ := List.exists_cons_of_ne_nil hne
    obtain ⟨rfl, hrest⟩ := List.forall_mem_cons.mp hall
    calc root (slash :: rest)
        = slash :: List.replicate rest.length slash := by
          rw [root, if_pos hroot, ← List.eq_replicate_of_mem hrest]
      _ = List.replicate rest.length slash ++ [slash] := by
          rw [← List.replicate_succ, List.replicate_succ']
      _ = spareSlashes (slash :: rest) ++ [slash] := by
          rw [spareSlashes, if_pos hroot, List.tail_cons, ← List.eq_replicate_of_mem hrest]
  · rw [spareSlashes, if_neg hroot, List.nil_append,
      root_of_not_isRoot (Bool.eq_false_iff.mpr hroot)]

theorem root_of_relative (h : isAbsolute p = false) : root p = [] := by
  rw [root_of_not_isRoot (by rw [isRoot, h, Bool.false_and]), h]
  rfl

theorem root_eq_of_hasParent {d : Text} (h : HasParent p d) (hroot : isRoot p = false) :
    root d = root p := by
  rw [root_of_not_isRoot hroot]
  cases h with
  | name h =>
    rw [isAbsolute_of_notMem h]
    rfl
  | root h => exact absurd (hroot.symm.trans h) Bool.false_ne_true
  | underRoot hslashes hz =>
    rw [isAbsolute_of_slashes hslashes]
    rfl
  | below hslashes hz hd hbelow =>
    rw [root_of_not_isRoot hbelow, List.append_assoc, isAbsolute_append hd]

/-- A path and its parent have the same root, written in the same way. -/
theorem root_parent (p : Text) : root (parent p) = root p := by
  by_cases hroot : isRoot p = true
  · rw [parent_of_isRoot hroot]
  · exact root_eq_of_hasParent (hasParent_parent p) (Bool.eq_false_iff.mpr hroot)

/-- A path below a root starts with the slashes that the root has in excess. -/
theorem ofComponents_root (p : Text) (directory : Bool) (names : List Text) :
    ofComponents (root p) directory names
      = spareSlashes p ++ ofComponents (showIf (isAbsolute p) [slash]) directory names := by
  by_cases hne : names = []
  · subst hne
    rw [ofComponents_nil, ofComponents_nil, root_eq]
    cases habsolute : isAbsolute p with
    | true => simp [showIf]
    | false =>
      rw [spareSlashes_of_relative habsolute]
      rfl
  · rw [ofComponents_of_ne_nil hne, ofComponents_of_ne_nil hne, root_eq, List.append_assoc]

/-! ## The rules of a walk -/

/-- One component of a walk, between the names before it and those behind it, both from the first to
the last. An empty component and `.` are skipped, a name is put at the end, and `..` takes the last
name off. Where there is none, `..` is kept at the start of a relative path and dropped at the
root. -/
inductive Goes (absolute : Bool) : List Text → Text → List Text → Prop
  | empty (names : List Text) : Goes absolute names "" names
  | here (names : List Text) : Goes absolute names "." names
  | name (names : List Text) {c : Text} (h : c ≠ "" ∧ c ≠ "." ∧ c ≠ "..") :
      Goes absolute names c (names ++ [c])
  | back (names : List Text) {c : Text} (h : c ≠ "..") : Goes absolute (names ++ [c]) ".." names
  | kept {names : List Text} (ha : absolute = false) (h : ∀ c ∈ names, c = "..") :
      Goes absolute names ".." (names ++ [(".." : Text)])
  | dropped (ha : absolute = true) : Goes absolute [] ".." []

/-- A walk along components, one after the other. -/
inductive Walks (absolute : Bool) : List Text → List Text → List Text → Prop
  | nil (names : List Text) : Walks absolute names [] names
  | cons {names next last others : List Text} {c : Text} (h : Goes absolute names c next)
      (t : Walks absolute next others last) : Walks absolute names (c :: others) last

section Walks

variable {a : Bool} {stack next pieces : List Text} {c : Text}

theorem Goes.eq (h : Goes a stack.reverse c next) : next = (step a stack c).reverse := by
  generalize hnames : stack.reverse = names at h
  rw [List.reverse_eq_iff] at hnames
  subst hnames
  cases h with
  | empty =>
    show next = (step a next.reverse []).reverse
    rw [step_nil, List.reverse_reverse]
  | here =>
    show next = (step a next.reverse Path.here).reverse
    rw [step_here, List.reverse_reverse]
  | name _ h => rw [step_of_isName ⟨h.1, h.2.1, h.2.2⟩, List.reverse_cons, List.reverse_reverse]
  | @back _ d h =>
    show next = (step a (next ++ [d]).reverse above).reverse
    rw [List.reverse_concat, step_above h, List.reverse_reverse]
  | kept ha h =>
    subst ha
    show names ++ [above] = (step false names.reverse above).reverse
    obtain rfl | ⟨front, d, rfl⟩ := List.eq_nil_or_concat names
    · rfl
    · obtain rfl : d = above := h d (by simp)
      rw [List.concat_eq_append, List.reverse_concat, step_above_above, List.reverse_cons,
        List.reverse_cons, List.reverse_reverse]
  | dropped ha =>
    subst ha
    rfl

theorem Settled.goes_step (h : Settled a stack.reverse) (c : Text) :
    Goes a stack.reverse c (Path.step a stack c).reverse := by
  by_cases hnil : c = []
  · subst hnil
    rw [step_nil]
    exact .empty _
  by_cases hhere : c = Path.here
  · subst hhere
    rw [step_here]
    exact .here _
  by_cases habove : c = above
  · subst habove
    cases stack with
    | nil =>
      cases a with
      | true => exact .dropped rfl
      | false => exact .kept rfl (by simp)
    | cons top below =>
      rw [List.reverse_cons] at h ⊢
      by_cases htop : top = above
      · subst htop
        obtain ⟨rfl, hall⟩ := h.all_above
        rw [step_above_above, List.reverse_cons, List.reverse_cons]
        refine .kept rfl fun d hd ↦ ?_
        exact (List.mem_append.mp hd).elim (hall d) List.mem_singleton.mp
      · rw [step_above htop]
        exact .back _ htop
  · rw [step_of_isName ⟨hnil, hhere, habove⟩, List.reverse_cons]
    exact .name _ ⟨hnil, hhere, habove⟩

/-- The rules lead from settled names to what the stack holds, and nowhere else. -/
theorem walks_iff (h : Settled a stack.reverse) (hpieces : ∀ c ∈ pieces, slash ∉ c) :
    Walks a stack.reverse pieces names ↔ names = (pieces.foldl (step a) stack).reverse := by
  induction pieces generalizing stack with
  | nil =>
    constructor
    · rintro ⟨⟩
      rfl
    · rintro rfl
      exact .nil _
  | cons c pieces ih =>
    obtain ⟨hc, hpieces⟩ := List.forall_mem_cons.mp hpieces
    have hrest := ih (h.step hc) hpieces
    rw [List.foldl_cons]
    constructor
    · rintro (_ | ⟨hgoes, hwalks⟩)
      rw [hgoes.eq] at hwalks
      exact hrest.mp hwalks
    · intro hnames
      exact .cons (h.goes_step c) (hrest.mpr hnames)

end Walks

/-! ## One walk -/

/-- Where the path of an included file starts: an absolute target is its own start. -/
def origin (f i : Text) : Text := if isAbsolute i then i else f

/-- The directory that a target is taken from. An absolute target needs none. -/
def base (f i : Text) : Text := if isAbsolute i then [] else parent f

/-- The names left by a walk along the directory of the including file and then the target. -/
def walkedNames (f i : Text) : List Text :=
  (walk (isAbsolute (origin f i)) (walk (isAbsolute (origin f i)) [] (base f i)) i).reverse

theorem isAbsolute_origin (f i : Text) :
    isAbsolute (origin f i) = (isAbsolute i || isAbsolute f) := by
  rw [origin]
  by_cases h : isAbsolute i = true
  · rw [if_pos h, h, Bool.true_or]
  · rw [if_neg h, Bool.eq_false_iff.mpr h, Bool.false_or]

theorem settled_walkedNames (f i : Text) :
    Settled (isAbsolute (origin f i)) (walkedNames f i) :=
  Settled.walk (Settled.walk (settled_nil _) _) i

/-- The names are those that the rules lead to. -/
theorem walks_iff_eq_walkedNames (f i : Text) :
    Walks (isAbsolute (origin f i)) [] (splitOn slash (base f i) ++ splitOn slash i) names ↔
      names = walkedNames f i := by
  have hpieces : ∀ c ∈ splitOn slash (base f i) ++ splitOn slash i, slash ∉ c := by
    intro c hc
    exact (List.mem_append.mp hc).elim Text.not_mem_of_mem_splitOn Text.not_mem_of_mem_splitOn
  rw [walkedNames, walk, walk, ← List.foldl_append]
  have hroot : Settled (isAbsolute (origin f i)) ([] : List Text).reverse := settled_nil _
  exact walks_iff hroot hpieces

/-- In every case the target is joined to the directory, and the root is that of the origin. -/
theorem resolve_eq_normalBelow (f i : Text) :
    resolve f i = normalBelow (root (origin f i)) (join (parent f) i) := by
  by_cases habsolute : isAbsolute i = true
  · rw [resolve, if_pos (by simp [habsolute]), origin, if_pos habsolute,
      join_of_isAbsolute habsolute, normal]
  rw [origin, if_neg habsolute]
  by_cases hparent : parent f = []
  · have hf : isAbsolute f = false := by
      rw [← isAbsolute_parent, hparent]
      rfl
    rw [resolve, if_pos (by simp [hparent]), normal, root_of_relative hf,
      root_of_relative (Bool.eq_false_iff.mpr habsolute), hparent, nil_join]
  · rw [resolve, if_neg (by simp [habsolute, hparent]), root_parent]

theorem components_join_parent (f i : Text) : components (join (parent f) i) = walkedNames f i := by
  rw [components_eq, isAbsolute_join, isAbsolute_parent, walkedNames, isAbsolute_origin, base,
    Bool.or_comm]
  by_cases habsolute : isAbsolute i = true
  · rw [if_pos habsolute, join_of_isAbsolute habsolute, walk_nil]
  · rw [if_neg habsolute, walk_join (Bool.eq_false_iff.mpr habsolute)]

theorem resolve_of_isAbsolute (h : isAbsolute i = true) (f g : Text) :
    resolve f i = resolve g i := by
  rw [resolve, resolve, h]
  rfl

/-- Nothing is resolved only where there is neither a target nor a directory. -/
theorem resolve_of_nil (h : i = [] ∧ parent f = []) : resolve f i = [] := by
  rw [resolve, h.1, h.2]
  rfl

/-- The path of an included file: the names that are walked, behind the root of the origin. -/
theorem resolve_eq (h : ¬(i = [] ∧ parent f = [])) : resolve f i
    = spareSlashes (origin f i)
      ++ ofComponents (showIf (isAbsolute (origin f i)) [slash]) (endsInDirectory i)
        (walkedNames f i) := by
  have hjoin : (join (parent f) i).isEmpty = false := by
    rw [List.isEmpty_eq_false_iff, ne_eq, join_eq_nil_iff]
    exact fun hnil ↦ h hnil.symm
  rw [resolve_eq_normalBelow, normalBelow, hjoin, if_neg Bool.false_ne_true, ofComponents_root,
    components_join_parent, endsInDirectory, endsInDirectory, fileName_join]

/-! ## Resolved paths in normal form -/

theorem isEmpty_root (p : Text) : (!(root p).isEmpty) = isAbsolute p := by
  cases h : isAbsolute p with
  | true =>
    rw [root_eq, h]
    simp [showIf]
  | false =>
    rw [root_of_relative h]
    rfl

theorem eq_slash_of_mem_root : ∀ b ∈ root p, b = slash := by
  intro b hb
  rw [root_eq, List.mem_append] at hb
  exact hb.elim (eq_slash_of_mem_spareSlashes b) (mem_showIf_slash _ b)

theorem ofComponents_eq_slash_iff {a : Bool} (h : Settled a names) (directory : Bool) :
    ofComponents (showIf a [slash]) directory names = [slash] ↔ a = true ∧ names = [] := by
  constructor
  · intro hroot
    have habsolute := isAbsolute_ofComponents (mem_showIf_slash a) h directory
    have hnames := written_ofComponents (mem_showIf_slash a) h directory
    rw [hroot] at habsolute hnames
    refine ⟨?_, hnames.symm⟩
    cases a with
    | true => rfl
    | false => exact absurd habsolute (by decide)
  · rintro ⟨rfl, rfl⟩
    rfl

/-- The normal form of a path below the root of another. -/
theorem normal_ofComponents_root (h : Settled (isAbsolute p) names) (directory : Bool) :
    normal (ofComponents (root p) directory names)
      = if ofComponents (showIf (isAbsolute p) [slash]) directory names = [slash]
        then ofComponents (root p) directory names
        else ofComponents (showIf (isAbsolute p) [slash]) directory names := by
  rw [normal_ofComponents eq_slash_of_mem_root (by rwa [isEmpty_root]), isEmpty_root]
  by_cases hne : names = []
  · rw [if_pos hne]
    split
    case isTrue => rfl
    case isFalse hroot =>
      rw [ofComponents_eq_slash_iff h, not_and_or] at hroot
      have hrelative := Bool.eq_false_iff.mpr (hroot.resolve_right (not_not_intro hne))
      rw [root_of_relative hrelative, hrelative]
      rfl
  · rw [if_neg hne, if_neg fun hroot ↦ hne ((ofComponents_eq_slash_iff h directory).mp hroot).2]

theorem resolve_eq_ofComponents (h : ¬(i = [] ∧ parent f = [])) : resolve f i
    = ofComponents (root (origin f i)) (endsInDirectory i) (walkedNames f i) := by
  rw [resolve_eq h, ofComponents_root]

theorem relative_of_nil (h : i = [] ∧ parent f = []) : isAbsolute (origin f i) = false := by
  obtain ⟨rfl, hparent⟩ := h
  rw [isAbsolute_origin, ← isAbsolute_parent f, hparent]
  rfl

theorem walkedNames_of_nil (h : i = [] ∧ parent f = []) : walkedNames f i = [] := by
  obtain ⟨rfl, hparent⟩ := h
  rw [walkedNames, base, if_neg (by decide), hparent]
  rfl

theorem isAbsolute_resolve (f i : Text) : isAbsolute (resolve f i) = isAbsolute (origin f i) := by
  by_cases hnil : i = [] ∧ parent f = []
  · rw [resolve_of_nil hnil, relative_of_nil hnil]
    rfl
  · rw [resolve_eq_ofComponents hnil, isAbsolute_ofComponents eq_slash_of_mem_root
      (settled_walkedNames f i), isEmpty_root]

/-- The components in the text of the resolved path are the names that are walked. -/
theorem written_resolve (f i : Text) : written (resolve f i) = walkedNames f i := by
  by_cases hnil : i = [] ∧ parent f = []
  · rw [resolve_of_nil hnil, walkedNames_of_nil hnil]
    rfl
  · rw [resolve_eq_ofComponents hnil]
    exact written_ofComponents eq_slash_of_mem_root (settled_walkedNames f i) _

theorem resolve_eq_nil_iff : resolve f i = [] ↔ i = [] ∧ parent f = [] := by
  refine ⟨fun hresolve ↦ ?_, resolve_of_nil⟩
  by_contra hnil
  rw [resolve_eq_ofComponents hnil] at hresolve
  exact ofComponents_ne_nil eq_slash_of_mem_root (settled_walkedNames f i) _ hresolve

theorem resolve_eq_here_iff : resolve f i = here ↔
    isAbsolute (origin f i) = false ∧ walkedNames f i = [] ∧ ¬(i = [] ∧ parent f = []) := by
  constructor
  · intro hhere
    rw [← isAbsolute_resolve, ← written_resolve, ← resolve_eq_nil_iff, hhere]
    exact ⟨rfl, rfl, by decide⟩
  · rintro ⟨hrelative, hnone, hnil⟩
    rw [resolve_eq_ofComponents hnil, root_of_relative hrelative, hnone]
    rfl

theorem exists_isNormal (f i : Text) : ∃ q, IsNormal q ∧ normal q = q ∧
    resolve f i = spareSlashes (origin f i) ++ q ∧
    normal (resolve f i) = if q = [slash] then resolve f i else q := by
  by_cases hnil : i = [] ∧ parent f = []
  · rw [resolve_of_nil hnil, spareSlashes_of_relative (relative_of_nil hnil)]
    exact ⟨[], by decide, rfl, rfl, rfl⟩
  · have hsettled := settled_walkedNames f i
    refine ⟨_, isNormal_ofComponents hsettled _, normal_ofComponents_self hsettled _,
      resolve_eq hnil, ?_⟩
    rw [resolve_eq_ofComponents hnil]
    exact normal_ofComponents_root hsettled _

/-- **Resolved paths.** The path of an included file names what a walk along the directory of the
including file and then along the target leaves. It is in normal form, and normalising it again does
not change it. Only where it starts from a root that is written with several slashes does it keep
the slashes in excess, and normalising it takes them off unless the root is all there is. The path
is absolute if the target or the including file is, and an absolute target is the same in every
file. It is `.` or empty only where no name is left of a relative path. -/
theorem resolved_path_is_normal (f i : Text) :
    (∃ q, IsNormal q ∧ normal q = q ∧ resolve f i = spareSlashes (origin f i) ++ q ∧
      normal (resolve f i) = if q = [slash] then resolve f i else q) ∧
    (∀ names, Walks (isAbsolute i || isAbsolute f) []
      (splitOn slash (base f i) ++ splitOn slash i) names ↔ names = walkedNames f i) ∧
    written (resolve f i) = walkedNames f i ∧
    isAbsolute (resolve f i) = (isAbsolute i || isAbsolute f) ∧
    (isAbsolute i = true → ∀ g, resolve g i = resolve f i) ∧
    (resolve f i = [] ↔ i = [] ∧ parent f = []) ∧
    (resolve f i = here ↔ (isAbsolute i || isAbsolute f) = false ∧ walkedNames f i = [] ∧
      ¬(i = [] ∧ parent f = [])) := by
  rw [← isAbsolute_origin]
  exact ⟨exists_isNormal f i, fun _ ↦ walks_iff_eq_walkedNames f i, written_resolve f i,
    isAbsolute_resolve f i, fun habsolute g ↦ resolve_of_isAbsolute habsolute g f,
    resolve_eq_nil_iff, resolve_eq_here_iff⟩

/-- A target from the root names the same file wherever it is included. From `../api/all.txt`, a
target leads up once through `api` and once more through a `..` that is kept. -/
theorem resolved_path_is_normal_for_targets :
    isAbsolute "/x/../y/." = true ∧ (∀ g, resolve g "/x/../y/." = "/y/") ∧
      Walks false [] ["..", "api", "..", "..", "x", ".", "y", "..", "z"] ["..", "..", "x", "z"] ∧
      written (resolve "../api/all.txt" "../../x/./y/../z") = ["..", "..", "x", "z"] := by
  have hwalks :
      Walks false [] ["..", "api", "..", "..", "x", ".", "y", "..", "z"] ["..", "..", "x", "z"] :=
    .cons (.kept rfl (by simp)) <| .cons (.name [".."] (by decide)) <|
      .cons (.back [".."] (by decide)) <| .cons (.kept rfl (by simp)) <|
      .cons (.name ["..", ".."] (by decide)) <| .cons (.here _) <|
      .cons (.name ["..", "..", "x"] (by decide)) <|
      .cons (.back ["..", "..", "x"] (by decide)) <|
      .cons (.name ["..", "..", "x"] (by decide)) <| .nil _
  obtain ⟨-, hnames, hwritten, -⟩ :=
    resolved_path_is_normal "../api/all.txt" "../../x/./y/../z"
  refine ⟨by decide, fun g ↦ ?_, hwalks, ?_⟩
  · have hindependent := (resolved_path_is_normal "d/e" "/x/../y/.").2.2.2.2.1 (by decide) g
    exact hindependent.trans (by decide)
  · rw [hwritten]
    exact ((hnames _).mp hwalks).symm

/-- Below a root that is written with two slashes a path is not in normal form. -/
theorem resolved_path_keeps_spare_slash :
    ¬∀ f i : Text, IsNormal (resolve f i) ∧ normal (resolve f i) = resolve f i :=
  fun h ↦ absurd (h "//" "x").1 (by decide)

/-! ## Paths that differ in their text alone -/

/-- Two paths are the same if both are absolute or neither is, and the components in their texts are
the same. The number of slashes between two components plays no part, but one at the end does. -/
structure Same (p q : Text) : Prop where
  isAbsolute_eq : isAbsolute p = isAbsolute q
  names_eq : FileTree.names p = FileTree.names q
  slash_iff : p.getLast? = some slash ↔ q.getLast? = some slash

theorem same_self (p : Text) : Same p p := ⟨rfl, rfl, Iff.rfl⟩

/-- Paths that are the same lead to the same place in every tree of files. -/
theorem Same.walk_eq (h : Same p q) (t : FileTree) :
    t.walk (t.start p) (FileTree.names p ++ FileTree.finalStep p)
      = t.walk (t.start q) (FileTree.names q ++ FileTree.finalStep q) := by
  rw [FileTree.start, FileTree.start, h.isAbsolute_eq, h.names_eq, FileTree.finalStep,
    FileTree.finalStep, if_congr h.slash_iff rfl rfl]

/-- Slashes in front of an absolute path are in excess. -/
theorem same_slashes_append (hz : ∀ b ∈ z, b = slash) (h : isAbsolute p = true) :
    Same p (z ++ p) := by
  obtain ⟨rest, rfl⟩ := isAbsolute_iff.mp h
  have hnone : (z.map fun _ ↦ ([] : Text)).filter (· != []) = [] := by
    rw [List.filter_eq_nil_iff]
    intro c hc
    simp [eq_nil_of_mem_map hc]
  refine ⟨?_, ?_, ?_⟩
  · rw [isAbsolute_of_slashes hz, h]
  · rw [FileTree.names, FileTree.names, splitOn_slashes_append hz, List.filter_append, hnone,
      List.nil_append]
  · rw [List.getLast?_append_of_ne_nil _ (List.cons_ne_nil _ _)]

/-! ## Files included through others -/

theorem isAbsolute_origin_join (h : isAbsolute q = false) (f p : Text) :
    isAbsolute (origin f (join (parent p) q)) = isAbsolute (origin f p) := by
  rw [isAbsolute_origin, isAbsolute_origin, isAbsolute_join, isAbsolute_parent, h, Bool.or_false]

/-- A relative path is no root, whatever it is joined to. -/
theorem spareSlashes_join (h : isAbsolute q = false) (hne : q ≠ []) (p : Text) :
    spareSlashes (join p q) = [] := by
  refine if_neg fun hroot ↦ ?_
  obtain ⟨b, rest, rfl⟩ := List.exists_cons_of_ne_nil hne
  have hb := (isRoot_iff.mp hroot).2 b (mem_join List.mem_cons_self)
  rw [isAbsolute, List.head?_cons, hb] at h
  exact absurd h (by decide)

section

variable {a : Text} (ha : IsName (fileName a))
include ha

/-- The names of a file with a proper name: those of its directory and its own. -/
theorem walkedNames_of_isName (f : Text) : walkedNames f a
      = (walk (isAbsolute (origin f a)) (walk (isAbsolute (origin f a)) [] (base f a))
          (parent a)).reverse ++ [fileName a] := by
  rw [walkedNames, walk_parent, step_of_isName ha, List.reverse_cons]

theorem resolve_of_isName (f : Text) :
    resolve f a = ofComponents (root (origin f a)) false (walkedNames f a) := by
  have hsome : ¬(a = [] ∧ parent f = []) := by
    rintro ⟨rfl, -⟩
    exact ha.ne_nil rfl
  have hfile : endsInDirectory a = false := by
    simp [endsInDirectory, ha.ne_nil, ha.ne_here, ha.ne_above]
  rw [resolve_eq_ofComponents hsome, hfile]

theorem fileName_resolve (f : Text) : fileName (resolve f a) = fileName a := by
  have hsettled := settled_walkedNames f a
  rw [walkedNames_of_isName ha] at hsettled
  rw [resolve_of_isName ha, walkedNames_of_isName ha,
    fileName_ofComponents eq_slash_of_mem_root hsettled]
  exact if_neg fun h ↦ Bool.false_ne_true h.1

/-- The directory of an included file walks like the directory of its target, from where the target
was taken. -/
theorem walk_parent_resolve (f : Text) :
    walk (isAbsolute (origin f a)) [] (parent (resolve f a))
      = walk (isAbsolute (origin f a)) (walk (isAbsolute (origin f a)) [] (base f a))
          (parent a) := by
  have hwalk := walk_ofComponents (eq_slash_of_mem_root (p := origin f a)) (settled_walkedNames f a)
    false
  rw [← resolve_of_isName ha, walk_parent, fileName_resolve ha, step_of_isName ha,
    walkedNames_of_isName ha, List.reverse_concat, List.reverse_reverse, List.cons.injEq] at hwalk
  exact hwalk.2

theorem isRoot_resolve (f : Text) : isRoot (resolve f a) = false := by
  rw [Bool.eq_false_iff]
  intro hroot
  have hname := fileName_resolve ha f
  rw [fileName_of_isRoot hroot] at hname
  exact ha.ne_nil hname.symm

variable {b : Text} (hb : isAbsolute b = false)
include hb

/-- What a path leads to inside an included file: the names of a walk along both targets. -/
theorem walkedNames_resolve (f : Text) :
    walkedNames (resolve f a) b = walkedNames f (join (parent a) b) := by
  have hbase : base f (join (parent a) b) = base f a := by
    rw [base, base, isAbsolute_join, isAbsolute_parent, hb, Bool.or_false]
  have hrelative : ¬isAbsolute b = true := Bool.eq_false_iff.mp hb
  rw [walkedNames, walkedNames, isAbsolute_origin_join hb, hbase, walk_join hb,
    ← walk_parent_resolve ha f, origin, base, if_neg hrelative, if_neg hrelative,
    isAbsolute_resolve]

/-- A path that is resolved inside an included file is the path that leads along both targets from
the including file, but for the slashes that the root has in excess. -/
theorem resolve_join_parent (hne : b ≠ []) (f : Text) : resolve f (join (parent a) b)
    = spareSlashes (origin f (join (parent a) b)) ++ resolve (resolve f a) b := by
  have hsome : ∀ {g i : Text}, i ≠ [] → ¬(i = [] ∧ parent g = []) := fun hi h ↦ hi h.1
  have hjoin : join (parent a) b ≠ [] := fun h ↦ hne (join_eq_nil_iff.mp h).2
  have horigin : origin (resolve f a) b = resolve f a := if_neg (Bool.eq_false_iff.mp hb)
  have hspare : spareSlashes (resolve f a) = [] :=
    if_neg (Bool.eq_false_iff.mp (isRoot_resolve ha f))
  rw [resolve_eq (hsome hjoin), resolve_eq (hsome hne), walkedNames_resolve ha hb, horigin, hspare,
    isAbsolute_resolve, isAbsolute_origin_join hb, List.nil_append, endsInDirectory,
    endsInDirectory, fileName_join]

end

/-- **Includes inside includes.** What `b` names inside the file that `a` names is what the one path
from the directory of `a` to `b` names, whatever was normalised on the way. The two texts can only
differ in the slashes that the root of the including file has in excess. -/
theorem nested_include_is_one_path {a b : Text} (ha : IsName (fileName a)) (hb : b ≠ [])
    (f : Text) :
    Same (resolve (resolve f a) b) (resolve f (join (parent a) b)) ∧
    (isAbsolute a = true ∨ isAbsolute b = true ∨ spareSlashes f = [] →
      resolve (resolve f a) b = resolve f (join (parent a) b)) := by
  by_cases habsolute : isAbsolute b = true
  · rw [join_of_isAbsolute habsolute, resolve_of_isAbsolute habsolute (resolve f a) f]
    exact ⟨same_self _, fun _ ↦ rfl⟩
  have hrelative := Bool.eq_false_iff.mpr habsolute
  have hspare : isAbsolute a = true ∨ spareSlashes f = [] →
      spareSlashes (origin f (join (parent a) b)) = [] := by
    intro h
    rw [origin]
    split
    case isTrue => exact spareSlashes_join hrelative hb (parent a)
    case isFalse hjoin =>
      refine h.resolve_left fun ha ↦ hjoin ?_
      rw [isAbsolute_join, isAbsolute_parent, ha, Bool.true_or]
  rw [resolve_join_parent ha hrelative hb]
  constructor
  · by_cases hnone : spareSlashes (origin f (join (parent a) b)) = []
    · rw [hnone]
      exact same_self _
    · refine same_slashes_append eq_slash_of_mem_spareSlashes ?_
      have horigin : isAbsolute (origin (resolve f a) b)
          = isAbsolute (origin f (join (parent a) b)) := by
        rw [isAbsolute_origin_join hrelative, isAbsolute_origin, hrelative, Bool.false_or,
          isAbsolute_resolve]
      rw [isAbsolute_resolve, horigin]
      exact isAbsolute_of_spareSlashes hnone
  · intro h
    rw [hspare (h.imp_right fun h ↦ h.resolve_left habsolute)]
    rfl

/-- The directory of the outer target vanishes when it is normalised, and the inner target leads one
directory further up. -/
theorem nested_include_is_one_path_where_directory_vanishes :
    resolve (resolve "api/all.txt" "x/../../z.txt") "../b.txt" = "../b.txt" ∧
      resolve "api/all.txt" "x/../../../b.txt" = "../b.txt" := by
  have h := (nested_include_is_one_path (a := "x/../../z.txt") (b := "../b.txt")
    ⟨by decide, by decide, by decide⟩ (by decide) "api/all.txt").2 (.inr (.inr (by decide)))
  have hjoin : join (parent "x/../../z.txt") "../b.txt" = "x/../../../b.txt" := by decide
  rw [hjoin] at h
  have houter : resolve "api/all.txt" "x/../../../b.txt" = "../b.txt" := by decide
  exact ⟨h.trans houter, houter⟩

end Path

end NativeApi

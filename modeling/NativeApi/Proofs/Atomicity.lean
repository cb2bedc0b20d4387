import NativeApi.Proofs.PathWalks
import NativeApi.Proofs.Placement

/-!
# Output that is all or nothing

To write output is to make the directories above it, to write a file beside it, and to move that
file into its place. Any of the three can fail. What has happened to a tree is told location by
location: outside of some places every node is what it was, or is a new directory
(`FileTree.GainsOutside`). There is no such place as long as directories are made. The place of the
file beside the output is the only one if the move fails, and it is empty then. The place of the
output is another one if the move succeeds.

The two places are different because the one name is longer than the other
(`OutputFile.ne_of_target_temporary`). For that the name must be read to its end. The system reads a
path up to its first zero byte, and two paths that agree so far are the same path.
-/

namespace NativeApi

open Text (untilZero splitOn)

/-! ## What the system reads of a path -/

namespace Text

variable {t : Text}

theorem untilZero_of_notMem (h : 0 ∉ t) : untilZero t = t := by
  rw [untilZero, List.takeWhile_eq_self_iff]
  intro b hb
  rw [bne_iff_ne]
  exact ne_of_mem_of_not_mem hb h

theorem untilZero_append_of_mem (h : 0 ∈ t) (u : Text) : untilZero (t ++ u) = untilZero t := by
  obtain ⟨before, rest, rfl, hbefore⟩ := List.eq_append_cons_of_mem h
  have hpos : ∀ b ∈ before, (b != 0) = true := fun b hb ↦
    bne_iff_ne.mpr (ne_of_mem_of_not_mem hb hbefore)
  rw [untilZero, untilZero, List.append_assoc, List.cons_append,
    List.takeWhile_append_of_pos hpos, List.takeWhile_append_of_pos hpos,
    List.takeWhile_cons_of_neg (by decide), List.takeWhile_cons_of_neg (by decide)]

end Text

namespace FileTree

variable {t u v : FileTree} {p q : Text} {l k : Location}

theorem systemPath_congr (h : untilZero p = untilZero q) : systemPath p = systemPath q := by
  rw [systemPath, systemPath, h]

theorem status_congr (h : untilZero p = untilZero q) : t.status p = t.status q := by
  rw [status, status, systemPath_congr h]

/-! ## Changes outside of some places -/

/-- Outside of some places, every node is what it was, or it is a directory where there was
nothing. -/
structure GainsOutside (places : List Location) (t v : FileTree) : Prop where
  current : v.current = t.current
  node : ∀ l ∉ places, v.find? l = t.find? l ∨ (t.find? l = none ∧ v.find? l = some .directory)

namespace GainsOutside

variable {places more : List Location}

theorem refl (t : FileTree) : GainsOutside places t t where
  current := rfl
  node _ _ := .inl rfl

theorem trans (h : GainsOutside places t u) (h' : GainsOutside places u v) :
    GainsOutside places t v where
  current := h'.current.trans h.current
  node l hl := by
    rcases h'.node l hl with hv | ⟨hu, hv⟩
    · rw [hv]
      exact h.node l hl
    · rcases h.node l hl with hu' | ⟨-, hu'⟩
      · exact .inr ⟨hu'.symm.trans hu, hv⟩
      · rw [hu] at hu'
        cases hu'

theorem mono (h : GainsOutside places t v) (hmore : places ⊆ more) : GainsOutside more t v where
  current := h.current
  node l hl := h.node l fun hmem ↦ hl (hmore hmem)

theorem keeps (h : GainsOutside places t v)
    (hplaces : ∀ l ∈ places, t.find? l ≠ some .directory) : t.Keeps v where
  current := h.current
  directory l hl := by
    rcases h.node l fun hmem ↦ hplaces l hmem hl with hv | ⟨hnone, -⟩
    · rw [hv, hl]
    · rw [hl] at hnone
      cases hnone

theorem file_eq (h : GainsOutside places t v) (hl : l ∉ places) {content : Text} :
    v.find? l = some (.file content) ↔ t.find? l = some (.file content) := by
  rcases h.node l hl with hv | ⟨ht, hv⟩
  · rw [hv]
  · simp [ht, hv]

end GainsOutside

theorem gainsOutside_insert (t : FileTree) (l : Location) (n : Node) :
    GainsOutside [l] t (t.insert l n) where
  current := rfl
  node _ hk := .inl (find?_insert_of_ne t (List.ne_of_not_mem_cons hk) n)

theorem gainsOutside_erase (t : FileTree) (l : Location) : GainsOutside [l] t (t.erase l) where
  current := rfl
  node _ hk := .inl (find?_erase_of_ne t (List.ne_of_not_mem_cons hk))

/-! ## Directories -/

theorem gainsOutside_makeDirectory (h : t.makeDirectory p = .ok v) : GainsOutside [] t v := by
  rw [makeDirectory, bind_eq_ok] at h
  obtain ⟨place, hplace, h⟩ := h
  cases place with
  | inUse =>
    cases h
    exact .refl t
  | entry l =>
    simp only at h
    split at h
    · rename_i hnone
      cases h
      refine ⟨rfl, fun k _ ↦ ?_⟩
      by_cases hk : k = l
      · rw [hk]
        exact .inr ⟨hnone, find?_insert_self t (ne_nil_of_target hplace) _⟩
      · exact .inl (find?_insert_of_ne t hk _)
    · cases h
      exact .refl t
    · cases h

theorem gainsOutside_makeAll (t : FileTree) (paths : List Text) :
    GainsOutside [] t (t.makeAll paths).1 := by
  induction paths generalizing t with
  | nil => exact .refl t
  | cons p rest ih =>
    rw [makeAll]
    cases hmake : t.makeDirectory p with
    | ok u => exact (gainsOutside_makeDirectory hmake).trans (ih u)
    | error e => exact .refl t

theorem gainsOutside_makeDirectories (t : FileTree) (p : Text) :
    GainsOutside [] t (t.makeDirectories p).1 := by
  rw [makeDirectories]
  split
  · exact gainsOutside_makeAll t _
  · exact .refl t

/-! ## Files -/

theorem finalStep_of_writeFile {content : Text} (h : t.writeFile p content = .ok v) :
    finalStep (untilZero p) = [] := by
  rw [writeFile, bind_eq_ok] at h
  obtain ⟨place, -, h⟩ := h
  cases place with
  | inUse => cases h
  | entry l =>
    simp only at h
    split at h
    · cases h
    · rename_i hfree
      exact Classical.not_not.mp (not_or.mp hfree).2

theorem removeFile_eq_erase (hp : t.target p = .ok (.entry l)) (hl : t.find? l ≠ some .directory) :
    t.removeFile p = t.erase l := by
  rw [removeFile, hp]
  exact if_neg hl

/-- An empty place instead of a file blocks no way that was open. -/
theorem keeps_of_erase (hl : l ≠ []) : (t.erase l).Keeps t where
  current := rfl
  directory k hk := by
    have hne : k ≠ l := by
      rintro rfl
      rw [find?_erase_self t hl] at hk
      cases hk
    rwa [find?_erase_of_ne t hne] at hk

theorem keeps_moveFile (h : t.moveFile p q = .ok v) : t.Keeps v := by
  obtain ⟨l, k, content, hp, -, hl, -, hk, rfl⟩ := moveFile_eq_ok h
  have herased : t.Keeps (t.erase l) := keeps_erase (by rw [hl]; simp)
  refine herased.trans (keeps_insert ?_ _)
  by_cases hlk : k = l
  · rw [hlk, find?_erase_self t (ne_nil_of_target hp)]
    simp
  · rwa [find?_erase_of_ne t hlk]

/-- A file can be moved to its own place. -/
theorem exists_moveFile_of_target_eq {content : Text} (hp : t.target p = .ok (.entry l))
    (hq : t.target q = .ok (.entry l)) (hl : t.find? l = some (.file content))
    (hpfinal : finalStep (untilZero p) = []) (hqfinal : finalStep (untilZero q) = []) :
    ∃ v, t.moveFile p q = .ok v := by
  refine ⟨(t.erase l).insert l (.file content), ?_⟩
  rw [moveFile, bind_eq_ok]
  refine ⟨_, hp, ?_⟩
  rw [bind_eq_ok]
  refine ⟨_, hq, ?_⟩
  simp only [hl, hpfinal, hqfinal, reduceCtorEq, ne_eq, not_true_eq_false, or_self, if_false,
    Option.some.injEq]

/-! ## Names at the end of a path -/

/-- The last component of a path is the one that grows if bytes are put behind the path. -/
theorem exists_names_append (p : Text) :
    ∃ front last, ∀ s, Path.slash ∉ s →
      names (p ++ s) = front ++ [last ++ s].filter (· != []) := by
  rcases Path.cut_cases p with hp | ⟨front, z, hz, rfl⟩
  · refine ⟨[], p, fun s hs ↦ ?_⟩
    have hslash : Path.slash ∉ p ++ s := by
      rw [List.mem_append, not_or]
      exact ⟨hp, hs⟩
    rw [names, Text.splitOn_eq_singleton hslash, List.nil_append]
  · refine ⟨names front, z, fun s hs ↦ ?_⟩
    have hslash : Path.slash ∉ z ++ s := by
      rw [List.mem_append, not_or]
      exact ⟨hz, hs⟩
    rw [names, List.append_assoc, List.cons_append, Text.splitOn_append_separator,
      List.filter_append, Text.splitOn_eq_singleton hslash, names]

/-- The target of a path is where all its names lead, the last one in front. -/
theorem walk_of_target (h : t.target p = .ok (.entry l)) :
    ∃ path front last directory, systemPath p = .ok path ∧ names path = front ++ [last] ∧
      t.walk (t.start path) front = .ok directory ∧ t.walk (t.start path) (names path) = .ok l ∧
      l = last :: directory := by
  obtain ⟨path, front, last, directory, hpath, hfront, hwalk, hstep, hhere, habove⟩ :=
    target_eq_entry_iff.mp h
  have hwhole : t.walk (t.start path) (names path) = .ok l := by
    rw [hfront, walk, List.foldlM_append, bind_eq_ok]
    refine ⟨directory, hwalk, ?_⟩
    rw [List.foldlM_cons, bind_eq_ok]
    exact ⟨l, hstep, rfl⟩
  refine ⟨path, front, last, directory, hpath, hfront, hwalk, hwhole, ?_⟩
  rw [step, find?_of_step hstep] at hstep
  simp only [if_neg hhere, if_neg habove] at hstep
  split at hstep
  · cases hstep
  · cases hstep
    rfl

/-- A path to a place where nothing is leads to nothing. -/
theorem status_of_target_of_none (hl : t.target p = .ok (.entry l))
    (hfinal : finalStep (untilZero p) = []) (hnone : t.find? l = none) :
    t.status p = .error .noEntry := by
  obtain ⟨path, -, -, -, hpath, -, -, hwhole, -⟩ := walk_of_target hl
  rw [← eq_untilZero_of_systemPath hpath] at hfinal
  simp only [status, hpath, hfinal, List.append_nil, hwhole, hnone, bind, Except.bind]

/-- The path names a place: the directories before its last name are there, and the last name is
neither `.` nor `..`. -/
def IsAt (t : FileTree) (p : Text) (l : Location) : Prop := t.target p = .ok (.entry l)

theorem IsAt.unique (hl : t.IsAt p l) (hk : t.IsAt p k) : l = k := by
  rw [IsAt, hk] at hl
  cases hl
  rfl

end FileTree

/-! ## The file beside the output -/

namespace OutputFile

open FileTree (GainsOutside systemPath names finalStep)

variable {t u v : FileTree} {path content : Text} {l k : Location} {fault : Option OutputFault}

theorem untilZero_temporary_of_mem (h : 0 ∈ path) :
    untilZero (temporary path) = untilZero path :=
  Text.untilZero_append_of_mem h _

theorem zero_notMem_temporary (h : 0 ∉ path) : 0 ∉ temporary path := by
  rw [temporary, List.mem_append, not_or]
  exact ⟨h, by decide⟩

/-- **The file beside the output has a place of its own.** Its name is that of the output with more
behind it, or, if the path ends in a slash, a name below that of the output. -/
theorem ne_of_target_temporary (hzero : 0 ∉ path) (hk : t.IsAt path k)
    (hl : t.IsAt (temporary path) l) : k ≠ l := by
  obtain ⟨p, front, last, directory, hp, hfront, -, hwhole, rfl⟩ := FileTree.walk_of_target hk
  obtain ⟨q, front', last', directory', hq, hfront', hwalk', -, rfl⟩ :=
    FileTree.walk_of_target hl
  have hpath : p = path := by
    rw [FileTree.eq_untilZero_of_systemPath hp, Text.untilZero_of_notMem hzero]
  have htemporary : q = path ++ ".partial" := by
    rw [FileTree.eq_untilZero_of_systemPath hq,
      Text.untilZero_of_notMem (zero_notMem_temporary hzero), temporary]
  have hne : path ≠ [] := by
    rintro rfl
    rw [hpath] at hfront
    exact absurd hfront (by simp [names, splitOn])
  have hstart : t.start q = t.start p := by
    rw [FileTree.start, FileTree.start, htemporary, hpath, Path.isAbsolute_append hne]
  subst hpath htemporary
  obtain ⟨before, z, hnames⟩ := FileTree.exists_names_append p
  have hself := hnames [] List.not_mem_nil
  have hlonger := hnames ".partial" (by decide)
  rw [List.append_nil, List.append_nil] at hself
  have hkept : [z ++ (".partial" : Text)].filter (· != []) = [z ++ ".partial"] := by
    simp [Text.ofLiteral]
  rw [hkept, hfront'] at hlonger
  obtain ⟨rfl, hlast'⟩ := List.append_inj' hlonger rfl
  obtain rfl := List.singleton_inj.mp hlast'
  by_cases hz : z = []
  · -- The path ends in a slash, so the names before the last are all of its names.
    subst hz
    rw [List.filter_cons_of_neg (by decide), List.filter_nil, List.append_nil] at hself
    rw [hstart, ← hself, hwhole, Except.ok.injEq] at hwalk'
    rw [← hwalk']
    intro heq
    exact absurd (congrArg List.length heq) (by simp)
  · rw [List.filter_cons_of_pos (by simpa using hz), List.filter_nil, hfront] at hself
    obtain ⟨-, hlast⟩ := List.append_inj' hself rfl
    obtain rfl := List.singleton_inj.mp hlast
    intro heq
    have hlength := congrArg List.length (List.cons.inj heq).1
    rw [List.length_append] at hlength
    exact absurd hlength (by simp [Text.ofLiteral])

/-! ## What writing leaves -/

/-- A move that fails is one to another place. -/
theorem not_isAt_of_moveFile_eq_error {e : FileError} (hl : u.IsAt (temporary path) l)
    (hfile : u.find? l = some (.file content))
    (hfinal : finalStep (untilZero (temporary path)) = [])
    (hmove : u.moveFile (temporary path) path = .error e) : ¬u.IsAt path l := by
  intro hk
  by_cases hzero : 0 ∈ path
  · rw [untilZero_temporary_of_mem hzero] at hfinal
    have hfinal' : finalStep (untilZero (temporary path)) = [] := by
      rw [untilZero_temporary_of_mem hzero, hfinal]
    obtain ⟨v, hv⟩ := FileTree.exists_moveFile_of_target_eq hl hk hfile hfinal' hfinal
    rw [hv] at hmove
    cases hmove
  · exact ne_of_target_temporary hzero hk hl rfl

/-- The place of the file beside the output, after a failure. -/
structure IsCleared (t v : FileTree) (path : Text) (l : Location) : Prop where
  isAt : v.IsAt (temporary path) l
  not_isAt : ¬v.IsAt path l
  before : t.find? l ≠ some .directory
  after : v.find? l = none

/-- After a failure there is at most one place where anything but a directory has changed, and there
is nothing in it. -/
theorem exists_cleared_of_failure {fault : OutputFault}
    (h : writeAndMove t path content = (v, some fault)) :
    ∃ places, GainsOutside places t v ∧ ∀ l ∈ places, IsCleared t v path l := by
  rw [writeAndMove] at h
  split at h
  · cases h
    exact ⟨[], .refl t, fun l hl ↦ absurd hl List.not_mem_nil⟩
  · rename_i u hwrite
    split at h
    · rename_i e hmove
      cases h
      have hfinal := FileTree.finalStep_of_writeFile hwrite
      obtain ⟨l, hl, hfree, rfl⟩ := FileTree.writeFile_eq_ok hwrite
      have hne := FileTree.ne_nil_of_target hl
      have hfile := FileTree.find?_insert_self t hne (.file content)
      have hnot : (t.insert l (.file content)).find? l ≠ some .directory := by rw [hfile]; simp
      have hwritten := (FileTree.keeps_insert hfree (.file content)).target hl
      rw [FileTree.removeFile_eq_erase hwritten hnot]
      refine ⟨[l], (FileTree.gainsOutside_insert t l _).trans (FileTree.gainsOutside_erase _ l), ?_⟩
      intro place hplace
      obtain rfl := List.mem_singleton.mp hplace
      refine ⟨(FileTree.keeps_erase hnot).target hwritten, fun hk ↦ ?_, hfree,
        FileTree.find?_erase_self _ hne⟩
      exact not_isAt_of_moveFile_eq_error hwritten hfile hfinal hmove
        ((FileTree.keeps_of_erase hne).target hk)
    · cases h

/-- The places of the file beside the output and of the output itself, after success. -/
structure AreFilled (t v : FileTree) (path : Text) (l k : Location) : Prop where
  isAt_temporary : v.IsAt (temporary path) l
  isAt : v.IsAt path k
  temporary_before : t.find? l ≠ some .directory
  before : t.find? k ≠ some .directory
  /-- The file is moved from the one to the other, if they are two. -/
  temporary_after : l ≠ k → v.find? l = none

/-- After success these are the only places where anything but a directory has changed. -/
theorem exists_filled_of_success (h : writeAndMove t path content = (v, none)) :
    finalStep (untilZero (temporary path)) = [] ∧
      ∃ l k, GainsOutside [l, k] t v ∧ AreFilled t v path l k := by
  rw [writeAndMove] at h
  split at h
  · cases h
  · rename_i u hwrite
    split at h
    · cases h
    · rename_i w hmove
      cases h
      have hfinal := FileTree.finalStep_of_writeFile hwrite
      have hkeeps := FileTree.keeps_moveFile hmove
      obtain ⟨l, hl, hfree, rfl⟩ := FileTree.writeFile_eq_ok hwrite
      obtain ⟨l', k, moved, hl', hk, -, -, hk', rfl⟩ := FileTree.moveFile_eq_ok hmove
      have hinsert := FileTree.keeps_insert hfree (.file content)
      obtain rfl : l' = l := FileTree.IsAt.unique hl' (hinsert.target hl)
      have hwrites : GainsOutside [l', k] t (t.insert l' (.file content)) :=
        (FileTree.gainsOutside_insert t l' _).mono (by simp)
      have herases : GainsOutside [l', k] (t.insert l' (.file content)) _ :=
        (FileTree.gainsOutside_erase _ l').mono (by simp)
      have hmoves : GainsOutside [l', k] ((t.insert l' (.file content)).erase l') _ :=
        (FileTree.gainsOutside_insert _ k (.file moved)).mono (by simp)
      refine ⟨hfinal, l', k, (hwrites.trans herases).trans hmoves, hkeeps.target hl',
        hkeeps.target hk, hfree, fun hdirectory ↦ hk' (hinsert.directory k hdirectory),
        fun hne ↦ ?_⟩
      rw [FileTree.find?_insert_of_ne _ hne,
        FileTree.find?_erase_self _ (FileTree.ne_nil_of_target hl)]

/-! ### Directories first -/

theorem gainsOutside_makeParents (t : FileTree) (path : Text) :
    GainsOutside [] t (makeParents t path).1 := by
  rw [makeParents]
  split
  · exact .refl t
  · exact FileTree.gainsOutside_makeDirectories t _

/-- The directories above the output are all there is, or the rest follows on them. -/
theorem write_cases (h : write t path content = (v, fault)) :
    (∃ e, fault = some (.directories path e) ∧ GainsOutside [] t v) ∨
      ∃ u, GainsOutside [] t u ∧ writeAndMove u path content = (v, fault) := by
  have hparents := gainsOutside_makeParents t path
  rw [write] at h
  split at h
  · rename_i u e hmade
    cases h
    rw [hmade] at hparents
    exact .inl ⟨e.text, rfl, hparents⟩
  · rename_i u hmade
    rw [hmade] at hparents
    exact .inr ⟨u, hparents, h⟩

theorem ne_directory_of_gains (h : GainsOutside [] t u) (hl : u.find? l ≠ some .directory) :
    t.find? l ≠ some .directory := by
  have hkeeps := h.keeps fun l hl ↦ absurd hl List.not_mem_nil
  exact fun hdirectory ↦ hl (hkeeps.directory l hdirectory)

/-! ## All or nothing -/

/-- Output has been written: the tree before and the tree after. -/
structure Written (t v : FileTree) (path content : Text) : Prop where
  output : v.status path = .ok (.file content)
  temporary : 0 ∉ path → v.status (temporary path) = .error .noEntry
  /-- Paths that agree up to a zero byte lead to the same place. -/
  shared : 0 ∈ path → v.status (OutputFile.temporary path) = v.status path
  kept : ∀ l file, t.find? l = some (.file file) → ¬v.IsAt path l →
    ¬v.IsAt (OutputFile.temporary path) l → v.find? l = some (.file file)
  added : ∀ l file, v.find? l = some (.file file) →
    v.IsAt path l ∨ t.find? l = some (.file file)
  directories : ∀ l, t.find? l = some .directory → v.find? l = some .directory
  places : ∀ p l, t.IsAt p l → v.IsAt p l

/-- Output has not been written: the tree before and the tree after. -/
structure NotWritten (t v : FileTree) (path : Text) : Prop where
  kept : ∀ l file, t.find? l = some (.file file) → ¬v.IsAt (temporary path) l →
    v.find? l = some (.file file)
  older : ∀ l file, v.IsAt path l → t.find? l = some (.file file) →
    v.find? l = some (.file file)
  added : ∀ l file, v.find? l = some (.file file) → t.find? l = some (.file file)
  directories : ∀ l, t.find? l = some .directory → v.find? l = some .directory
  /-- A directory that is new stands where nothing was. -/
  directories_added : ∀ l, v.find? l = some .directory →
    t.find? l = some .directory ∨ t.find? l = none
  places : ∀ p l, t.IsAt p l → v.IsAt p l

theorem written_of_success (h : write t path content = (v, none)) : Written t v path content := by
  have houtput : v.status path = .ok (.file content) := by
    have hstatus : (write t path content).1.status path = .ok (.file content) :=
      status_write (by rw [h])
    rwa [h] at hstatus
  obtain ⟨e, hfault, -⟩ | ⟨u, hparents, hwrite⟩ := write_cases h
  · cases hfault
  obtain ⟨hfinal, l, k, hchanged, hfilled⟩ := exists_filled_of_success hwrite
  have hgains : GainsOutside [l, k] t v := (hparents.mono (List.nil_subset _)).trans hchanged
  have hkeeps : t.Keeps v := by
    refine hgains.keeps fun m hm ↦ ?_
    rcases List.mem_pair.mp hm with rfl | rfl
    · exact ne_directory_of_gains hparents hfilled.temporary_before
    · exact ne_directory_of_gains hparents hfilled.before
  exact
    { output := houtput
      temporary := by
        intro hzero
        have hne : k ≠ l := ne_of_target_temporary hzero hfilled.isAt hfilled.isAt_temporary
        exact FileTree.status_of_target_of_none hfilled.isAt_temporary hfinal
          (hfilled.temporary_after hne.symm)
      shared := fun hzero ↦ FileTree.status_congr (untilZero_temporary_of_mem hzero)
      kept := by
        intro m file hm hk hl
        refine (hgains.file_eq fun hmem ↦ ?_).mpr hm
        rcases List.mem_pair.mp hmem with rfl | rfl
        · exact hl hfilled.isAt_temporary
        · exact hk hfilled.isAt
      added := by
        intro m file hm
        by_cases hk : m = k
        · exact .inl (hk ▸ hfilled.isAt)
        · refine .inr ((hgains.file_eq fun hmem ↦ ?_).mp hm)
          obtain rfl := (List.mem_pair.mp hmem).resolve_right hk
          rw [hfilled.temporary_after hk] at hm
          cases hm
      directories := hkeeps.directory
      places := fun _ _ hm ↦ hkeeps.target hm }

theorem exists_cleared_of_write {fault : OutputFault}
    (h : write t path content = (v, some fault)) :
    ∃ places, GainsOutside places t v ∧ ∀ l ∈ places, IsCleared t v path l := by
  obtain ⟨-, -, hparents⟩ | ⟨u, hparents, hwrite⟩ := write_cases h
  · exact ⟨[], hparents, fun l hl ↦ absurd hl List.not_mem_nil⟩
  · obtain ⟨places, hgains, hcleared⟩ := exists_cleared_of_failure hwrite
    refine ⟨places, (hparents.mono (List.nil_subset _)).trans hgains, fun l hl ↦ ?_⟩
    have hl := hcleared l hl
    exact { hl with before := ne_directory_of_gains hparents hl.before }

theorem notWritten_of_failure {fault : OutputFault}
    (h : write t path content = (v, some fault)) : NotWritten t v path := by
  obtain ⟨places, hgains, hcleared⟩ := exists_cleared_of_write h
  have hkeeps : t.Keeps v := hgains.keeps fun l hl ↦ (hcleared l hl).before
  have hempty : ∀ l n, v.find? l = some n → l ∉ places := by
    intro l n hl hmem
    rw [(hcleared l hmem).after] at hl
    cases hl
  exact
    { kept := fun l file hl hnot ↦
        (hgains.file_eq fun hmem ↦ hnot (hcleared l hmem).isAt).mpr hl
      older := fun l file hat hl ↦
        (hgains.file_eq fun hmem ↦ (hcleared l hmem).not_isAt hat).mpr hl
      added := fun l file hl ↦ (hgains.file_eq (hempty l _ hl)).mp hl
      directories := hkeeps.directory
      directories_added := by
        intro l hl
        rcases hgains.node l (hempty l _ hl) with hv | ⟨hnone, -⟩
        · exact .inl (hv ▸ hl)
        · exact .inr hnone
      places := fun _ _ hl ↦ hkeeps.target hl }

end OutputFile

theorem OutputFault.message_ne_nil (fault : OutputFault) : fault.message ≠ [] := by
  cases fault <;> simp [message, Text.quoted, Text.ofLiteral]

/-- **Writing is all or nothing.** If there is no fault, the output is a file with exactly the
content, no other file has been added, and every file is as it was but for the output and the file
beside it, which is gone. If there is a fault, it has a message, and every file is as it was but for
the file beside the output, which may be gone; nothing has been added but directories. Where the
path has a zero byte, the file beside the output is the output, and stays. -/
theorem writing_is_all_or_nothing (t : FileTree) (path content : Text) :
    ((OutputFile.write t path content).2 = none →
      OutputFile.Written t (OutputFile.write t path content).1 path content) ∧
    ∀ fault, (OutputFile.write t path content).2 = some fault →
      fault.message ≠ [] ∧ OutputFile.NotWritten t (OutputFile.write t path content).1 path := by
  refine ⟨fun h ↦ ?_, fun fault h ↦ ⟨fault.message_ne_nil, ?_⟩⟩
  · exact OutputFile.written_of_success (Prod.ext rfl h)
  · exact OutputFile.notWritten_of_failure (Prod.ext rfl h)

/-- An older output, what a run that was killed has left beside it, and a directory. -/
def treeWithRemnant : FileTree where
  current := ["work"]
  nodes := [(["work"], .directory), (["out", "work"], .directory),
    (["Api.il", "work"], .file "older"), (["Api.il.partial", "work"], .file "rest")]

theorem writing_is_all_or_nothing_with_remnant :
    (OutputFile.write treeWithRemnant "new/../Api.il" "text").2 = none ∧
      (OutputFile.write treeWithRemnant "new/../Api.il" "text").1.status "new/../Api.il"
        = .ok (.file "text") ∧
      (OutputFile.write treeWithRemnant "new/../Api.il" "text").1.status "new/../Api.il.partial"
        = .error .noEntry ∧
      ∃ fault, (OutputFile.write treeWithRemnant "new/../out" "text").2 = some fault ∧
        fault.message ≠ [] ∧
        (OutputFile.write treeWithRemnant "new/../out" "text").1.find? ["Api.il", "work"]
          = some (.file "older") := by
  have hnone : (OutputFile.write treeWithRemnant "new/../Api.il" "text").2 = none := by
    decide
  have hsome : ((OutputFile.write treeWithRemnant "new/../out" "text").2).isSome = true := by
    decide
  have hapart : ¬(OutputFile.write treeWithRemnant "new/../out" "text").1.IsAt
      (OutputFile.temporary "new/../out") ["Api.il", "work"] := by
    rw [FileTree.IsAt]
    decide
  obtain ⟨fault, hfault⟩ := Option.isSome_iff_exists.mp hsome
  have hwritten := (writing_is_all_or_nothing treeWithRemnant "new/../Api.il" "text").1 hnone
  obtain ⟨hmessage, hkept⟩ :=
    (writing_is_all_or_nothing treeWithRemnant "new/../out" "text").2 fault hfault
  exact ⟨hnone, hwritten.output, hwritten.temporary (by decide), fault, hfault, hmessage,
    hkept.kept _ _ (by decide) hapart⟩

/-- Behind a zero byte the file beside the output is the output. -/
theorem output_stays_beside_itself :
    ¬∀ (t : FileTree) (path content : Text), (OutputFile.write t path content).2 = none →
      (OutputFile.write t path content).1.status (OutputFile.temporary path)
        = .error .noEntry := by
  intro h
  have hnone : (OutputFile.write treeWithRemnant "a\x00b" "text").2 = none := by decide
  have hstatus := h treeWithRemnant "a\x00b" "text" hnone
  revert hstatus
  decide

end NativeApi

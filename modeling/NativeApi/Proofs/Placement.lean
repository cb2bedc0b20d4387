import NativeApi.FileTree.OutputFile
import NativeApi.Proofs.Reading

/-!
# Where written output stands

Writing follows the path of the output twice, once for the file beside it and once for the move, and
whoever looks for the output later follows it a third time. These are walks in different trees, and
they end at the same place because a walk looks at nothing but directories: a tree that has all
directories of another one (`FileTree.Keeps`) leads every path that led somewhere to the same place.
Writing, moving and removing files touches no directory.

So a file that has been moved is found where its path leads, whole and in the place of what was
there (`OutputFile.status_write`).
-/

namespace NativeApi

namespace FileTree

/-! ## Trees with the same directories -/

/-- Paths start from the same place, and every directory is one still. -/
structure Keeps (t v : FileTree) : Prop where
  current : v.current = t.current
  directory : ∀ l, t.find? l = some .directory → v.find? l = some .directory

section Keeps

variable {t u v : FileTree} {l k : Location} {p name : Text}

theorem Keeps.trans (h : t.Keeps u) (h' : u.Keeps v) : t.Keeps v where
  current := h'.current.trans h.current
  directory l hl := h'.directory l (h.directory l hl)

theorem keeps_insert (hl : t.find? l ≠ some .directory) (n : Node) : t.Keeps (t.insert l n) where
  current := rfl
  directory k hk := by
    have hne : k ≠ l := fun h ↦ hl (h ▸ hk)
    rw [find?_insert_of_ne t hne, hk]

theorem keeps_erase (hl : t.find? l ≠ some .directory) : t.Keeps (t.erase l) where
  current := rfl
  directory k hk := by
    have hne : k ≠ l := fun h ↦ hl (h ▸ hk)
    rw [find?_erase_of_ne t hne, hk]

/-- There is a step down from directories only. -/
theorem find?_of_step (h : t.step l name = .ok k) : t.find? l = some .directory := by
  rw [step] at h
  split at h
  · cases h
  · cases h
  · assumption

theorem Keeps.step (h : t.Keeps v) (hk : t.step l name = .ok k) : v.step l name = .ok k := by
  have hl := find?_of_step hk
  rw [FileTree.step, hl] at hk
  rw [FileTree.step, h.directory l hl, hk]

theorem Keeps.walk (h : t.Keeps v) {names : List Text} (hk : t.walk l names = .ok k) :
    v.walk l names = .ok k := by
  induction names generalizing l with
  | nil => exact hk
  | cons name rest ih =>
    rw [FileTree.walk, List.foldlM_cons, bind_eq_ok] at hk
    obtain ⟨next, hnext, hrest⟩ := hk
    rw [FileTree.walk, List.foldlM_cons, bind_eq_ok]
    exact ⟨next, h.step hnext, ih hrest⟩

theorem Keeps.start (h : t.Keeps v) (p : Text) : v.start p = t.start p := by
  rw [FileTree.start, FileTree.start, h.current]

/-! ## Targets -/

/-- A target is a name in a directory to which the names before it lead. -/
theorem target_eq_entry_iff :
    t.target p = .ok (.entry l) ↔
      ∃ path front last directory, systemPath p = .ok path ∧ names path = front ++ [last] ∧
        t.walk (t.start path) front = .ok directory ∧ t.step directory last = .ok l ∧
        last ≠ Path.here ∧ last ≠ Path.above := by
  rw [target, bind_eq_ok]
  refine exists_congr fun path ↦ ?_
  constructor
  · rintro ⟨hpath, h⟩
    split at h
    · cases h
    · rename_i last hlast
      obtain ⟨front, hfront⟩ := List.getLast?_eq_some_iff.mp hlast
      rw [hfront, List.dropLast_concat, bind_eq_ok] at h
      obtain ⟨directory, hwalk, h⟩ := h
      obtain ⟨k, hstep, h⟩ := bind_eq_ok.mp h
      split at h
      · cases h
      · rename_i hne
        cases h
        exact ⟨front, last, directory, hpath, hfront, hwalk, hstep, not_or.mp hne⟩
  · rintro ⟨front, last, directory, hpath, hfront, hwalk, hstep, hne⟩
    refine ⟨hpath, ?_⟩
    rw [List.getLast?_eq_some_iff.mpr ⟨front, hfront⟩]
    simp only [hfront, List.dropLast_concat, bind_eq_ok]
    exact ⟨directory, hwalk, l, hstep, if_neg (not_or.mpr hne)⟩

theorem Keeps.target (h : t.Keeps v) (hl : t.target p = .ok (.entry l)) :
    v.target p = .ok (.entry l) := by
  rw [target_eq_entry_iff] at hl ⊢
  obtain ⟨path, front, last, directory, hpath, hfront, hwalk, hstep, hne⟩ := hl
  refine ⟨path, front, last, directory, hpath, hfront, ?_, h.step hstep, hne⟩
  rw [h.start, h.walk hwalk]

/-- A target lies below a directory, so it is not the root. -/
theorem ne_nil_of_target (h : t.target p = .ok (.entry l)) : l ≠ [] := by
  obtain ⟨-, -, last, directory, -, -, -, hstep, hhere, habove⟩ := target_eq_entry_iff.mp h
  rw [step, find?_of_step hstep] at hstep
  simp only [if_neg hhere, if_neg habove] at hstep
  split at hstep
  · cases hstep
  · cases hstep
    exact List.cons_ne_nil _ _

theorem eq_untilZero_of_systemPath {path : Text} (h : systemPath p = .ok path) :
    path = Text.untilZero p := by
  rw [systemPath] at h
  split at h
  · cases h
  · split at h
    · cases h
    · cases h
      rfl

/-- The node at the target of a path is the node to which the path leads. -/
theorem status_of_target {n : Node} (hl : t.target p = .ok (.entry l))
    (hfinal : finalStep (Text.untilZero p) = []) (hn : t.find? l = some n) :
    t.status p = .ok n := by
  obtain ⟨path, front, last, directory, hpath, hfront, hwalk, hstep, -⟩ :=
    target_eq_entry_iff.mp hl
  have hwhole : t.walk (t.start path) (names path ++ finalStep path) = .ok l := by
    rw [eq_untilZero_of_systemPath hpath, hfinal, ← eq_untilZero_of_systemPath hpath,
      List.append_nil, hfront, walk, List.foldlM_append, bind_eq_ok]
    refine ⟨directory, hwalk, ?_⟩
    rw [List.foldlM_cons, bind_eq_ok]
    exact ⟨l, hstep, rfl⟩
  rw [status, bind_eq_ok]
  refine ⟨path, hpath, ?_⟩
  rw [bind_eq_ok]
  exact ⟨l, hwhole, by rw [hn]⟩

end Keeps

/-! ## What the operations on files do -/

section Files

variable {t v : FileTree} {p q content : Text}

/-- Writing a file puts it at the target of its path and does nothing else. -/
theorem writeFile_eq_ok (h : t.writeFile p content = .ok v) :
    ∃ l, t.target p = .ok (.entry l) ∧ t.find? l ≠ some .directory ∧
      v = t.insert l (.file content) := by
  rw [writeFile, bind_eq_ok] at h
  obtain ⟨place, hplace, h⟩ := h
  cases place with
  | inUse => cases h
  | entry l =>
    simp only at h
    split at h
    · cases h
    · rename_i hfree
      cases h
      exact ⟨l, hplace, (not_or.mp hfree).1, rfl⟩

/-- Moving a file takes it from the target of one path, puts it at the target of the other and does
nothing else. -/
theorem moveFile_eq_ok (h : t.moveFile p q = .ok v) :
    ∃ l k content, t.target p = .ok (.entry l) ∧ t.target q = .ok (.entry k) ∧
      t.find? l = some (.file content) ∧ finalStep (Text.untilZero q) = [] ∧
      t.find? k ≠ some .directory ∧ v = (t.erase l).insert k (.file content) := by
  rw [moveFile, bind_eq_ok] at h
  obtain ⟨origin, horigin, h⟩ := h
  rw [bind_eq_ok] at h
  obtain ⟨destination, hdestination, h⟩ := h
  cases origin with
  | inUse => cases h
  | entry l =>
    cases destination with
    | inUse => cases h
    | entry k =>
      simp only at h
      split at h
      · rename_i content hl
        split at h
        · cases h
        · rename_i hfinal
          split at h
          · cases h
          · rename_i hk
            cases h
            exact ⟨l, k, content, horigin, hdestination, hl,
              Classical.not_not.mp (not_or.mp hfinal).2, hk, rfl⟩
      · cases h
      · cases h

/-- A file that has been written stands at the target of its path. -/
theorem find?_target_of_writeFile (h : t.writeFile p content = .ok v) :
    ∃ l, v.target p = .ok (.entry l) ∧ v.find? l = some (.file content) := by
  obtain ⟨l, hl, hfree, rfl⟩ := writeFile_eq_ok h
  exact ⟨l, (keeps_insert hfree _).target hl, find?_insert_self t (ne_nil_of_target hl) _⟩

/-- A file that has been moved is found at the path to which it has been moved. -/
theorem status_moveFile {l : Location} (h : t.moveFile p q = .ok v)
    (hp : t.target p = .ok (.entry l)) (hl : t.find? l = some (.file content)) :
    v.status q = .ok (.file content) := by
  obtain ⟨l', k, content', hp', hq, hl', hfinal, hk, rfl⟩ := moveFile_eq_ok h
  rw [hp] at hp'
  cases hp'
  rw [hl] at hl'
  cases hl'
  -- A file goes and a file comes where no directory is, so the way to `q` is still open.
  have herased : t.Keeps (t.erase l) := keeps_erase (by rw [hl]; simp)
  have hfree : (t.erase l).find? k ≠ some .directory := by
    by_cases hlk : k = l
    · rw [hlk, find?_erase_self t (ne_nil_of_target hp)]
      simp
    · rwa [find?_erase_of_ne t hlk]
  have hkeeps := herased.trans (keeps_insert hfree (.file content))
  exact status_of_target (hkeeps.target hq) hfinal (find?_insert_self _ (ne_nil_of_target hq) _)

end Files

end FileTree

/-! ## Output -/

namespace OutputFile

variable {t v : FileTree} {path content : Text}

theorem status_writeAndMove (h : writeAndMove t path content = (v, none)) :
    v.status path = .ok (.file content) := by
  rw [writeAndMove] at h
  split at h
  · cases h
  · rename_i u hwrite
    split at h
    · cases h
    · rename_i w hmove
      cases h
      obtain ⟨l, hl, hfile⟩ := FileTree.find?_target_of_writeFile hwrite
      exact FileTree.status_moveFile hmove hl hfile

/-- **Output that is written stands at its path.** If writing meets no fault, the path leads to a
file with exactly the content that was to be written. -/
theorem status_write (h : (write t path content).2 = none) :
    (write t path content).1.status path = .ok (.file content) := by
  rw [write] at h ⊢
  split at h
  · cases h
  · exact status_writeAndMove (Prod.ext rfl h)

end OutputFile

end NativeApi

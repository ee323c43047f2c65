import SuiteMake.Discovery
import SuiteMake.Proofs.Ascending
import SuiteMake.Proofs.CaseName
import SuiteMake.Proofs.Except
import SuiteMake.Proofs.FileTree.Descent

/-!
# What discovery finds

The case files below a root, and the names that lead to them.
-/

namespace SuiteMake

theorem Name.bytes_injective {m n : Name} (h : m.bytes = n.bytes) : m = n := by
  have hdecode (k : Name) : Utf8.decode? k.bytes = k.text? := by
    cases k with
    | text chars => exact Utf8.decode?_eq_some_iff_encode.mpr rfl
    | raw bytes illFormed => exact illFormed
  have htext : m.text? = n.text? := by rw [← hdecode m, ← hdecode n, h]
  cases m <;> cases n <;> simp_all [text?, bytes]

theorem Location.bytes_injective {l m : Location} (h : l.map Name.bytes = m.map Name.bytes) :
    l = m :=
  (List.map_inj_right fun _ _ => Name.bytes_injective).mp h

namespace Discovery

theorem isCaseFile_iff {casePrefix : Text} {names : Location} :
    isCaseFile casePrefix names = true ↔
      ∃ above name, names = above ++ [.text name] ∧ CaseName.isCase casePrefix name = true := by
  rw [isCaseFile]
  constructor
  · intro h
    split at h
    · rename_i name hlast
      obtain ⟨above, rfl⟩ := List.getLast?_eq_some_iff.mp hlast
      exact ⟨above, name, rfl, h⟩
    · simp at h
  · rintro ⟨above, name, rfl, h⟩
    simpa using h

theorem isCaseFile_concat (casePrefix : Text) (above : Location) (name : Text) :
    isCaseFile casePrefix (above ++ [.text name]) = CaseName.isCase casePrefix name := by
  simp [isCaseFile]

section Walk

variable {t : FileTree} {root : Path} {l : Location}

theorem mem_unopened_iff {names : Location} : names ∈ unopened t root l ↔
    names ∈ t.directoriesBelow l ∧ (Route.below root names).fault?.isSome = true := by
  rw [unopened, mem_ascending_iff Location.bytes_injective, List.mem_filter]

theorem walkFailure?_eq_none_iff : walkFailure? t root l = none ↔
    ∀ names ∈ t.directoriesBelow l, (Route.below root names).fault? = none := by
  rw [walkFailure?, List.findSome?_eq_none_iff]
  constructor
  · intro h names hnames
    cases hfault : (Route.below root names).fault? with
    | none => rfl
    | some cause =>
        have hnone := h names (mem_unopened_iff.mpr ⟨hnames, by simp [hfault]⟩)
        simp [hfault] at hnone
  · intro h names hnames
    rw [h names (mem_unopened_iff.mp hnames).1, Option.map_none]

theorem exists_of_walkFailure? {failure : Failure} (h : walkFailure? t root l = some failure) :
    ∃ names ∈ t.directoriesBelow l, ∃ cause, (Route.below root names).fault? = some cause ∧
      failure = .walk (shown root names) cause := by
  obtain ⟨names, hnames, hmap⟩ := List.exists_of_findSome?_eq_some h
  obtain ⟨cause, hcause, rfl⟩ := Option.map_eq_some_iff.mp hmap
  exact ⟨names, (mem_unopened_iff.mp hnames).1, cause, hcause, rfl⟩

/-- The walk ends at the first directory that cannot be opened, with the error of opening it. -/
theorem walkFailure?_eq_findSome? (ht : t.WellFormed) (hroot : t.locate .look root = .ok l) :
    walkFailure? t root l =
      (ascending (·.map Name.bytes) (t.directoriesBelow l)).findSome? fun names =>
        match t.openDirectory (.below root names) with
        | .ok _ => none
        | .error cause => some (.walk (shown root names) cause) := by
  rw [walkFailure?, unopened, ← ascending_filter Location.bytes_injective, ← List.head?_filterMap,
    ← List.head?_filterMap, List.filterMap_filter]
  congr 1
  -- a directory that stands there is opened unless its path is at fault
  apply List.filterMap_congr
  intro names hnames
  obtain ⟨hdescends, hdir⟩ := ht.mem_directoriesBelow_iff.mp (mem_of_mem_ascending hnames)
  rw [hdescends.openDirectory_below ht hroot hdir]
  cases (Route.below root names).fault? <;> rfl

theorem caseFilesIn_eq_error (casePrefix : Text) {failure : Failure}
    (h : t.openDirectory (.ofPath root) = .ok l) (hwalk : walkFailure? t root l = some failure) :
    caseFilesIn t casePrefix root = .error failure := by
  simp only [caseFilesIn, h, hwalk]

theorem caseFilesIn_eq_ok_iff {casePrefix : Text} {found : List Location} :
    caseFilesIn t casePrefix root = .ok found ↔ ∃ l, t.locate .look root = .ok l ∧
      t.get? l = some .directory ∧ walkFailure? t root l = none ∧
      found = caseFiles t casePrefix root l := by
  cases hopen : t.openDirectory (.ofPath root) with
  | error e =>
      simp only [caseFilesIn, hopen]
      constructor
      · intro h
        cases h
      · rintro ⟨l, hroot, hdir, -⟩
        cases hopen.symm.trans (FileTree.openDirectory_eq_ok_iff.mpr ⟨hroot, hdir⟩)
  | ok l =>
      obtain ⟨hroot, hdir⟩ := FileTree.openDirectory_eq_ok_iff.mp hopen
      cases hwalk : walkFailure? t root l with
      | some failure =>
          rw [caseFilesIn_eq_error casePrefix hopen hwalk]
          constructor
          · intro h
            cases h
          · rintro ⟨k, hk, -, hnone, -⟩
            cases hroot.symm.trans hk
            cases hwalk.symm.trans hnone
      | none =>
          simp only [caseFilesIn, hopen, hwalk]
          constructor
          · intro h
            exact ⟨l, hroot, hdir, hwalk, (Except.ok.inj h).symm⟩
          · rintro ⟨k, hk, -, -, rfl⟩
            cases hroot.symm.trans hk
            rfl

end Walk

theorem sourceFiles_eq_ok_iff {c : Config} {t : FileTree} {files : List SourceFile} :
    sourceFiles c t = .ok files ↔ ∃ found, caseFilesIn t c.casePrefix c.rootPath = .ok found ∧
      files = ascending SourceFile.path (found.filterMap (sourceFile? c)) := by
  rw [sourceFiles, bind_eq_ok_iff]
  simp only [pure, Except.pure, Except.ok.injEq, eq_comm]

theorem nodup_paths {c : Config} {t : FileTree} {files : List SourceFile}
    (h : sourceFiles c t = .ok files) : (files.map SourceFile.path).Nodup := by
  obtain ⟨found, -, rfl⟩ := sourceFiles_eq_ok_iff.mp h
  exact ascending_nodup _

theorem mem_caseFiles_iff {t : FileTree} {casePrefix : Text} {root : Path} {l names : Location} :
    names ∈ caseFiles t casePrefix root l ↔ names ∈ t.namesBelow l ∧
      isCaseFile casePrefix names = true ∧ t.isFile (.below root names) = true := by
  rw [caseFiles, mem_ascending_iff Location.bytes_injective, List.mem_filter, Bool.and_eq_true]

theorem step?_of_isCase {casePrefix name : Text} (h : CaseName.isCase casePrefix name = true) :
    Route.step? (.text name) = some (.down (.text name)) := by
  obtain ⟨hempty, hdot, hdots⟩ := CaseName.ne_dots_of_isCase h
  simp [Route.step?, hempty, hdot, hdots]

end Discovery
end SuiteMake

import SuiteMake.Proofs.Discovery.Complete
import SuiteMake.Proofs.EntryPoint
import SuiteMake.Proofs.FileTree.Spelling

/-!
# Reading what was discovered

A case file is found by walking down from the root and read at its path from the base. Where the
names on the way are text, both walks make the same moves, so what is read is what was found.
-/

namespace SuiteMake

open Component

namespace Discovery

variable {c : Config} {t : FileTree} {names : Location} {f : SourceFile}

theorem pathFrom_eq (hf : sourceFile? c names = some f) :
    f.pathFrom c.baseDir = c.baseDir.join ⟨Component.canonical (relative c names)⟩ := by
  rw [SourceFile.pathFrom, path_of_sourceFile? hf]

/-- Apart from dots, the path at which a case file is read has the components it was found by. -/
theorem components_pathFrom (hnames : ∀ n ∈ names, IsStep (.name n))
    (hf : sourceFile? c names = some f) :
    (f.pathFrom c.baseDir).components.filter (· ≠ .here) =
      (componentsOf c names).filter (· ≠ .here) := by
  have hlead : c.baseDir.components <+: componentsOf c names ∨
      (componentsOf c names).head? = some .root := by
    by_cases hinside : c.baseDir.components <+: componentsOf c names
    · exact Or.inl hinside
    · obtain ⟨cs, hcs⟩ := root_of_outside hinside
      right
      rw [componentsOf, hcs]
      rfl
  rw [pathFrom_eq hf]
  exact SourceFile.components_join_seenFrom (componentsOf_standard hnames c) hlead

private theorem moves_names (names : Location) :
    (names.map Step.down).filter Step.moves = (names.map Component.name).filterMap move? := by
  induction names with
  | nil => rfl
  | cons n names ih =>
      rw [List.map_cons, List.map_cons, List.filter_cons_of_pos rfl, ih]
      rfl

theorem IsFound.sameWay (ht : t.WellFormed) (h : IsFound c t names)
    (htext : ∀ n ∈ names, n.text?.isSome = true) (hf : sourceFile? c names = some f)
    (hpath : f.path ≠ []) :
    (Route.below c.rootPath names).SameWay (.ofPath (f.pathFrom c.baseDir)) := by
  have hsteps : ∀ n ∈ names, IsStep (.name n) := fun n hn => h.file.isStep ht htext hn
  have hdown : ∀ n ∈ names, Route.step? n = some (.down n) :=
    fun n hn => FileTree.step?_of_isEntryName (h.file.isEntryName ht hn)
  have hcomponents := components_pathFrom hsteps hf
  obtain ⟨l, hroot, hdescends⟩ := h.descends
  obtain ⟨above, name, hnames, -, -⟩ := h.named
  refine ⟨?_, ?_, ?_⟩
  · obtain ⟨-, hempty, -⟩ := FileTree.locateRoute_eq_ok_iff.mp hroot
    have hkept (cs : List Component) : .root ∈ cs.filter (· ≠ .here) ↔ .root ∈ cs := by
      simp [List.mem_filter]
    rw [Route.below_fromRoot hdescends.ne_nil hempty, Bool.eq_iff_iff, Route.fromRoot_iff,
      Route.fromRoot_iff, ← hkept, hcomponents, hkept]
    simp [componentsOf]
  · rw [Route.moves_ofPath, ← filterMap_move?_filter, hcomponents, filterMap_move?_filter,
      Route.below_steps c.rootPath hdescends.ne_nil hdown, List.filter_append, Route.moves_path,
      moves_names, componentsOf, List.filterMap_append]
  · have hname : .text name ∈ names := by simp [hnames]
    have hne : relative c names ≠ [] := by
      intro hnil
      rw [path_of_sourceFile? hf, hnil] at hpath
      exact hpath rfl
    rw [hnames] at hne
    obtain ⟨before, hbefore⟩ := relative_concat hne
    have hlast : Text.afterLast '/' (f.pathFrom c.baseDir).spelling = name := by
      rw [pathFrom_eq hf, Path.afterLast_join, hnames, hbefore]
      exact SourceFile.afterLast_canonical before (hsteps _ hname).slash_notMem
    obtain ⟨front, hfront⟩ := Route.ofPath_ends hlast (hdown _ hname)
    exact ⟨front, _, hfront⟩

theorem IsFound.readBytes (ht : t.WellFormed) (h : IsFound c t names)
    (htext : ∀ n ∈ names, n.text?.isSome = true) (hf : sourceFile? c names = some f)
    (hpath : f.path ≠ []) (hlength : (Route.ofPath (f.pathFrom c.baseDir)).length ≤ Route.maxLength) :
    t.readBytes (f.pathFrom c.baseDir) = t.readRoute (.below c.rootPath names) := by
  obtain ⟨m, content, hm, hget⟩ := FileTree.isFile_iff.mp (h.regular ht)
  have hm' := (h.sameWay ht htext hf hpath).locateRoute hlength hm
  rw [FileTree.readRoute_eq_ok_iff.mpr ⟨m, hm, hget⟩]
  exact FileTree.readRoute_eq_ok_iff.mpr ⟨m, hm', hget⟩

theorem bounds_of_readBytes (ht : t.WellFormed) {content : Bytes}
    (hread : t.readBytes (f.pathFrom c.baseDir) = .ok content) :
    f.path ≠ [] ∧ (Route.ofPath (f.pathFrom c.baseDir)).length ≤ Route.maxLength := by
  constructor
  · intro hnil
    apply ht.not_read_of_slash _ hread
    rw [SourceFile.pathFrom, Path.afterLast_join, hnil]
    rfl
  · obtain ⟨m, hm, -⟩ := FileTree.readRoute_eq_ok_iff.mp hread
    obtain ⟨hfault, -, -⟩ := FileTree.locateRoute_eq_ok_iff.mp hm
    exact (Route.fault?_eq_none_iff.mp hfault).2

/-- Where the names on the way to case files are text, the source files that discovery lists can
all be read, unless the base is one of them or a path from the base is too long. What is read is
the case file that was found. -/
theorem discovered_readable_iff (ht : t.WellFormed) {files : List SourceFile}
    (hfiles : sourceFiles c t = .ok files)
    (htext : ∀ names, IsFound c t names → ∀ n ∈ names, n.text?.isSome = true) :
    ((∃ i, EntryIndex.ofFiles c t files = .ok i) ↔ ∀ f ∈ files, f.path ≠ [] ∧
      (Route.ofPath (f.pathFrom c.baseDir)).length ≤ Route.maxLength) ∧
    ∀ names f, IsFound c t names → sourceFile? c names = some f → f.path ≠ [] →
      (Route.ofPath (f.pathFrom c.baseDir)).length ≤ Route.maxLength →
      t.readBytes (f.pathFrom c.baseDir) = t.readRoute (.below c.rootPath names) := by
  have hsame {names : Location} {f : SourceFile} (h : IsFound c t names)
      (hf : sourceFile? c names = some f) (hpath : f.path ≠ [])
      (hlength : (Route.ofPath (f.pathFrom c.baseDir)).length ≤ Route.maxLength) :=
    h.readBytes ht (htext names h) hf hpath hlength
  refine ⟨?_, fun names f h hf hpath hlength => hsame h hf hpath hlength⟩
  rw [EntryIndex.exists_ofFiles_eq_ok_iff]
  constructor
  · intro h f hf
    obtain ⟨content, hread⟩ := h f hf
    exact bounds_of_readBytes ht hread
  · intro h f hf
    obtain ⟨hpath, hlength⟩ := h f hf
    obtain ⟨names, hnames, hsource⟩ := exists_isFound ht hfiles hf
    obtain ⟨m, content, hm, hget⟩ := FileTree.isFile_iff.mp (hnames.regular ht)
    exact ⟨content, (hsame hnames hsource hpath hlength).trans
      (FileTree.readRoute_eq_ok_iff.mpr ⟨m, hm, hget⟩)⟩

theorem discovered_readable_branched :
    Sample.branched.WellFormed ∧ sourceFiles {} Sample.branched = .ok Sample.branchedFiles ∧
    (∀ names, IsFound {} Sample.branched names → ∀ n ∈ names, n.text?.isSome = true) ∧
    ∃ i, EntryIndex.ofFiles {} Sample.branched Sample.branchedFiles = .ok i := by
  obtain ⟨hreadable, -⟩ := discovered_readable_iff Sample.branched_wellFormed
    Sample.branched_sourceFiles fun _ h => Sample.branched_text h.toIsCaseBelow
  exact ⟨Sample.branched_wellFormed, Sample.branched_sourceFiles,
    fun _ h => Sample.branched_text h.toIsCaseBelow, hreadable.mpr (by decide)⟩

end Discovery

namespace Sample

/-- A suite with a case in a directory whose name is not text. -/
def misnamed : FileTree where
  nodes := [
    (location ["suite"], .directory),
    (location ["suite", "testcases"], .directory),
    (location ["suite", "testcases"] ++ [.ofBytes [0xFF]], .directory),
    (location ["suite", "testcases"] ++ [.ofBytes [0xFF], .text "CWE1.c".toList],
      file "void CWE1_good()\n".toList)]
  cwd := location ["suite"]

/-- The case with the name of its directory as far as it is text. -/
def misnamedFile : SourceFile :=
  ⟨"testcases/\uFFFD/CWE1.c".toList, "testcases/\uFFFD".toList, .c⟩

end Sample

namespace Discovery

/-- A directory whose name is not text hides the cases in it from being read, not from being
found. -/
theorem discovered_unreadable_misnamed :
    Sample.misnamed.WellFormed ∧ sourceFiles {} Sample.misnamed = .ok [Sample.misnamedFile] ∧
    EntryIndex.ofFiles {} Sample.misnamed [Sample.misnamedFile] =
      .error (.file (Sample.misnamedFile.pathFrom (Config.baseDir {})) .notFound) :=
  ⟨by decide, toOption_eq_some_iff.mp (by decide), rfl⟩

end Discovery
end SuiteMake

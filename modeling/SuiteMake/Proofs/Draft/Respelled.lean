import SuiteMake.Proofs.Discovery.Complete
import SuiteMake.Proofs.FileTree.Respelling

/-!
# Spellings of a configuration

How the root and the support directory are spelled has no part in what is drafted, unless a path
becomes too long by it. The walks make the same moves, and what is left of a spelling in the
components of a path does not show in its canonical text.
-/

namespace SuiteMake

open Component

/-- Components that differ in dots make the same source file, seen from an empty base. -/
theorem SourceFile.ofComponents?_congr {a a' : List Component} (ha : Standard a)
    (ha' : Standard a') (h : a'.filter (· ≠ .here) = a.filter (· ≠ .here)) {names : Location}
    (hne : names ≠ []) :
    ofComponents? [] (a' ++ names.map .name) = ofComponents? [] (a ++ names.map .name) := by
  have hroot (names : Location) : .root ∉ names.map Component.name := by simp
  obtain ⟨above, last, rfl⟩ : ∃ above last, names = above ++ [last] :=
    ⟨_, _, (List.dropLast_concat_getLast hne).symm⟩
  have hall := Path.canonical_append_congr ha ha' h (hroot (above ++ [last]))
  have habove := Path.canonical_append_congr ha ha' h (hroot above)
  have hdirectory : directoryOf (a' ++ (above ++ [last]).map .name) =
      directoryOf (a ++ (above ++ [last]).map .name) := by
    rw [List.map_append, ← List.append_assoc, ← List.append_assoc]
    rw [List.map_singleton, directoryOf_concat, directoryOf_concat, habove]
  have hextension (cs : List Component) : extension? (cs ++ (above ++ [last]).map .name) =
      extensionOf? last.display := by
    simp [extension?]
  have hrelative (cs : List Component) : (([] : List Component).isPrefixOf? cs).getD cs = cs := rfl
  simp only [ofComponents?, hextension, hrelative, hall, hdirectory]

namespace Discovery

variable {c c' : Config} {t : FileTree} {l names : Location}

theorem sourceFile?_respell (hbase : c'.baseDir = c.baseDir) (hroot : c'.root.plain = c.root.plain)
    (hne : names ≠ []) : sourceFile? c' names = sourceFile? c names := by
  rw [sourceFile?, sourceFile?, Config.rootPath, Config.rootPath, hbase]
  by_cases hspelling : c.baseDir.spelling = []
  · rw [Path.join_of_spelling_nil hspelling, Path.join_of_spelling_nil hspelling,
      Path.components_of_spelling_nil hspelling]
    exact SourceFile.ofComponents?_congr c.root.components_standard c'.root.components_standard
      hroot hne
  · rw [Path.components_join_congr hspelling hroot]

theorem caseFiles_respell (ht : t.WellFormed) {casePrefix : Text} {root root' : Path}
    (hplain : root'.plain = root.plain) (hroot : t.locate .look root = .ok l)
    (hroot' : t.locate .look root' = .ok l)
    (hfits : ∀ names ∈ t.namesBelow l, isCaseFile casePrefix names = true →
      (Route.below root' names).fits = (Route.below root names).fits) :
    caseFiles t casePrefix root' l = caseFiles t casePrefix root l := by
  rw [caseFiles, caseFiles]
  congr 1
  apply List.filter_congr
  intro names hnames
  cases hcase : isCaseFile casePrefix names with
  | false => rfl
  | true =>
      have hne : names ≠ [] := by
        rintro rfl
        cases hcase
      have hdown : ∀ n ∈ names, Route.step? n = some (.down n) := fun n hn =>
        FileTree.step?_of_isEntryName (ht.isEntryName_of_mem_namesBelow hnames hn)
      rw [FileTree.isFile_below_congr hroot hroot' hplain hne hdown (hfits names hnames hcase)]

end Discovery

/-- A configuration that differs in how the root and the support directory are spelled. -/
structure Config.Respells (c c' : Config) : Prop where
  rest : c' = { c with root := c'.root, supportDir := c'.supportDir }
  root : c'.root.canonical = c.root.canonical
  support : c'.supportDir.canonical = c.supportDir.canonical
  root_ne_nil : c.root.canonical ≠ []

/-- The paths that are looked up in a tree are too long under both configurations or under none. -/
structure Config.FitsAlike (c c' : Config) (t : FileTree) : Prop where
  root : (Route.ofPath c'.rootPath).fits = (Route.ofPath c.rootPath).fits
  main : (Route.ofPath c'.mainPath).fits = (Route.ofPath c.mainPath).fits
  header : (Route.ofPath c'.headerPath).fits = (Route.ofPath c.headerPath).fits
  cases : ∀ l, t.locate .look c.rootPath = .ok l → ∀ names ∈ t.namesBelow l,
    Discovery.isCaseFile c.casePrefix names = true →
      (Route.below c'.rootPath names).fits = (Route.below c.rootPath names).fits
  directories : ∀ l names, t.locate .look c.rootPath = .ok l → t.Descends l names →
    t.get? (l ++ names) = some .directory →
      (Route.below c'.rootPath names).fits = (Route.below c.rootPath names).fits

namespace Config.Respells

variable {c c' : Config} {t : FileTree}

theorem baseDir (h : c.Respells c') : c'.baseDir = c.baseDir := by rw [h.rest]

theorem casePrefix (h : c.Respells c') : c'.casePrefix = c.casePrefix := by rw [h.rest]

theorem rootPath (h : c.Respells c') : c'.rootPath.plain = c.rootPath.plain := by
  rw [Config.rootPath, Config.rootPath, h.baseDir]
  exact Path.plain_join_congr rfl (Path.plain_congr h.root)

theorem supportPath (h : c.Respells c') (name : Text) :
    ((c'.baseDir.join c'.supportDir).join ⟨name⟩).plain =
        ((c.baseDir.join c.supportDir).join ⟨name⟩).plain ∧
      Text.afterLast '/' ((c'.baseDir.join c'.supportDir).join ⟨name⟩).spelling =
        Text.afterLast '/' ((c.baseDir.join c.supportDir).join ⟨name⟩).spelling := by
  constructor
  · rw [h.baseDir]
    exact Path.plain_join_congr (Path.plain_join_congr rfl (Path.plain_congr h.support)) rfl
  · rw [Path.afterLast_join, Path.afterLast_join]

theorem locate_rootPath (h : c.Respells c') (hfits : c.FitsAlike c' t) {l : Location}
    (hdir : t.get? l = some .directory) :
    t.locate .look c'.rootPath = .ok l ↔ t.locate .look c.rootPath = .ok l :=
  have hne : c.rootPath.plain ≠ [] := Path.plain_join_ne_nil (Path.plain_ne_nil h.root_ne_nil)
  FileTree.locate_directory_congr h.rootPath hne hfits.root hdir

theorem walkable (h : c.Respells c') (hfits : c.FitsAlike c' t) :
    Discovery.Walkable c' t ↔ Discovery.Walkable c t := by
  have hroot {l names : Location} (hdescends : t.Descends l names) :=
    h.locate_rootPath hfits hdescends.from_directory
  have hlength {l names : Location} (hl : t.locate .look c.rootPath = .ok l)
      (hdescends : t.Descends l names) (hdir : t.get? (l ++ names) = some .directory) :
      (Route.below c'.rootPath names).length ≤ Route.maxLength ↔
        (Route.below c.rootPath names).length ≤ Route.maxLength :=
    decide_eq_decide.mp (hfits.directories l names hl hdescends hdir)
  constructor
  · intro hwalk l names hl hdescends hdir
    exact (hlength hl hdescends hdir).mp
      (hwalk l names ((hroot hdescends).mpr hl) hdescends hdir)
  · intro hwalk l names hl' hdescends hdir
    have hl := (hroot hdescends).mp hl'
    exact (hlength hl hdescends hdir).mpr (hwalk l names hl hdescends hdir)

theorem caseFilesIn (ht : t.WellFormed) (h : c.Respells c') (hfits : c.FitsAlike c' t)
    {found : List Location} : Discovery.caseFilesIn t c'.casePrefix c'.rootPath = .ok found ↔
      Discovery.caseFilesIn t c.casePrefix c.rootPath = .ok found := by
  have hsame {l : Location} (hroot : t.locate .look c.rootPath = .ok l)
      (hdir : t.get? l = some .directory) :
      t.locate .look c'.rootPath = .ok l ∧
      (Discovery.walkFailure? t c'.rootPath l = none ↔
        Discovery.walkFailure? t c.rootPath l = none) ∧
      Discovery.caseFiles t c.casePrefix c'.rootPath l =
        Discovery.caseFiles t c.casePrefix c.rootPath l := by
    have hroot' := (h.locate_rootPath hfits hdir).mpr hroot
    refine ⟨hroot', ?_,
      Discovery.caseFiles_respell ht h.rootPath hroot hroot' (hfits.cases l hroot)⟩
    rw [Discovery.walkFailure?_eq_none_iff_walkable ht hroot',
      Discovery.walkFailure?_eq_none_iff_walkable ht hroot, h.walkable hfits]
  rw [Discovery.caseFilesIn_eq_ok_iff, Discovery.caseFilesIn_eq_ok_iff, h.casePrefix]
  constructor
  · rintro ⟨l, hroot', hdir, hwalk, rfl⟩
    have hroot := (h.locate_rootPath hfits hdir).mp hroot'
    obtain ⟨-, hfails, hcases⟩ := hsame hroot hdir
    exact ⟨l, hroot, hdir, hfails.mp hwalk, hcases⟩
  · rintro ⟨l, hroot, hdir, hwalk, rfl⟩
    obtain ⟨hroot', hfails, hcases⟩ := hsame hroot hdir
    exact ⟨l, hroot', hdir, hfails.mpr hwalk, hcases.symm⟩

theorem sourceFiles (ht : t.WellFormed) (h : c.Respells c') (hfits : c.FitsAlike c' t)
    {files : List SourceFile} :
    Discovery.sourceFiles c' t = .ok files ↔ Discovery.sourceFiles c t = .ok files := by
  rw [Discovery.sourceFiles_eq_ok_iff, Discovery.sourceFiles_eq_ok_iff]
  apply exists_congr
  intro found
  rw [h.caseFilesIn ht hfits]
  apply and_congr_right
  intro hfound
  have hsame : ∀ names ∈ found, Discovery.sourceFile? c' names = Discovery.sourceFile? c names := by
    intro names hnames
    apply Discovery.sourceFile?_respell h.baseDir (Path.plain_congr h.root)
    obtain ⟨l, -, -, -, rfl⟩ := Discovery.caseFilesIn_eq_ok_iff.mp hfound
    obtain ⟨above, name, hconcat, -⟩ :=
      Discovery.isCaseFile_iff.mp (Discovery.mem_caseFiles_iff.mp hnames).2.1
    simp [hconcat]
  have hmap (c : Config) : found.filterMap (Discovery.sourceFile? c) =
      (found.map (Discovery.sourceFile? c)).filterMap id := by
    rw [List.filterMap_map]
    rfl
  rw [hmap c', hmap c, List.map_congr_left hsame]

theorem edited (ht : t.WellFormed) (h : c.Respells c') {name : Text} {edits : List Edit}
    {result : Text} (hfits : (Route.ofPath ((c'.baseDir.join c'.supportDir).join ⟨name⟩)).fits =
      (Route.ofPath ((c.baseDir.join c.supportDir).join ⟨name⟩)).fits) :
    t.edited ((c'.baseDir.join c'.supportDir).join ⟨name⟩) edits = .ok result ↔
      t.edited ((c.baseDir.join c.supportDir).join ⟨name⟩) edits = .ok result := by
  have hpath := h.supportPath name
  rw [FileTree.edited_eq_ok_iff, FileTree.edited_eq_ok_iff]
  apply exists_congr
  intro text
  rw [ht.readText_congr hpath.1 hpath.2 hfits]

theorem ofFiles (h : c.Respells c') (files : List SourceFile) :
    EntryIndex.ofFiles c' t files = EntryIndex.ofFiles c t files := by
  rw [h.rest]
  rfl

theorem recipeFor (h : c.Respells c') (files : List SourceFile) :
    Draft.recipeFor c' files = Draft.recipeFor c files := by
  have hsources : Recipe.sources c' = Recipe.sources c := by
    rw [h.rest]
    rfl
  have htools : c'.tools = c.tools := by rw [h.rest]
  have hmainFile : c'.mainFile = c.mainFile := by rw [h.rest]
  have hpreamble : Recipe.preamble c' = Recipe.preamble c := by
    simp only [Recipe.preamble, Config.supportDirText, h.support, htools, hmainFile]
  simp only [Draft.recipeFor, Recipe.recipe, Recipe.statements, Recipe.linking, hpreamble, hsources,
    htools]

end Config.Respells

namespace Sample

end Sample

namespace Sample

end Sample

end SuiteMake

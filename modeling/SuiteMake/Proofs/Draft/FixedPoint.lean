import SuiteMake.Proofs.Draft.Contents

/-!
# Generating twice

Generating reads the case files, the main file and the header. If none of the case files is
one of the files it writes, a second generation reads the same case files with the same
content, finds its own lines in the regions, and changes nothing.
-/

namespace SuiteMake

def FileTree.leadsInto (t : FileTree) (ls : List Location) (r : Route) : Bool :=
  match t.locateRoute .look r with
  | .ok l => decide (l ∈ ls)
  | .error _ => false

/-- Whether no source file is read at one of some locations. -/
def sourceFilesAvoid (c : Config) (t : FileTree) (ls : List Location) : Bool :=
  match Discovery.sourceFiles c t with
  | .ok files => files.all fun f => !t.leadsInto ls (.ofPath (f.pathFrom c.baseDir))
  | .error _ => true

/-- Whether no case file below the root stands at one of some locations. -/
def caseFilesAvoid (c : Config) (t : FileTree) (ls : List Location) : Bool :=
  match Discovery.caseFilesIn t c.casePrefix c.rootPath with
  | .ok found => found.all fun names => !t.leadsInto ls (.below c.rootPath names)
  | .error _ => true

theorem FileTree.notMem_of_leadsInto {t : FileTree} {ls : List Location} {r : Route} {l : Location}
    (h : t.leadsInto ls r = false) (hl : t.locateRoute .look r = .ok l) : l ∉ ls := by
  simpa [leadsInto, hl] using h

namespace Discovery

variable {t t' : FileTree} {ls : List Location} {casePrefix : Text} {root : Path} {l : Location}

/-- A case file that was put where nothing was stands where its route leads. -/
private theorem mem_of_new (ht : t.WellFormed) (h : t.Rewritten ls t')
    (hparents : ∀ k ∈ ls, t.get? k = none → t.get? k.dropLast = some .directory)
    (hroot : t.locate .look root = .ok l) {names : Location} (hls : l ++ names ∈ ls)
    (hnew : l ++ names ∉ t.nodes.map Prod.fst) (hcase : isCaseFile casePrefix names = true)
    {k : Location} (hk : t'.locateRoute .look (.below root names) = .ok k) : k ∈ ls := by
  obtain ⟨above, name, rfl, hname⟩ := isCaseFile_iff.mp hcase
  have hnone : t.get? (l ++ (above ++ [.text name])) = none := by
    rw [FileTree.mem_keys_iff (by simp)] at hnew
    exact Decidable.of_not_not hnew
  have habove : t.get? (l ++ above) = some .directory := by
    have hparent := hparents _ hls hnone
    rwa [← List.append_assoc, List.dropLast_concat] at hparent
  have hsteps : ∀ n ∈ above ++ [.text name], Route.step? n = some (.down n) := by
    intro n hn
    rcases List.mem_append.mp hn with hn | hn
    · have hthere : t.get? (l ++ above) ≠ none := by simp [habove]
      exact FileTree.step?_of_isEntryName (ht.isEntryName_of_mem hthere hn)
    · obtain rfl := List.mem_singleton.mp hn
      exact step?_of_isCase hname
  have hlinks : ∀ front, front ≠ [] → front <+: above ++ [.text name] → ∀ target,
      t'.get? (l ++ front) ≠ some (.link target) := by
    intro front _ hfront target hlink
    rcases List.prefix_concat_iff.mp hfront with rfl | ⟨rest, rfl⟩
    · exact (h.writable (Or.inl hnone)).ne_of_link hlink rfl
    · have hdir : t.get? (l ++ front) = some .directory := by
        by_cases hrest : rest = []
        · rwa [hrest, List.append_nil] at habove
        · apply ht.above_directory hrest
          rw [List.append_assoc, habove]
          simp
      simp [h.get?_directory hdir] at hlink
  rw [FileTree.locateRoute_below_eq (h.locateRoute hroot) hk (by simp) hsteps hlinks]
  exact hls

theorem caseFiles_rewritten (ht : t.WellFormed) (h : t.Rewritten ls t')
    (hparents : ∀ k ∈ ls, t.get? k = none → t.get? k.dropLast = some .directory)
    (hroot : t.locate .look root = .ok l)
    (havoid : ∀ names ∈ caseFiles t' casePrefix root l,
      t'.leadsInto ls (.below root names) = false) :
    caseFiles t' casePrefix root l = caseFiles t casePrefix root l := by
  obtain ⟨new, hkeys, hnew⟩ := h.keys
  have hbelow : t'.namesBelow l = t.namesBelow l ++ new.filterMap (l.isPrefixOf? ·) := by
    have hmap (u : FileTree) :
        u.namesBelow l = (u.nodes.map Prod.fst).filterMap (l.isPrefixOf? ·) := by
      rw [FileTree.namesBelow, List.filterMap_map]
      rfl
    rw [hmap, hmap, hkeys, List.filterMap_append]
  have hfound {names : Location} (hnames : names ∈ t'.namesBelow l)
      (hcase : isCaseFile casePrefix names = true)
      (hfile : t'.isFile (.below root names) = true) : ∃ k content,
        t'.locateRoute .look (.below root names) = .ok k ∧ k ∉ ls ∧
        t'.get? k = some (.file content) := by
    obtain ⟨k, content, hk, hget⟩ := FileTree.isFile_iff.mp hfile
    have hleads := havoid names (mem_caseFiles_iff.mpr ⟨hnames, hcase, hfile⟩)
    exact ⟨k, content, hk, FileTree.notMem_of_leadsInto hleads hk, hget⟩
  have hold : ∀ names ∈ t.namesBelow l,
      (isCaseFile casePrefix names && t'.isFile (.below root names)) =
        (isCaseFile casePrefix names && t.isFile (.below root names)) := by
    intro names hnames
    rw [Bool.eq_iff_iff]
    simp only [Bool.and_eq_true, and_congr_right_iff]
    intro hcase
    constructor
    · intro hfile
      obtain ⟨k, content, hk, hout, hget⟩ :=
        hfound (by rw [hbelow]; exact List.mem_append_left _ hnames) hcase hfile
      rw [h.get?_of_notMem hout] at hget
      exact FileTree.isFile_iff.mpr ⟨k, content, h.locateRoute_of_notMem hk hout, hget⟩
    · intro hfile
      obtain ⟨k, content, hk, hget⟩ := FileTree.isFile_iff.mp hfile
      obtain ⟨content', hget'⟩ := h.get?_file hget
      exact FileTree.isFile_iff.mpr ⟨k, content', h.locateRoute hk, hget'⟩
  have hnone : ∀ names ∈ new.filterMap (l.isPrefixOf? ·),
      ¬(isCaseFile casePrefix names && t'.isFile (.below root names)) = true := by
    intro names hnames hboth
    rw [Bool.and_eq_true] at hboth
    obtain ⟨k, content, hk, hout, -⟩ :=
      hfound (by rw [hbelow]; exact List.mem_append_right _ hnames) hboth.1 hboth.2
    obtain ⟨key, hkey, hstart⟩ := List.mem_filterMap.mp hnames
    rw [← List.append_eq_of_isPrefixOf?_eq_some hstart] at hkey
    obtain ⟨hls, hfresh⟩ := hnew _ hkey
    exact hout (mem_of_new ht h hparents hroot hls hfresh hboth.1 hk)
  rw [caseFiles, caseFiles, hbelow, List.filter_append, List.filter_congr hold,
    List.filter_eq_nil_iff.mpr hnone, List.append_nil]

end Discovery

theorem EntryIndex.ofFiles_rewritten {c : Config} {t t' : FileTree} {ls : List Location}
    {files : List SourceFile} {i : EntryIndex} (h : t.Rewritten ls t')
    (havoid : ∀ f ∈ files, t.leadsInto ls (.ofPath (f.pathFrom c.baseDir)) = false)
    (hi : EntryIndex.ofFiles c t files = .ok i) : EntryIndex.ofFiles c t' files = .ok i := by
  obtain ⟨found, hfound, rfl⟩ := EntryIndex.ofFiles_eq_ok_iff.mp hi
  apply EntryIndex.ofFiles_eq_ok_iff.mpr
  refine ⟨found, mapM_eq_ok_of_imp ?_ hfound, rfl⟩
  intro f hf es hes
  obtain ⟨content, hread, rfl⟩ := EntryIndex.ofFile_eq_ok_iff.mp hes
  apply EntryIndex.ofFile_eq_ok_iff.mpr
  refine ⟨content, ?_, rfl⟩
  obtain ⟨k, hk, hget⟩ := FileTree.readRoute_eq_ok_iff.mp hread
  have hout := FileTree.notMem_of_leadsInto (havoid f hf) hk
  exact FileTree.readRoute_eq_ok_iff.mpr
    ⟨k, h.locateRoute hk, by rw [h.get?_of_notMem hout, hget]⟩

/-- After a generation that succeeds the draft is the same as before. -/
theorem Config.Targets.redraft {c : Config} {t t' : FileTree} {main header recipe : Location}
    {d : Draft} (htargets : c.Targets t main header recipe) (ht : t.WellFormed)
    (hbefore : sourceFilesAvoid c t [main, header, recipe] = true)
    (hafter : caseFilesAvoid c t' [main, header, recipe] = true) {text : Text}
    (hheader : t.readText c.headerPath = .ok text)
    (hapart : Region.cDeclarations.apart .cppDeclarations text = true)
    (hd : Draft.ofTree c t = .ok d) (hw : t.writeAll (d.outputs c) = (.ok (), t')) :
    Draft.ofTree c t' = .ok d := by
  obtain ⟨hrewritten, hread⟩ := htargets.written ht hd hw
  obtain ⟨hfiles, hentries, -, -, hdirectories, hrecipe⟩ := Draft.ofTree_eq_ok_iff.mp hd
  have hparents : ∀ k ∈ [main, header, recipe], t.get? k = none →
      t.get? k.dropLast = some .directory := by
    intro k hk
    simp only [List.mem_cons, List.not_mem_nil, or_false] at hk
    rcases hk with rfl | rfl | rfl
    · exact ht.created_in_directory htargets.main_at
    · exact ht.created_in_directory htargets.header_at
    · exact ht.created_in_directory htargets.recipe_at
  have hfiles' : Discovery.sourceFiles c t' = .ok d.files := by
    obtain ⟨found, hfound, hsorted⟩ := Discovery.sourceFiles_eq_ok_iff.mp hfiles
    obtain ⟨l, hl, hdir, hwalk, rfl⟩ := Discovery.caseFilesIn_eq_ok_iff.mp hfound
    -- no directory is new, so the walk opens what it opened before
    have hwalk' : Discovery.walkFailure? t' c.rootPath l = none := by
      rw [Discovery.walkFailure?_eq_none_iff] at hwalk ⊢
      exact fun names hnames => hwalk names (hrewritten.mem_directoriesBelow hnames)
    have hfound' : Discovery.caseFilesIn t' c.casePrefix c.rootPath =
        .ok (Discovery.caseFiles t' c.casePrefix c.rootPath l) :=
      Discovery.caseFilesIn_eq_ok_iff.mpr
        ⟨l, hrewritten.locateRoute hl, hrewritten.get?_directory hdir, hwalk', rfl⟩
    have havoid : ∀ names ∈ Discovery.caseFiles t' c.casePrefix c.rootPath l,
        t'.leadsInto [main, header, recipe] (.below c.rootPath names) = false := by
      simpa [caseFilesAvoid, hfound'] using hafter
    apply Discovery.sourceFiles_eq_ok_iff.mpr
    refine ⟨_, hfound', ?_⟩
    rw [Discovery.caseFiles_rewritten ht hrewritten hparents hl havoid, hsorted]
  have hentries' : EntryIndex.ofFiles c t' d.files = .ok d.entries := by
    apply EntryIndex.ofFiles_rewritten hrewritten _ hentries
    simpa [sourceFilesAvoid, hfiles] using hbefore
  have hmain : t'.edited c.mainPath d.entries.callEdits = .ok d.mainText :=
    FileTree.edited_eq_ok_iff.mpr
      ⟨d.mainText, hread (c.mainPath, d.mainText) (by simp [Draft.outputs]),
        (Draft.main_shows ht hd).2⟩
  have hheader' : t'.edited c.headerPath d.entries.declarationEdits = .ok d.headerText :=
    FileTree.edited_eq_ok_iff.mpr
      ⟨d.headerText, hread (c.headerPath, d.headerText) (by simp [Draft.outputs]),
        (Draft.header_shows ht hd hheader hapart).2.2⟩
  exact Draft.ofTree_eq_ok_iff.mpr
    ⟨hfiles', hentries', hmain, hheader', hdirectories, hrecipe⟩

/-- A generation that succeeds leaves nothing outdated, and generating again succeeds with the
same summary and changes nothing. -/
theorem generate_fixed_point {c : Config} {t t' : FileTree} {s : Summary}
    {main header recipe : Location} {text : Text} (ht : t.WellFormed)
    (htargets : c.Targets t main header recipe)
    (hbefore : sourceFilesAvoid c t [main, header, recipe] = true)
    (hafter : caseFilesAvoid c t' [main, header, recipe] = true)
    (hheader : t.readText c.headerPath = .ok text)
    (hapart : Region.cDeclarations.apart .cppDeclarations text = true)
    (hrun : generate c t = (.ok s, t')) :
    outdated c t' = .ok [] ∧ generate c t' = (.ok s, t') := by
  obtain ⟨d, hd, hs, hw⟩ := generate_eq_ok_iff.mp hrun
  have hd' := htargets.redraft ht hbefore hafter hheader hapart hd hw
  have hread := (htargets.written ht hd hw).2
  constructor
  · apply outdated_eq_ok_iff.mpr
    refine ⟨d, hd', ?_⟩
    rw [List.map_eq_nil_iff, List.filter_eq_nil_iff]
    intro o ho
    simp [FileTree.lacks_eq_false_iff.mpr (hread o ho)]
  · exact generate_eq_ok_iff.mpr ⟨d, hd', hs, FileTree.writeAll_of_read hread⟩

theorem generate_fixed_point_suite :
    Sample.suite.WellFormed ∧
    Config.Targets {} Sample.suite Sample.main Sample.header Sample.recipe ∧
    generate {} Sample.suite = (.ok ⟨3, 1, 3, 2⟩, (generate {} Sample.suite).2) ∧
    outdated {} (generate {} Sample.suite).2 = .ok [] ∧
    generate {} (generate {} Sample.suite).2 =
      (.ok ⟨3, 1, 3, 2⟩, (generate {} Sample.suite).2) := by
  have hbefore : sourceFilesAvoid {} Sample.suite
      [Sample.main, Sample.header, Sample.recipe] = true := by decide +kernel
  have hafter : caseFilesAvoid {} (generate {} Sample.suite).2
      [Sample.main, Sample.header, Sample.recipe] = true := by decide +kernel
  exact ⟨Sample.suite_wellFormed, Sample.suite_targets, Sample.suite_generated,
    generate_fixed_point Sample.suite_wellFormed Sample.suite_targets hbefore hafter suite_header
      suite_header_apart Sample.suite_generated⟩

namespace Sample

/-- A suite whose base directory is spelled like a case file, which is a link to the recipe. -/
def linked : FileTree where
  nodes := [
    (location ["suite"], .directory),
    (location ["suite", "testcases"], .directory),
    (location ["suite", "testcases", "CWE1.c"], .link ⟨"../Makefile_all".toList⟩),
    (location ["suite", "testcasesupport"], .directory),
    (main, file (empty .functionCalls)),
    (header, file headerText)]
  cwd := location ["suite"]

def linkedConfig : Config where
  baseDir := ⟨"/suite/testcases/CWE1.c".toList⟩
  root := ⟨"/suite/testcases".toList⟩
  supportDir := ⟨"/suite/testcasesupport".toList⟩
  output := ⟨"/suite/Makefile_all".toList⟩

end Sample

/-- It does not suffice that no source file is read at one of the written files: where the base
directory is spelled like a case file, the source file is read nowhere. -/
theorem generate_no_fixed_point_linked :
    Sample.linked.WellFormed ∧
    Sample.linkedConfig.Targets Sample.linked Sample.main Sample.header Sample.recipe ∧
    sourceFilesAvoid Sample.linkedConfig Sample.linked
      [Sample.main, Sample.header, Sample.recipe] = true ∧
    sourceFilesAvoid Sample.linkedConfig (generate Sample.linkedConfig Sample.linked).2
      [Sample.main, Sample.header, Sample.recipe] = true ∧
    Sample.linked.readText Sample.linkedConfig.headerPath = .ok Sample.headerText ∧
    Region.cDeclarations.apart .cppDeclarations Sample.headerText = true ∧
    generate Sample.linkedConfig Sample.linked =
      (.ok ⟨0, 0, 0, 0⟩, (generate Sample.linkedConfig Sample.linked).2) ∧
    outdated Sample.linkedConfig (generate Sample.linkedConfig Sample.linked).2 ≠ .ok [] := by
  have htargets : Sample.linkedConfig.Targets Sample.linked Sample.main Sample.header
      Sample.recipe := {
    main_at := toOption_eq_some_iff.mp (by decide +kernel)
    header_at := toOption_eq_some_iff.mp (by decide +kernel)
    recipe_at := toOption_eq_some_iff.mp (by decide +kernel)
    distinct := by decide }
  have hrun : (generate Sample.linkedConfig Sample.linked).1.toOption = some ⟨0, 0, 0, 0⟩ := by
    decide +kernel
  have houtdated : (outdated Sample.linkedConfig
      (generate Sample.linkedConfig Sample.linked).2).toOption ≠ some [] := by decide +kernel
  refine ⟨by decide +kernel, htargets, by decide +kernel, by decide +kernel,
    toOption_eq_some_iff.mp (by decide +kernel), suite_header_apart, eq_ok_of_toOption hrun, ?_⟩
  exact fun h => houtdated (toOption_eq_some_iff.mpr h)

end SuiteMake

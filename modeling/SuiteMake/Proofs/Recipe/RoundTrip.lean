import Mathlib.Data.List.Nodup
import Mathlib.Data.List.Perm.Basic
import SuiteMake.Proofs.Discovery.Complete
import SuiteMake.Proofs.Recipe.Sources

/-!
# A recipe compiles the portable files

The recipe names directories and globs, not files. Read against the files below the root, it
selects the portable source files, each once, if discovery misses none of them.
-/

namespace SuiteMake

def Name.isPastable : Name → Bool
  | .text chars => !chars.any Variants.breaksGlob
  | .raw .. => false

theorem Name.isSome_text?_of_isPastable {n : Name} (h : n.isPastable = true) :
    n.text?.isSome = true := by
  cases n with
  | text chars => rfl
  | raw bytes illFormed => cases h

namespace Discovery

/-- A file below the root, written as its directory and its name. -/
def written (c : Config) (names : Location) : Text :=
  SourceFile.directoryOf (relative c names) ++ '/' :: (names.getLast?.elim [] Name.display)

variable {c : Config} {t : FileTree}

open Classical in
/-- The files below the root of a suite, links to files among them. -/
noncomputable def filesBelow (c : Config) (t : FileTree) : List Location :=
  match t.locate .look c.rootPath with
  | .ok l => (t.namesBelow l).filter fun names => IsFileBelow c t names
  | .error _ => []

theorem mem_filesBelow_iff (ht : t.WellFormed) {names : Location} :
    names ∈ filesBelow c t ↔ IsFileBelow c t names := by
  cases hroot : t.locate .look c.rootPath with
  | error e =>
      have hnone : ¬ IsFileBelow c t names := by
        rintro ⟨l, hl, -⟩
        cases hroot.symm.trans hl
      simp [filesBelow, hroot, hnone]
  | ok l =>
      have hbelow (h : IsFileBelow c t names) : names ∈ t.namesBelow l := by
        obtain ⟨k, hk, hdescends, -⟩ := h
        cases hroot.symm.trans hk
        exact (ht.descends_iff.mp hdescends).2
      simpa [filesBelow, hroot] using hbelow

theorem filesBelow_nodup (ht : t.WellFormed) : (filesBelow c t).Nodup := by
  rw [filesBelow]
  split
  · exact (ht.namesBelow_nodup _).filter _
  · exact List.nodup_nil

/-- Where nothing but files stands below the root, these are all the names below it. -/
theorem filesBelow_eq {l : Location} (hroot : t.locate .look c.rootPath = .ok l)
    {below : List Location} (hnames : t.namesBelow l = [] :: below)
    (hbelow : ∀ names ∈ below, IsFileBelow c t names) : filesBelow c t = below := by
  have hroot' : ¬ IsFileBelow c t [] := by
    rintro ⟨k, -, hdescends, -⟩
    exact hdescends.ne_nil rfl
  rw [filesBelow, hroot]
  dsimp only
  rw [hnames, List.filter_cons_of_neg (by simpa using hroot'), List.filter_eq_self]
  intro names hmem
  simpa using hbelow names hmem

theorem IsFileBelow.isStep_of_isPastable (ht : t.WellFormed) {names : Location}
    (h : IsFileBelow c t names) (hpaste : ∀ n ∈ names, n.isPastable = true) {n : Name}
    (hn : n ∈ names) : Component.IsStep (.name n) :=
  h.isStep ht (fun n hn => Name.isSome_text?_of_isPastable (hpaste n hn)) hn

theorem caseAt?_eq_some_iff {names : Location} {f : SourceFile} :
    caseAt? c names = some f ↔ HasCaseName c names ∧ sourceFile? c names = some f := by
  rw [caseAt?]
  constructor
  · intro h
    split at h
    · rename_i hcase
      obtain ⟨above, name, rfl, hname⟩ := isCaseFile_iff.mp hcase
      have hsome : (sourceFile? c (above ++ [.text name])).isSome = true := by rw [h]; rfl
      exact ⟨⟨above, name, rfl, hname, (isSome_sourceFile?_iff hname).mp hsome⟩, h⟩
    · cases h
  · rintro ⟨⟨above, name, rfl, hname, -⟩, hsource⟩
    rw [if_pos (isCaseFile_iff.mpr ⟨above, name, rfl, hname⟩), hsource]

section Selected

variable {above : Location} {name dir : Text} {l : Language}

theorem written_concat (c : Config) (above : Location) (name : Text) :
    written c (above ++ [.text name]) =
      SourceFile.directoryOf (relative c (above ++ [.text name])) ++ '/' :: name := by
  rw [written, List.getLast?_concat]
  rfl

theorem canonical_written (hsteps : ∀ n ∈ above ++ [.text name], Component.IsStep (.name n))
    (hseen : relative c (above ++ [.text name]) ≠ []) :
    (Path.mk (written c (above ++ [.text name]))).canonical =
        Component.canonical (relative c (above ++ [.text name])) ∧
      Text.afterLast '/' (Component.canonical (relative c (above ++ [.text name]))) = name := by
  have hname : Component.IsStep (.name (.text name)) := hsteps _ (by simp)
  have hstandard := relative_standard hsteps c
  obtain ⟨before, hbefore⟩ := relative_concat hseen
  rw [hbefore] at hstandard
  rw [written_concat, hbefore]
  exact ⟨SourceFile.canonical_directory_name hstandard.left hname,
    SourceFile.afterLast_canonical before hname.slash_notMem⟩

theorem exists_caseAt? (hne : c.casePrefix ≠ []) {middle : Text} {l' : Language}
    (hname : name = c.casePrefix ++ (middle ++ '.' :: l'.extension)) (hline : '\n' ∉ name) :
    ∃ f, caseAt? c (above ++ [.text name]) = some f ∧ f.language = l' ∧
      f.path = Component.canonical (relative c (above ++ [.text name])) ∧
      f.directory = SourceFile.directoryOf (relative c (above ++ [.text name])) := by
  have hmiddle : '\n' ∉ middle := by
    intro hmem
    exact hline (hname ▸ List.mem_append_right _ (List.mem_append_left _ hmem))
  have hcase : isCaseFile c.casePrefix (above ++ [.text name]) = true := by
    rw [isCaseFile_concat]
    exact CaseName.isCase_iff.mpr ⟨l', middle, hname, hmiddle⟩
  have hnames : above ++ [Name.text name] =
      above ++ [.text (c.casePrefix ++ (middle ++ '.' :: l'.extension))] := by rw [hname]
  have hsource := sourceFile?_of_case hne hnames
  exact ⟨_, by rw [caseAt?, if_pos hcase, hsource], rfl, rfl, rfl⟩

theorem caseAt?_eq_none (h : ¬ ∃ (l : Language) (middle : Text),
    name = c.casePrefix ++ (middle ++ '.' :: l.extension)) :
    caseAt? c (above ++ [.text name]) = none := by
  rw [caseAt?, isCaseFile_concat, if_neg]
  intro hcase
  obtain ⟨l, middle, hname, -⟩ := CaseName.isCase_iff.mp hcase
  exact h ⟨l, middle, hname⟩

private theorem selected_concat (hne : c.casePrefix ≠ []) (hdir : Recipe.Pasted c dir)
    (hsteps : ∀ n ∈ above ++ [.text name], Component.IsStep (.name n)) (hline : '\n' ∉ name)
    (hseen : ∀ f, caseAt? c (above ++ [.text name]) = some f → f.path ≠ []) :
    (if Recipe.selects c l dir (written c (above ++ [.text name])) then
      some (Path.mk (written c (above ++ [.text name]))).canonical else none) =
    ((caseAt? c (above ++ [.text name])).filter fun f =>
      f.directory = dir && f.language = l && c.isPortable f).map SourceFile.path := by
  have hslash : '/' ∉ name := (hsteps _ (by simp)).slash_notMem
  have hselects := Recipe.selects_iff (l := l) hdir hslash
    (d := SourceFile.directoryOf (relative c (above ++ [.text name])))
  rw [← written_concat] at hselects
  by_cases hcase : ∃ (l' : Language) (middle : Text),
      name = c.casePrefix ++ (middle ++ '.' :: l'.extension)
  · obtain ⟨l', middle, hname⟩ := hcase
    obtain ⟨f, hf, hlanguage, hpath, hdirectory⟩ := exists_caseAt? hne hname hline
    have hrelative : relative c (above ++ [.text name]) ≠ [] := by
      intro hnil
      apply hseen f hf
      rw [hpath, hnil]
      rfl
    obtain ⟨hcanonical, hlast⟩ := canonical_written hsteps hrelative
    have hportable : c.isPortable f = c.variants.isPortable c.casePrefix name := by
      rw [Config.isPortable, SourceFile.name, hpath, hlast]
    have hcondition : Recipe.selects c l dir (written c (above ++ [.text name])) =
        (f.directory = dir && f.language = l && c.isPortable f) := by
      rw [Bool.eq_iff_iff, hselects, CaseName.exists_middle_iff hname, ← hlanguage, ← hdirectory,
        ← hportable]
      simp only [Bool.and_eq_true, decide_eq_true_eq, and_assoc]
    rw [hf, hcondition, hcanonical, ← hpath]
    cases hb : decide (f.directory = dir) && decide (f.language = l) && c.isPortable f <;>
      simp [Option.filter, hb]
  · have hunselected : Recipe.selects c l dir (written c (above ++ [.text name])) = false := by
      rw [← Bool.not_eq_true, hselects]
      rintro ⟨-, ⟨middle, hname⟩, -⟩
      exact hcase ⟨l, middle, hname⟩
    rw [caseAt?_eq_none hcase, hunselected]
    rfl

/-- An expression selects a file if it belongs to a portable source file of its directory and
language. -/
theorem selected_eq (hne : c.casePrefix ≠ []) (hdir : Recipe.Pasted c dir) {names : Location}
    (hsteps : ∀ n ∈ names, Component.IsStep (.name n))
    (hpaste : ∀ n ∈ names, n.isPastable = true)
    (hseen : ∀ f, caseAt? c names = some f → f.path ≠ []) :
    (if Recipe.selects c l dir (written c names) then
      some (Path.mk (written c names)).canonical else none) =
    ((caseAt? c names).filter fun f =>
      f.directory = dir && f.language = l && c.isPortable f).map SourceFile.path := by
  cases hlast : names.getLast? with
  | none =>
      obtain rfl : names = [] := List.getLast?_eq_none_iff.mp hlast
      have hunselected : Recipe.selects c l dir (written c []) = false := by
        rw [← Bool.not_eq_true, written, List.getLast?_nil, Option.elim_none,
          Recipe.selects_iff hdir (by simp)]
        rintro ⟨-, ⟨middle, hempty⟩, -⟩
        simp [hne] at hempty
      rw [hunselected]
      rfl
  | some n =>
      obtain ⟨above, rfl⟩ := List.getLast?_eq_some_iff.mp hlast
      have hpastable := hpaste n (by simp)
      cases n with
      | raw bytes illFormed => cases hpastable
      | text name =>
          have hplain : name.any Variants.breaksGlob = false := by
            simpa [Name.isPastable] using hpastable
          have hline : '\n' ∉ name :=
            (Recipe.plain_of_pastable hplain).1.notMem (by decide) (by decide)
          exact selected_concat hne hdir hsteps hline hseen

end Selected

end Discovery

namespace Recipe

/-- What a build takes from some paths: all that the expressions of the source variables select. -/
def compiled (recipe : Text) (paths : List Text) : List Text :=
  Language.all.flatMap fun l => (assignedTo l.sourcesVariable recipe).flatMap (select · paths)

theorem compiled_recipe {c : Config} {dirs : List Text}
    (htexts : ∀ text ∈ c.recipeTexts, '\n' ∉ text) (hdirs : ∀ dir ∈ dirs, Pasted c dir)
    (paths : List Text) :
    compiled (recipe c dirs) paths =
      Language.all.flatMap fun l => dirs.flatMap fun dir => paths.filter (selects c l dir) := by
  rw [compiled]
  congr 1
  funext l
  rw [assignedTo_recipe htexts fun dir hdir => (hdirs dir hdir).unbroken, selections,
    List.flatMap_map]
  apply List.flatMap_congr
  intro dir hdir
  exact select_eq (hdirs dir hdir) paths

end Recipe

/-- Of some files below the root, the canonical paths of those that the recipe for some source files
compiles. -/
def Draft.compiledPaths (c : Config) (below : List Location) (files : List SourceFile) : List Text :=
  (Recipe.compiled (recipeFor c files) (below.map (Discovery.written c))).map fun p =>
    (Path.mk p).canonical

/-- What a recipe is made of can be pasted into it and read back. -/
structure Draft.Pastable (c : Config) (t : FileTree) (files : List SourceFile) : Prop where
  casePrefix_ne_nil : c.casePrefix ≠ []
  casePrefix : c.casePrefix.any Variants.breaksGlob = false
  directories : ∀ f ∈ files, Recipe.Plain f.directory
  names : ∀ names, Discovery.IsFileBelow c t names → ∀ n ∈ names, n.isPastable = true
  texts : ∀ text ∈ c.recipeTexts, '\n' ∉ text

private theorem groups_perm {α κ : Type} [DecidableEq κ] (key : α → κ) {keys : List κ}
    (hkeys : keys.Nodup) {xs : List α} (h : ∀ x ∈ xs, key x ∈ keys) :
    (keys.flatMap fun k => xs.filter (key · = k)).Perm xs := by
  induction keys generalizing xs with
  | nil =>
      have hnil : xs = [] := List.eq_nil_iff_forall_not_mem.mpr fun x hx => by simpa using h x hx
      rw [hnil]
      exact List.Perm.refl _
  | cons k keys ih =>
      obtain ⟨hk, hkeys⟩ := List.nodup_cons.mp hkeys
      -- the other keys group what does not have the first one
      have hrest : ∀ x ∈ xs.filter (key · ≠ k), key x ∈ keys := by
        intro x hx
        obtain ⟨hx, hne⟩ := List.mem_filter.mp hx
        exact (List.mem_cons.mp (h x hx)).resolve_left (by simpa using hne)
      have hgroups : (keys.flatMap fun k' => xs.filter (key · = k')) =
          keys.flatMap fun k' => (xs.filter (key · ≠ k)).filter (key · = k') := by
        apply List.flatMap_congr
        intro k' hk'
        rw [List.filter_filter]
        apply List.filter_congr
        intro x hx
        by_cases hx' : key x = k'
        · have hne : k' ≠ k := fun heq => hk (heq ▸ hk')
          simp [hx', hne]
        · simp [hx']
      have hparts : (xs.filter (key · = k) ++ xs.filter (key · ≠ k)).Perm xs := by
        simpa using List.filter_append_perm (fun x => decide (key x = k)) xs
      rw [List.flatMap_cons, hgroups]
      exact ((ih hkeys hrest).append_left _).trans hparts

private theorem groups_of_files {files : List SourceFile} {dirs : List Text} (hdirs : dirs.Nodup)
    (h : ∀ f ∈ files, f.directory ∈ dirs) :
    (Language.all.flatMap fun l => dirs.flatMap fun dir =>
      (files.filter (·.language = l)).filter (·.directory = dir)).Perm files := by
  have hdirectories : ∀ l ∈ Language.all, (dirs.flatMap fun dir =>
      (files.filter (·.language = l)).filter (·.directory = dir)).Perm
        (files.filter (·.language = l)) := by
    intro l _
    apply groups_perm SourceFile.directory hdirs
    intro f hf
    exact h f (List.mem_filter.mp hf).1
  have hlanguages : (Language.all.flatMap fun l => files.filter (·.language = l)).Perm files := by
    apply groups_perm SourceFile.language (by decide)
    intro f _
    cases f.language <;> decide
  exact (List.Perm.flatMap_left _ hdirectories).trans hlanguages

private theorem pasted_directories {c : Config} {files : List SourceFile}
    (hcase : c.casePrefix.any Variants.breaksGlob = false)
    (hdirs : ∀ f ∈ files, Recipe.Plain f.directory) :
    ∀ dir ∈ Draft.directoriesOf files, Recipe.Pasted c dir := by
  intro dir hdir
  obtain ⟨f, hf, rfl⟩ := List.mem_map.mp (mem_of_mem_ascending hdir)
  exact ⟨hcase, hdirs f hf⟩

/-- A file without a name holds no marker. -/
theorem Config.isPortable_of_path_eq_nil (c : Config) {f : SourceFile} (h : f.path = []) :
    c.isPortable f = true := by
  have hcore : CaseName.core c.casePrefix [] = [] := by
    cases c.casePrefix <;> rfl
  have hname : f.name = [] := by
    rw [SourceFile.name, h]
    rfl
  rw [isPortable, hname, Variants.isPortable, Bool.not_eq_true', Variants.excludes, hcore,
    List.any_eq_false]
  intro m hm
  obtain ⟨hne, -⟩ := c.variants.pastable m hm
  simp [Text.occursIn, Text.cut?, hne]

section RoundTrip

variable {c : Config} {t : FileTree} {files : List SourceFile}

open Discovery

private theorem compiledPaths_eq {below : List Location} (hpaste : Draft.Pastable c t files)
    (hsteps : ∀ names ∈ below, ∀ n ∈ names, Component.IsStep (.name n) ∧ n.isPastable = true)
    (hpaths : ∀ f ∈ below.filterMap (caseAt? c), f.path ≠ []) :
    Draft.compiledPaths c below files =
      (Language.all.flatMap fun l => (Draft.directoriesOf files).flatMap fun dir =>
        (((below.filterMap (caseAt? c)).filter c.isPortable).filter
          (·.language = l)).filter (·.directory = dir)).map SourceFile.path := by
  have hdirs := pasted_directories hpaste.casePrefix hpaste.directories
  rw [Draft.compiledPaths, Draft.recipeFor, Recipe.compiled_recipe hpaste.texts hdirs,
    List.map_flatMap, List.map_flatMap]
  congr 1
  funext l
  rw [List.map_flatMap, List.map_flatMap]
  apply List.flatMap_congr
  intro dir hdir
  rw [List.filter_filter, List.filter_filter, List.filter_filterMap, List.map_filterMap,
    List.filter_map, List.map_map, ← List.filterMap_eq_map, List.filterMap_filter]
  apply List.filterMap_congr
  intro names hmem
  exact selected_eq hpaste.casePrefix_ne_nil (hdirs dir hdir)
    (fun n hn => (hsteps names hmem n hn).1) (fun n hn => (hsteps names hmem n hn).2)
    fun f hf => hpaths f (List.mem_filterMap.mpr ⟨names, hmem, hf⟩)

/-- Where the portable case files are within reach, their source files are those of all case files
below the root that are portable. -/
theorem portable_perm (ht : t.WellFormed) (hfiles : sourceFiles c t = .ok files)
    (hpaste : ∀ names, IsFileBelow c t names → ∀ n ∈ names, n.isPastable = true)
    (hreach : ∀ names f, IsCaseBelow c t names → sourceFile? c names = some f →
      c.isPortable f = true → InReach c t names) :
    (((filesBelow c t).filterMap (caseAt? c)).filter c.isPortable).Perm
      (files.filter c.isPortable) := by
  have hlisted : ((filesBelow c t).filterMap (caseAt? c)).Nodup := by
    refine List.Nodup.of_map SourceFile.path (paths_nodup (filesBelow_nodup ht) ?_)
    intro names hnames n hn
    have hfile := (mem_filesBelow_iff ht).mp hnames
    exact hfile.isStep_of_isPastable ht (hpaste names hfile) hn
  have hfound : files.Nodup := List.Nodup.of_map SourceFile.path (nodup_paths hfiles)
  have htext : ∀ names, IsCaseBelow c t names → ∀ n ∈ names, n.text?.isSome = true :=
    fun names hnames n hn => Name.isSome_text?_of_isPastable (hpaste names hnames.file n hn)
  -- neither list has repetitions, so their members decide
  refine (List.perm_ext_iff_of_nodup (hlisted.filter _) (hfound.filter _)).mpr ?_
  intro f
  rw [List.mem_filter, List.mem_filter, List.mem_filterMap]
  apply and_congr_left
  intro hportable
  constructor
  · rintro ⟨names, hnames, hcase⟩
    obtain ⟨hnamed, hsource⟩ := caseAt?_eq_some_iff.mp hcase
    have hbelow : IsCaseBelow c t names := ⟨(mem_filesBelow_iff ht).mp hnames, hnamed⟩
    have hreached := hreach names f hbelow hsource hportable
    obtain ⟨g, hg, hsource'⟩ := mem_sourceFiles_of_isFound ht hfiles htext ⟨hbelow, hreached⟩
    cases hsource.symm.trans hsource'
    exact hg
  · intro hf
    obtain ⟨names, hnames, hsource⟩ := exists_isFound ht hfiles hf
    exact ⟨names, (mem_filesBelow_iff ht).mpr hnames.file,
      caseAt?_eq_some_iff.mpr ⟨hnames.named, hsource⟩⟩

/-- Read against the files below the root, the recipe selects the portable source files and no
file twice, provided that what it pastes can be read back, the base is not itself a case file and
the portable case files are within the reach of discovery. -/
theorem recipe_round_trip (ht : t.WellFormed) (hfiles : sourceFiles c t = .ok files)
    (hpaste : Draft.Pastable c t files) (hpaths : ∀ f ∈ files, f.path ≠ [])
    (hreach : ∀ names f, IsCaseBelow c t names → sourceFile? c names = some f →
      c.isPortable f = true → InReach c t names) :
    (Draft.compiledPaths c (filesBelow c t) files).Perm
        ((files.filter c.isPortable).map SourceFile.path) ∧
      (Draft.compiledPaths c (filesBelow c t) files).Nodup := by
  have hportable := portable_perm ht hfiles hpaste.names hreach
  have hdirectories : (Draft.directoriesOf files).Nodup := by
    have hnodup : ((Draft.directoriesOf files).map id).Nodup := ascending_nodup _
    rwa [List.map_id] at hnodup
  have hdirectory : ∀ f ∈ files, f.directory ∈ Draft.directoriesOf files := by
    intro f hf
    obtain ⟨dir, hdir, hsame⟩ := exists_mem_ascending (id : Text → Text) (List.mem_map_of_mem hf)
    obtain rfl : dir = f.directory := hsame
    exact hdir
  have hsteps : ∀ names ∈ filesBelow c t, ∀ n ∈ names,
      Component.IsStep (.name n) ∧ n.isPastable = true := by
    intro names hnames n hn
    have hfile := (mem_filesBelow_iff ht).mp hnames
    exact ⟨hfile.isStep_of_isPastable ht (hpaste.names names hfile) hn,
      hpaste.names names hfile n hn⟩
  -- a case file with the empty path is portable, hence found, whichever files are within reach
  have hseen : ∀ f ∈ (filesBelow c t).filterMap (caseAt? c), f.path ≠ [] := by
    intro f hf hnil
    have hmem := hportable.mem_iff.mp
      (List.mem_filter.mpr ⟨hf, c.isPortable_of_path_eq_nil hnil⟩)
    exact hpaths f (List.mem_filter.mp hmem).1 hnil
  have hperm : (Draft.compiledPaths c (filesBelow c t) files).Perm
      ((files.filter c.isPortable).map SourceFile.path) := by
    rw [compiledPaths_eq hpaste hsteps hseen]
    apply List.Perm.map
    refine (groups_of_files hdirectories ?_).trans hportable
    intro f hf
    exact hdirectory f (List.mem_filter.mp (hportable.mem_iff.mp hf)).1
  have hsublist : ((files.filter c.isPortable).map SourceFile.path).Sublist
      (files.map SourceFile.path) := List.filter_sublist.map _
  exact ⟨hperm, hperm.nodup_iff.mpr ((nodup_paths hfiles).sublist hsublist)⟩

end RoundTrip

open Discovery

namespace Sample

def suiteFiles : List SourceFile :=
  [⟨"testcases/CWE1.c".toList, "testcases".toList, .c⟩,
    ⟨"testcases/CWE2.cpp".toList, "testcases".toList, .cpp⟩,
    ⟨"testcases/CWE3_w32.c".toList, "testcases".toList, .c⟩]

private theorem suiteFiles_evaluated :
    (sourceFiles {} suite).toOption = some suiteFiles ∧
    (suite.locate .look (Config.rootPath {})).toOption = some cases ∧
    (suite.namesBelow cases).all (fun names => names = [] ||
      (suite.get? (cases ++ names)).any (· matches .file _) &&
        (Route.below (Config.rootPath {}) names).length ≤ Route.maxLength) = true ∧
    (suiteFiles.filter (Config.isPortable {})).length = 2 ∧
    (∀ f ∈ suiteFiles, Recipe.Plain f.directory ∧ f.path ≠ []) ∧
    (suite.nodes.map Prod.fst).all (·.all Name.isPastable) = true ∧
    ∀ text ∈ Config.recipeTexts {}, '\n' ∉ text := by
  decide +kernel

theorem suite_sourceFiles : sourceFiles {} suite = .ok suiteFiles :=
  toOption_eq_some_iff.mp suiteFiles_evaluated.1

theorem suite_inReach {names : Location} (h : IsFileBelow {} suite names) :
    InReach {} suite names := by
  obtain ⟨-, hcases, hall, -⟩ := suiteFiles_evaluated
  obtain ⟨l, hroot, hdescends, -⟩ := h
  cases (toOption_eq_some_iff.mpr hroot).symm.trans hcases
  obtain ⟨hne, hmem⟩ := suite_wellFormed.descends_iff.mp hdescends
  have hplain := List.all_eq_true.mp hall names hmem
  simp only [hne, decide_false, Bool.false_or, Bool.and_eq_true, Option.any_eq_true,
    decide_eq_true_eq] at hplain
  obtain ⟨⟨node, hnode, hfile⟩, hlength⟩ := hplain
  cases node with
  | file content => exact inReach_of_file suite_wellFormed hroot hdescends hnode hlength
  | directory => cases hfile
  | link target => cases hfile

theorem suite_pastable : Draft.Pastable {} suite suiteFiles := by
  obtain ⟨-, -, -, -, hplain, hkeys, htexts⟩ := suiteFiles_evaluated
  exact ⟨by decide, by decide, fun f hf => (hplain f hf).1, fun _ h => all_of_keys hkeys h, htexts⟩

end Sample

theorem recipe_round_trip_suite :
    Draft.Pastable {} Sample.suite Sample.suiteFiles ∧
    sourceFiles {} Sample.suite = .ok Sample.suiteFiles ∧
    (Sample.suiteFiles.filter (Config.isPortable {})).length = 2 ∧
    (Draft.compiledPaths {} (filesBelow {} Sample.suite) Sample.suiteFiles).Perm
        ((Sample.suiteFiles.filter (Config.isPortable {})).map SourceFile.path) ∧
      (Draft.compiledPaths {} (filesBelow {} Sample.suite) Sample.suiteFiles).Nodup := by
  obtain ⟨-, -, -, hcount, hplain, -⟩ := Sample.suiteFiles_evaluated
  exact ⟨Sample.suite_pastable, Sample.suite_sourceFiles, hcount,
    recipe_round_trip Sample.suite_wellFormed Sample.suite_sourceFiles Sample.suite_pastable
      (fun f hf => (hplain f hf).2) fun _ _ h _ _ => Sample.suite_inReach h.file⟩

namespace Sample

def single : FileTree where
  nodes := [
    (location ["suite"], .directory),
    (cases, .directory),
    (cases ++ shortCase, file "void CWE1_bad()\n".toList)]
  cwd := location ["suite"]

def singleConfig : Config where
  baseDir := ⟨"/suite/testcases/CWE1.c".toList⟩
  root := ⟨"/suite/testcases".toList⟩

def singleFiles : List SourceFile := [⟨[], ['.'], .c⟩]

private theorem single_evaluated : single.WellFormed ∧
    (sourceFiles singleConfig single).toOption = some singleFiles ∧
    (single.locate .look singleConfig.rootPath).toOption = some cases ∧
    single.namesBelow cases = [[], shortCase] ∧
    single.get? (cases ++ shortCase) = some (file "void CWE1_bad()\n".toList) ∧
    (∀ f ∈ singleFiles, Recipe.Plain f.directory) ∧
    (single.nodes.map Prod.fst).all (·.all Name.isPastable) = true ∧
    (∀ text ∈ singleConfig.recipeTexts, '\n' ∉ text) ∧
    (Language.all.flatMap fun l => (Draft.directoriesOf singleFiles).flatMap fun dir =>
      [written singleConfig shortCase].filter (Recipe.selects singleConfig l dir)) =
        ["./CWE1.c".toList] := by
  decide +kernel

private theorem pairFiles_evaluated :
    (∀ f ∈ pairFiles, Recipe.Plain f.directory) ∧
    (pair.nodes.map Prod.fst).all (·.all Name.isPastable) = true ∧
    (chained.nodes.map Prod.fst).all (·.all Name.isPastable) = true ∧
    (∀ text ∈ Config.recipeTexts {}, '\n' ∉ text) ∧
    (Language.all.flatMap fun l => (Draft.directoriesOf pairFiles).flatMap fun dir =>
      [written {} shortCase, written {} longCase].filter (Recipe.selects {} l dir)) =
        ["testcases/CWE1.c".toList, "testcases/CWE12.c".toList] := by
  decide +kernel

theorem single_files : sourceFiles singleConfig single = .ok singleFiles ∧
    filesBelow singleConfig single = [shortCase] := by
  obtain ⟨ht, hfiles, hroot, hnames, hfile, -⟩ := single_evaluated
  refine ⟨toOption_eq_some_iff.mp hfiles, ?_⟩
  apply filesBelow_eq (toOption_eq_some_iff.mp hroot) hnames
  intro names hmem
  obtain rfl := List.mem_singleton.mp hmem
  exact isFileBelow_of_file ht (toOption_eq_some_iff.mp hroot)
    (ht.descends_iff.mpr ⟨by decide, by simp [hnames]⟩) hfile

theorem single_pastable : Draft.Pastable singleConfig single singleFiles := by
  obtain ⟨-, -, -, -, -, hdirs, hkeys, htexts, -⟩ := single_evaluated
  exact ⟨by decide, by decide, hdirs, fun _ h => all_of_keys hkeys h, htexts⟩

theorem single_compiledPaths :
    Draft.compiledPaths singleConfig [shortCase] singleFiles = ["CWE1.c".toList] := by
  obtain ⟨-, -, -, -, -, hdirs, -, htexts, hselected⟩ := single_evaluated
  rw [Draft.compiledPaths, Draft.recipeFor,
    Recipe.compiled_recipe htexts (pasted_directories (by decide) hdirs), List.map_singleton,
    hselected]
  decide

theorem slashed_pastable {n : Nat} {t : FileTree}
    (hkeys : (t.nodes.map Prod.fst).all (·.all Name.isPastable) = true) :
    Draft.Pastable (slashed n) t pairFiles := by
  obtain ⟨hdirs, -, -, htexts, -⟩ := pairFiles_evaluated
  have hne : Config.casePrefix {} ≠ [] := by decide
  have hplain : (Config.casePrefix {}).any Variants.breaksGlob = false := by decide
  exact ⟨hne, hplain, hdirs, fun _ h => all_of_keys hkeys h, htexts⟩

theorem slashed_compiledPaths (n : Nat) :
    Draft.compiledPaths (slashed n) [shortCase, longCase] pairFiles =
      ["testcases/CWE1.c".toList, "testcases/CWE12.c".toList] := by
  obtain ⟨hdirs, -, -, htexts, hselected⟩ := pairFiles_evaluated
  have hwritten (names : Location) : written (slashed n) names = written {} names := by
    rw [written, written, relative, relative, componentsOf, componentsOf, slashed_components]
    rfl
  have hrecipe : Draft.recipeFor (slashed n) pairFiles = Draft.recipeFor {} pairFiles := rfl
  rw [Draft.compiledPaths, hrecipe, Draft.recipeFor,
    Recipe.compiled_recipe htexts (pasted_directories (by decide) hdirs)]
  simp only [List.map_cons, List.map_nil, hwritten, hselected]
  decide

theorem filesBelow_cases {c : Config} {t : FileTree} (hroot : t.locate .look c.rootPath = .ok cases)
    (hnames : t.namesBelow cases = [[], shortCase, longCase])
    (hfiles : IsFileBelow c t shortCase ∧ IsFileBelow c t longCase) :
    filesBelow c t = [shortCase, longCase] := by
  apply filesBelow_eq hroot hnames
  intro names hmem
  simp only [List.mem_cons, List.not_mem_nil, or_false] at hmem
  rcases hmem with rfl | rfl
  · exact hfiles.1
  · exact hfiles.2

theorem pair_filesBelow {n : Nat} (hn : n ≤ 4084) :
    filesBelow (slashed n) pair = [shortCase, longCase] :=
  filesBelow_cases (pair_locate hn).1 pair_namesBelow (pair_isFileBelow hn)

theorem chained_filesBelow : filesBelow (slashed 0) chained = [shortCase, longCase] :=
  filesBelow_cases chained_locate chained_namesBelow chained_isFileBelow

end Sample

/-- The recipe does not select the portable source files where the base is itself a case file,
whose source file has the empty path, and where discovery misses a case file because its path is
too long or leads through too many links. -/
theorem recipe_round_trip_fails :
    (Sample.single.WellFormed ∧
      sourceFiles Sample.singleConfig Sample.single = .ok Sample.singleFiles ∧
      Draft.Pastable Sample.singleConfig Sample.single Sample.singleFiles ∧
      ¬ (Draft.compiledPaths Sample.singleConfig (filesBelow Sample.singleConfig Sample.single)
          Sample.singleFiles).Perm
        ((Sample.singleFiles.filter Sample.singleConfig.isPortable).map SourceFile.path)) ∧
    (Sample.pair.WellFormed ∧
      sourceFiles (Sample.slashed 4078) Sample.pair = .ok Sample.pairFiles ∧
      Draft.Pastable (Sample.slashed 4078) Sample.pair Sample.pairFiles ∧
      ¬ (Draft.compiledPaths (Sample.slashed 4078) (filesBelow (Sample.slashed 4078) Sample.pair)
          Sample.pairFiles).Perm
        ((Sample.pairFiles.filter (Sample.slashed 4078).isPortable).map SourceFile.path)) ∧
    Sample.chained.WellFormed ∧
      sourceFiles (Sample.slashed 0) Sample.chained = .ok Sample.pairFiles ∧
      Draft.Pastable (Sample.slashed 0) Sample.chained Sample.pairFiles ∧
      ¬ (Draft.compiledPaths (Sample.slashed 0) (filesBelow (Sample.slashed 0) Sample.chained)
          Sample.pairFiles).Perm
        ((Sample.pairFiles.filter (Sample.slashed 0).isPortable).map SourceFile.path) := by
  obtain ⟨hwellFormed, -⟩ := Sample.single_evaluated
  obtain ⟨hfiles, hbelow⟩ := Sample.single_files
  obtain ⟨-, hpair, hchained, -⟩ := Sample.pairFiles_evaluated
  have hlonger (n : Nat) : ¬ (Draft.compiledPaths (Sample.slashed n)
      [Sample.shortCase, Sample.longCase] Sample.pairFiles).Perm
        ((Sample.pairFiles.filter (Sample.slashed n).isPortable).map SourceFile.path) := by
    intro hperm
    have hlength := hperm.length_eq
    have hle := List.length_filter_le (Sample.slashed n).isPortable Sample.pairFiles
    rw [Sample.slashed_compiledPaths, List.length_map] at hlength
    exact absurd (Nat.le_trans (Nat.le_of_eq hlength) hle) (by decide)
  refine ⟨⟨hwellFormed, hfiles, Sample.single_pastable, ?_⟩,
    ⟨Sample.pair_wellFormed, Sample.pair_sourceFiles, Sample.slashed_pastable hpair, ?_⟩,
    Sample.chained_wellFormed, Sample.chained_sourceFiles, Sample.slashed_pastable hchained, ?_⟩
  · rw [hbelow, Sample.single_compiledPaths]
    decide
  · rw [Sample.pair_filesBelow (by omega)]
    exact hlonger 4078
  · rw [Sample.chained_filesBelow]
    exact hlonger 0

end SuiteMake

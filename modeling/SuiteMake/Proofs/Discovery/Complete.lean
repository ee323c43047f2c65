import SuiteMake.Proofs.Draft.Generate
import SuiteMake.Proofs.FileTree.Respelling
import SuiteMake.Proofs.SourceFile

/-!
# Discovery finds every case file once

The case files of a suite are described by descents from its root, without reference to how they
are searched for. What stands between them and the search are the bounds on the length of a path
and on the links it leads through. Where no directory is beyond these and the names on the way to
case files are text, the source files that discovery lists correspond one to one to the case files
within reach.
-/

namespace SuiteMake

namespace Discovery

variable {c : Config} {t : FileTree} {l names : Location}

/-- A file below the root of a suite, or a link that leads to a file. The descent to it enters no
linked directory, although the root itself may be one. -/
def IsFileBelow (c : Config) (t : FileTree) (names : Location) : Prop :=
  ∃ l, t.locate .look c.rootPath = .ok l ∧ t.Descends l names ∧ ∃ links, t.EndsInFile links l names

/-- The last name is text, that of a test case, and more than an extension. -/
def HasCaseName (c : Config) (names : Location) : Prop :=
  ∃ above name, names = above ++ [.text name] ∧ CaseName.isCase c.casePrefix name = true ∧
    ∀ lang : Language, name ≠ '.' :: lang.extension

structure IsCaseBelow (c : Config) (t : FileTree) (names : Location) : Prop where
  file : IsFileBelow c t names
  named : HasCaseName c names

/-- What stands below the root can be looked up: its path is not too long, and the path leads
through no more links, those to the root included, than a path may. -/
structure InReach (c : Config) (t : FileTree) (names : Location) : Prop where
  length : (Route.below c.rootPath names).length ≤ Route.maxLength
  links : ∃ l used left, used + left ≤ FileTree.maxLinks ∧
    t.Reaches .look used (t.origin (.ofPath c.rootPath)) (Route.ofPath c.rootPath).steps l ∧
    t.EndsInFile left l names

/-- The path of no directory below the root is too long. -/
def Walkable (c : Config) (t : FileTree) : Prop :=
  ∀ l names, t.locate .look c.rootPath = .ok l → t.Descends l names →
    t.get? (l ++ names) = some .directory → (Route.below c.rootPath names).length ≤ Route.maxLength

structure IsFound (c : Config) (t : FileTree) (names : Location) : Prop
    extends IsCaseBelow c t names, InReach c t names

theorem reaches_root (h : t.locate .look c.rootPath = .ok l) :
    t.Reaches .look FileTree.maxLinks (t.origin (.ofPath c.rootPath))
      (Route.ofPath c.rootPath).steps l :=
  (FileTree.locateRoute_eq_ok_iff.mp h).2.2

theorem IsFound.descends (h : IsFound c t names) :
    ∃ l, t.locate .look c.rootPath = .ok l ∧ t.Descends l names := by
  obtain ⟨l, hroot, hdescends, -⟩ := h.file
  exact ⟨l, hroot, hdescends⟩

/-- The files that discovery finds are those that it looks up. -/
theorem isFound_iff_isFile (ht : t.WellFormed) (hroot : t.locate .look c.rootPath = .ok l)
    (hdescends : t.Descends l names) :
    IsFound c t names ↔ t.isFile (.below c.rootPath names) = true ∧ HasCaseName c names := by
  rw [hdescends.isFile_below_iff ht hroot]
  constructor
  · intro h
    obtain ⟨k, used, left, hsum, hk, hends⟩ := h.links
    obtain rfl := hk.functional (reaches_root hroot)
    exact ⟨⟨h.length, used, left, hsum, hk, hends⟩, h.named⟩
  · intro h
    obtain ⟨⟨hlength, used, left, hsum, hreach, hends⟩, hnamed⟩ := h
    exact ⟨⟨⟨l, hroot, hdescends, left, hends⟩, hnamed⟩, hlength, l, used, left, hsum, hreach, hends⟩

theorem IsFound.regular (ht : t.WellFormed) (h : IsFound c t names) :
    t.isFile (.below c.rootPath names) = true := by
  obtain ⟨l, hroot, hdescends⟩ := h.descends
  exact ((isFound_iff_isFile ht hroot hdescends).mp h).1

theorem isFileBelow_of_file (ht : t.WellFormed) (hroot : t.locate .look c.rootPath = .ok l)
    (hdescends : t.Descends l names) {content : Bytes}
    (hfile : t.get? (l ++ names) = some (.file content)) : IsFileBelow c t names :=
  ⟨l, hroot, hdescends, 0, (hdescends.endsInFile_iff ht (by simp [hfile])).mpr ⟨content, hfile⟩⟩

theorem inReach_of_file (ht : t.WellFormed) (hroot : t.locate .look c.rootPath = .ok l)
    (hdescends : t.Descends l names) {content : Bytes}
    (hfile : t.get? (l ++ names) = some (.file content))
    (hlength : (Route.below c.rootPath names).length ≤ Route.maxLength) : InReach c t names :=
  have hends := (hdescends.endsInFile_iff ht (by simp [hfile])).mpr ⟨content, hfile⟩
  ⟨hlength, l, FileTree.maxLinks, 0, Nat.le_refl _, reaches_root hroot, hends⟩

theorem isSome_sourceFile?_iff {above : Location} {name : Text}
    (h : CaseName.isCase c.casePrefix name = true) :
    (sourceFile? c (above ++ [.text name])).isSome = true ↔
      ∀ lang : Language, name ≠ '.' :: lang.extension := by
  constructor
  · intro hsome lang hname
    rw [hname, sourceFile?_of_extension] at hsome
    cases hsome
  · intro hname
    obtain ⟨lang, middle, rfl, -⟩ := CaseName.isCase_iff.mp h
    have hstem : c.casePrefix ++ middle ≠ [] := by
      intro hnil
      obtain ⟨hstart, hmiddle⟩ := List.append_eq_nil_iff.mp hnil
      exact hname lang (by rw [hstart, hmiddle]; rfl)
    rw [sourceFile?_of_stem rfl hstem]
    rfl

theorem isFound_iff (ht : t.WellFormed) (hroot : t.locate .look c.rootPath = .ok l) :
    IsFound c t names ↔ names ∈ caseFiles t c.casePrefix c.rootPath l ∧
      (sourceFile? c names).isSome = true := by
  rw [mem_caseFiles_iff]
  constructor
  · intro h
    obtain ⟨l', hl', hdescends⟩ := h.descends
    obtain rfl : l' = l := Except.ok.inj (hl'.symm.trans hroot)
    have hregular := h.regular ht
    obtain ⟨above, name, rfl, hcase, hname⟩ := h.named
    exact ⟨⟨(ht.descends_iff.mp hdescends).2, isCaseFile_iff.mpr ⟨above, name, rfl, hcase⟩,
      hregular⟩, (isSome_sourceFile?_iff hcase).mpr hname⟩
  · intro h
    obtain ⟨⟨hbelow, hfile, hregular⟩, hsome⟩ := h
    obtain ⟨above, name, rfl, hcase⟩ := isCaseFile_iff.mp hfile
    have hdescends := ht.descends_iff.mpr ⟨by simp, hbelow⟩
    exact (isFound_iff_isFile ht hroot hdescends).mpr
      ⟨hregular, above, name, rfl, hcase, (isSome_sourceFile?_iff hcase).mp hsome⟩

theorem IsFileBelow.isEntryName (ht : t.WellFormed) (h : IsFileBelow c t names) {n : Name}
    (hn : n ∈ names) : FileTree.isEntryName n = true := by
  obtain ⟨l, -, hdescends, -⟩ := h
  exact hdescends.isEntryName ht hn

theorem IsFileBelow.isStep (ht : t.WellFormed) (h : IsFileBelow c t names)
    (htext : ∀ n ∈ names, n.text?.isSome = true) {n : Name} (hn : n ∈ names) :
    Component.IsStep (.name n) := by
  have hentry := h.isEntryName ht hn
  have hsome := htext n hn
  cases n with
  | text name => exact FileTree.isStep_of_isEntryName hentry
  | raw bytes illFormed => cases hsome

section Listed

variable {files : List SourceFile}

theorem exists_isFound (ht : t.WellFormed) (h : sourceFiles c t = .ok files) {f : SourceFile}
    (hf : f ∈ files) : ∃ names, IsFound c t names ∧ sourceFile? c names = some f := by
  obtain ⟨found, hfound, rfl⟩ := sourceFiles_eq_ok_iff.mp h
  obtain ⟨l, hroot, -, -, rfl⟩ := caseFilesIn_eq_ok_iff.mp hfound
  obtain ⟨names, hnames, hsource⟩ := List.mem_filterMap.mp (mem_of_mem_ascending hf)
  exact ⟨names, (isFound_iff ht hroot).mpr ⟨hnames, by simp [hsource]⟩, hsource⟩

/-- Every case file within reach has a source file. Another one may hide it only by having the same
path. -/
theorem exists_mem_sourceFiles (ht : t.WellFormed) (h : sourceFiles c t = .ok files)
    (hnames : IsFound c t names) :
    ∃ f, sourceFile? c names = some f ∧ ∃ g ∈ files, g.path = f.path := by
  obtain ⟨found, hfound, rfl⟩ := sourceFiles_eq_ok_iff.mp h
  obtain ⟨l, hroot, -, -, rfl⟩ := caseFilesIn_eq_ok_iff.mp hfound
  obtain ⟨hmem, hsome⟩ := (isFound_iff ht hroot).mp hnames
  obtain ⟨f, hf⟩ := Option.isSome_iff_exists.mp hsome
  have hlisted : f ∈ (caseFiles t c.casePrefix c.rootPath l).filterMap (sourceFile? c) :=
    List.mem_filterMap.mpr ⟨names, hmem, hf⟩
  exact ⟨f, hf, exists_mem_ascending SourceFile.path hlisted⟩

theorem IsFileBelow.injective (ht : t.WellFormed) {names' : Location} {f g : SourceFile}
    (h : IsFileBelow c t names) (h' : IsFileBelow c t names')
    (htext : ∀ n ∈ names, n.text?.isSome = true) (htext' : ∀ n ∈ names', n.text?.isSome = true)
    (hf : sourceFile? c names = some f) (hg : sourceFile? c names' = some g)
    (hpath : f.path = g.path) : names = names' := by
  rw [path_of_sourceFile? hf, path_of_sourceFile? hg] at hpath
  exact relative_injective (fun n hn => h.isStep ht htext hn)
    (fun n hn => h'.isStep ht htext' hn) hpath

/-- Where names are text, no case file within reach is hidden. -/
theorem mem_sourceFiles_of_isFound (ht : t.WellFormed) (h : sourceFiles c t = .ok files)
    (htext : ∀ names, IsCaseBelow c t names → ∀ n ∈ names, n.text?.isSome = true)
    (hnames : IsFound c t names) : ∃ f ∈ files, sourceFile? c names = some f := by
  obtain ⟨f, hf, g, hg, hpath⟩ := exists_mem_sourceFiles ht h hnames
  -- the source file that is listed under this path is that of the same case file
  obtain ⟨names', hnames', hsource⟩ := exists_isFound ht h hg
  obtain rfl : names = names' := hnames.file.injective ht hnames'.file
    (htext _ hnames.toIsCaseBelow) (htext _ hnames'.toIsCaseBelow) hf hsource hpath.symm
  exact ⟨g, hg, hsource⟩

end Listed

theorem exists_of_isDirectory {p : Path} (h : t.isDirectory p = true) :
    ∃ l, t.openDirectory (.ofPath p) = .ok l := by
  rw [FileTree.isDirectory] at h
  cases hopen : t.openDirectory (.ofPath p) with
  | error e => simp [hopen, Except.isOk, Except.toBool] at h
  | ok l => exact ⟨l, rfl⟩

theorem walkFailure?_eq_none_iff_walkable (ht : t.WellFormed)
    (hroot : t.locate .look c.rootPath = .ok l) :
    walkFailure? t c.rootPath l = none ↔ Walkable c t := by
  rw [walkFailure?_eq_none_iff]
  constructor
  · intro h l' names hl' hdescends hdir
    obtain rfl : l' = l := Except.ok.inj (hl'.symm.trans hroot)
    exact (Route.fault?_eq_none_iff.mp
      (h names (ht.mem_directoriesBelow_iff.mpr ⟨hdescends, hdir⟩))).2
  · intro h names hnames
    obtain ⟨hdescends, hdir⟩ := ht.mem_directoriesBelow_iff.mp hnames
    rw [hdescends.fault?_below ht hroot, if_neg]
    exact Nat.not_lt.mpr (h l names hroot hdescends hdir)

theorem sourceFiles_eq_ok (hroot : t.locate .look c.rootPath = .ok l)
    (hdir : t.get? l = some .directory) (hwalk : walkFailure? t c.rootPath l = none) :
    sourceFiles c t = .ok (ascending SourceFile.path
      ((caseFiles t c.casePrefix c.rootPath l).filterMap (sourceFile? c))) :=
  sourceFiles_eq_ok_iff.mpr ⟨_, caseFilesIn_eq_ok_iff.mpr ⟨l, hroot, hdir, hwalk, rfl⟩, rfl⟩

theorem sourceFiles_eq_error (ht : t.WellFormed)
    (hopen : t.openDirectory (.ofPath c.rootPath) = .ok l) (h : ¬ Walkable c t) :
    ∃ names, t.Descends l names ∧ t.get? (l ++ names) = some .directory ∧
      Route.maxLength < (Route.below c.rootPath names).length ∧
      sourceFiles c t = .error (.walk (shown c.rootPath names) .nameTooLong) := by
  obtain ⟨hroot, -⟩ := FileTree.openDirectory_eq_ok_iff.mp hopen
  cases hwalk : walkFailure? t c.rootPath l with
  | none => exact absurd ((walkFailure?_eq_none_iff_walkable ht hroot).mp hwalk) h
  | some failure =>
      obtain ⟨names, hnames, cause, hcause, rfl⟩ := exists_of_walkFailure? hwalk
      obtain ⟨hdescends, hdir⟩ := ht.mem_directoriesBelow_iff.mp hnames
      rw [hdescends.fault?_below ht hroot] at hcause
      split at hcause
      · rename_i hlong
        cases hcause
        refine ⟨names, hdescends, hdir, hlong, ?_⟩
        rw [sourceFiles, caseFilesIn_eq_error c.casePrefix hopen hwalk]
        rfl
      · cases hcause

theorem sourceFiles_perm_nodes (ht : t.WellFormed) {t' : FileTree}
    (hnodes : t'.nodes.Perm t.nodes) (hcwd : t'.cwd = t.cwd)
    (hopen : t.openDirectory (.ofPath c.rootPath) = .ok l) :
    sourceFiles c t' = sourceFiles c t := by
  have hagree : t.AgreesOutside t' [] := ht.agreesOutside_of_perm hnodes hcwd
  obtain ⟨hroot, hdir⟩ := FileTree.openDirectory_eq_ok_iff.mp hopen
  have hopen' : t'.openDirectory (.ofPath c.rootPath) = .ok l :=
    FileTree.openDirectory_eq_ok_iff.mpr
      ⟨hagree.locateRoute.mpr hroot, by rw [hagree.get? l (by simp), hdir]⟩
  -- the nodes come into both lists only by membership, as these are put in order
  have hwalk : walkFailure? t' c.rootPath l = walkFailure? t c.rootPath l := by
    have hsame : unopened t' c.rootPath l = unopened t c.rootPath l := by
      apply ascending_congr Location.bytes_injective
      intro names
      rw [List.mem_filter, List.mem_filter, FileTree.directoriesBelow, FileTree.directoriesBelow,
        ((hnodes.filterMap _).filter _).mem_iff]
    rw [walkFailure?, walkFailure?, hsame]
  have hfound : caseFiles t' c.casePrefix c.rootPath l = caseFiles t c.casePrefix c.rootPath l := by
    apply ascending_congr Location.bytes_injective
    intro names
    rw [List.mem_filter, List.mem_filter, FileTree.mem_namesBelow_iff, FileTree.mem_namesBelow_iff,
      hagree.isFile, (hnodes.map Prod.fst).mem_iff]
  simp only [sourceFiles, caseFilesIn, hopen, hopen', hwalk, hfound]

/-- Below a root that is a directory, discovery succeeds if the path of no directory is too long,
and fails at such a directory otherwise. Where the names on the way to case files are text, the
source files it lists ascend strictly by path and correspond one to one to the case files within
reach, among them every plain file whose path is not too long. The order in which the tree lists
its nodes has no part in this. -/
theorem discovery_one_to_one (ht : t.WellFormed) (hroot : t.isDirectory c.rootPath = true)
    (htext : ∀ names, IsCaseBelow c t names → ∀ n ∈ names, n.text?.isSome = true) :
    (Walkable c t → ∃ files, sourceFiles c t = .ok files) ∧
    (¬ Walkable c t → ∃ l names, t.locate .look c.rootPath = .ok l ∧ t.Descends l names ∧
      t.get? (l ++ names) = some .directory ∧
      Route.maxLength < (Route.below c.rootPath names).length ∧
      sourceFiles c t = .error (.walk (shown c.rootPath names) .nameTooLong)) ∧
    (∀ files, sourceFiles c t = .ok files →
      files.Pairwise (fun f g => f.path < g.path) ∧
      (∀ names, IsCaseBelow c t names → InReach c t names →
        ∃ f ∈ files, sourceFile? c names = some f) ∧
      (∀ f ∈ files, ∃ names, IsCaseBelow c t names ∧ InReach c t names ∧
        sourceFile? c names = some f ∧
        ∀ names', IsCaseBelow c t names' → sourceFile? c names' = some f → names' = names) ∧
      ∀ l names content, t.locate .look c.rootPath = .ok l → t.Descends l names →
        t.get? (l ++ names) = some (.file content) → HasCaseName c names →
        (Route.below c.rootPath names).length ≤ Route.maxLength →
        ∃ f ∈ files, sourceFile? c names = some f) ∧
    ∀ t' : FileTree, t'.nodes.Perm t.nodes → t'.cwd = t.cwd →
      sourceFiles c t' = sourceFiles c t := by
  obtain ⟨l, hopen⟩ := exists_of_isDirectory hroot
  obtain ⟨hlocate, hdir⟩ := FileTree.openDirectory_eq_ok_iff.mp hopen
  refine ⟨?_, ?_, ?_, fun t' hnodes hcwd => sourceFiles_perm_nodes ht hnodes hcwd hopen⟩
  · intro hwalk
    exact ⟨_, sourceFiles_eq_ok hlocate hdir
      ((walkFailure?_eq_none_iff_walkable ht hlocate).mpr hwalk)⟩
  · intro hwalk
    obtain ⟨names, hnames⟩ := sourceFiles_eq_error ht hopen hwalk
    exact ⟨l, names, hlocate, hnames⟩
  · intro files hfiles
    refine ⟨?_, ?_, ?_, ?_⟩
    · obtain ⟨found, -, rfl⟩ := sourceFiles_eq_ok_iff.mp hfiles
      exact ascending_pairwise _
    · intro names hnames hreach
      exact mem_sourceFiles_of_isFound ht hfiles htext ⟨hnames, hreach⟩
    · intro f hf
      obtain ⟨names, hnames, hsource⟩ := exists_isFound ht hfiles hf
      refine ⟨names, hnames.toIsCaseBelow, hnames.toInReach, hsource, ?_⟩
      intro names' hnames' hsource'
      exact hnames'.file.injective ht hnames.file (htext _ hnames')
        (htext _ hnames.toIsCaseBelow) hsource' hsource rfl
    · intro l' names content hl' hdescends hfile hnamed hlength
      exact mem_sourceFiles_of_isFound ht hfiles htext
        ⟨⟨isFileBelow_of_file ht hl' hdescends hfile, hnamed⟩,
          inReach_of_file ht hl' hdescends hfile hlength⟩

end Discovery

namespace Sample

/-- A suite whose root is a link. Below it stand a case, a directory with a link to a case and a
link to that directory. -/
def branched : FileTree where
  nodes := [
    (location ["suite"], .directory),
    (location ["suite", "shared.c"], file []),
    (location ["suite", "testcases"], .link ⟨"real".toList⟩),
    (location ["suite", "real"], .directory),
    (location ["suite", "real", "more"], .link ⟨"sub".toList⟩),
    (location ["suite", "real", "sub"], .directory),
    (location ["suite", "real", "sub", "CWE2.cpp"], .link ⟨"../../shared.c".toList⟩),
    (location ["suite", "real", "CWE1.c"], file [])]
  cwd := location ["suite"]

def branchedFiles : List SourceFile :=
  [⟨"testcases/CWE1.c".toList, "testcases".toList, .c⟩,
    ⟨"testcases/sub/CWE2.cpp".toList, "testcases/sub".toList, .cpp⟩]

theorem branched_wellFormed : branched.WellFormed := by decide

theorem branched_sourceFiles : Discovery.sourceFiles {} branched = .ok branchedFiles :=
  toOption_eq_some_iff.mp (by decide +kernel)

/-- What holds of every name in a tree holds of the names on the way to a file. -/
theorem all_of_keys {c : Config} {t : FileTree} {names : Location} {p : Name → Bool}
    (hkeys : (t.nodes.map Prod.fst).all (·.all p) = true) (h : Discovery.IsFileBelow c t names) :
    ∀ n ∈ names, p n = true := by
  intro n hn
  obtain ⟨l, -, hdescends, -⟩ := h
  have hkey := (FileTree.mem_keys_iff (by simp [hdescends.ne_nil])).mpr hdescends.taken
  exact List.all_eq_true.mp (List.all_eq_true.mp hkeys _ hkey) n (List.mem_append_right l hn)

theorem branched_text {c : Config} {names : Location} (h : Discovery.IsCaseBelow c branched names) :
    ∀ n ∈ names, n.text?.isSome = true :=
  all_of_keys (by decide) h.file

end Sample

namespace Discovery

theorem discovery_one_to_one_branched :
    Sample.branched.WellFormed ∧ Sample.branched.isDirectory (Config.rootPath {}) = true ∧
    (∀ names, IsCaseBelow {} Sample.branched names → ∀ n ∈ names, n.text?.isSome = true) ∧
    sourceFiles {} Sample.branched = .ok Sample.branchedFiles ∧
    (∀ f ∈ Sample.branchedFiles, ∃ names, IsCaseBelow {} Sample.branched names ∧
      InReach {} Sample.branched names ∧ sourceFile? {} names = some f ∧
      ∀ names', IsCaseBelow {} Sample.branched names' → sourceFile? {} names' = some f →
        names' = names) ∧
    ∀ t' : FileTree, t'.nodes.Perm Sample.branched.nodes → t'.cwd = Sample.branched.cwd →
      sourceFiles {} t' = .ok Sample.branchedFiles := by
  have hroot : Sample.branched.isDirectory (Config.rootPath {}) = true := by decide
  have hfiles := Sample.branched_sourceFiles
  obtain ⟨-, -, hlisted, horder⟩ :=
    discovery_one_to_one Sample.branched_wellFormed hroot fun _ => Sample.branched_text
  obtain ⟨-, -, hunique, -⟩ := hlisted _ hfiles
  exact ⟨Sample.branched_wellFormed, hroot, fun _ => Sample.branched_text, hfiles, hunique,
    fun t' hnodes hcwd => (horder t' hnodes hcwd).trans hfiles⟩

end Discovery

namespace Sample

/-- The default configuration with slashes after the root. -/
def slashed (n : Nat) : Config := { root := ⟨"testcases".toList ++ List.replicate n '/'⟩ }

theorem slashed_rootPath (n : Nat) :
    (slashed n).rootPath = ⟨"./testcases".toList ++ List.replicate n '/'⟩ := rfl

theorem slashed_components (n : Nat) :
    (slashed n).rootPath.components = (Config.rootPath {}).components := by
  rw [slashed_rootPath, Path.components_slashes (by decide)]
  rfl

theorem slashed_sourceFile? (n : Nat) (names : Location) :
    Discovery.sourceFile? (slashed n) names = Discovery.sourceFile? {} names := by
  rw [Discovery.sourceFile?, Discovery.sourceFile?, slashed_components]
  rfl

theorem slashed_locate {n : Nat} (hn : n ≤ 4084) {t : FileTree} {l : Location}
    (hroot : t.locate .look (Config.rootPath {}) = .ok l) (hdir : t.get? l = some .directory) :
    t.locate .look (slashed n).rootPath = .ok l := by
  have hplain : (slashed n).rootPath.plain = (Config.rootPath {}).plain := by
    rw [Path.plain, Path.plain, slashed_components]
  have hlength : (Route.ofPath ⟨"./testcases".toList⟩).length = 11 := by decide
  refine FileTree.locate_respell hplain (by decide) ?_ hroot hdir
  rw [slashed_rootPath, Route.fits, Route.length_slashes, hlength, decide_eq_true_eq, Route.maxLength]
  omega

theorem slashed_length (n : Nat) (names : Location) :
    (Route.below (slashed (n + 1)).rootPath names).length =
      (Route.below (Config.rootPath {}) names).length + n := by
  rw [slashed_rootPath, Route.length_below_slashes (by decide)]
  rfl

def cases : Location := location ["suite", "testcases"]

def shortCase : Location := location ["CWE1.c"]
def longCase : Location := location ["CWE12.c"]

/-- Two cases, one with a longer name. -/
def pair : FileTree where
  nodes := [
    (location ["suite"], .directory),
    (cases, .directory),
    (cases ++ shortCase, file []),
    (cases ++ longCase, file [])]
  cwd := location ["suite"]

/-- Two cases, one behind more links than a path may lead through. -/
def chained : FileTree where
  nodes := [
    (location ["suite"], .directory),
    (cases, .directory),
    (cases ++ shortCase, file []),
    (cases ++ longCase, .link ⟨"../links/".toList ++
      (List.replicate 40 "here/".toList).flatten ++ "last".toList⟩),
    (location ["suite", "links"], .directory),
    (location ["suite", "links", "here"], .link ⟨['.']⟩),
    (location ["suite", "links", "last"], file [])]
  cwd := location ["suite"]

def pairFiles : List SourceFile := [⟨"testcases/CWE1.c".toList, "testcases".toList, .c⟩]

theorem cases_descend {t : FileTree} (ht : t.WellFormed)
    (hnames : t.namesBelow cases = [[], shortCase, longCase]) :
    t.Descends cases shortCase ∧ t.Descends cases longCase :=
  ⟨ht.descends_iff.mpr ⟨by decide, by simp [hnames]⟩,
    ht.descends_iff.mpr ⟨by decide, by simp [hnames]⟩⟩

private theorem pair_evaluated : pair.WellFormed ∧
    (pair.locate .look (Config.rootPath {})).toOption = some cases ∧
    pair.get? cases = some .directory ∧
    pair.namesBelow cases = [[], shortCase, longCase] ∧ pair.directoriesBelow cases = [] ∧
    pair.get? (cases ++ shortCase) = some (file []) ∧
    pair.get? (cases ++ longCase) = some (file []) ∧
    (Route.below (Config.rootPath {}) shortCase).length = 18 ∧
    (Route.below (Config.rootPath {}) longCase).length = 19 ∧
    Discovery.isCaseFile (Config.casePrefix {}) shortCase = true ∧
    Discovery.sourceFile? {} shortCase = pairFiles.head? := by
  decide +kernel

private theorem chained_evaluated : chained.WellFormed ∧
    (chained.locate .look (Config.rootPath {})).toOption = some cases ∧
    chained.namesBelow cases = [[], shortCase, longCase] ∧
    chained.get? (cases ++ shortCase) = some (file []) ∧
    (chained.walk .look 41 cases (longCase.map .down)).toOption =
      some (location ["suite", "links", "last"]) ∧
    chained.get? (location ["suite", "links", "last"]) = some (file []) ∧
    (Discovery.sourceFiles {} chained).toOption = some pairFiles := by
  decide +kernel

theorem pair_wellFormed : pair.WellFormed := pair_evaluated.1

theorem pair_namesBelow : pair.namesBelow cases = [[], shortCase, longCase] :=
  pair_evaluated.2.2.2.1

theorem chained_wellFormed : chained.WellFormed := chained_evaluated.1

theorem chained_locate : chained.locate .look (Config.rootPath {}) = .ok cases :=
  toOption_eq_some_iff.mp chained_evaluated.2.1

theorem chained_namesBelow : chained.namesBelow cases = [[], shortCase, longCase] :=
  chained_evaluated.2.2.1

theorem chained_sourceFiles : Discovery.sourceFiles {} chained = .ok pairFiles :=
  toOption_eq_some_iff.mp chained_evaluated.2.2.2.2.2.2

theorem chained_isFileBelow :
    Discovery.IsFileBelow {} chained shortCase ∧ Discovery.IsFileBelow {} chained longCase := by
  obtain ⟨ht, -, hnames, hshort, hwalk, hlast, -⟩ := chained_evaluated
  obtain ⟨hdown, hdown'⟩ := cases_descend ht hnames
  exact ⟨Discovery.isFileBelow_of_file ht chained_locate hdown hshort, cases, chained_locate, hdown',
    41, _, _, FileTree.walk_eq_ok_iff.mp (toOption_eq_some_iff.mp hwalk), hlast⟩

theorem cases_named (n : Nat) : Discovery.HasCaseName (slashed n) shortCase ∧
    Discovery.HasCaseName (slashed n) longCase := by
  have hshort : CaseName.isCase (Config.casePrefix {}) "CWE1.c".toList = true := by decide
  have hlong : CaseName.isCase (Config.casePrefix {}) "CWE12.c".toList = true := by decide
  exact ⟨⟨[], _, rfl, hshort, fun lang => by cases lang <;> decide⟩,
    ⟨[], _, rfl, hlong, fun lang => by cases lang <;> decide⟩⟩

section Pair

variable {n : Nat} (hn : n ≤ 4084)

include hn

theorem pair_locate :
    pair.locate .look (slashed n).rootPath = .ok cases ∧ pair.get? cases = some .directory := by
  obtain ⟨-, hroot, hdir, -⟩ := pair_evaluated
  exact ⟨slashed_locate hn (toOption_eq_some_iff.mp hroot) hdir, hdir⟩

theorem pair_isDirectory : pair.isDirectory (slashed n).rootPath = true := by
  rw [FileTree.isDirectory, FileTree.openDirectory_eq_ok_iff.mpr (pair_locate hn)]
  rfl

theorem pair_isFileBelow :
    Discovery.IsFileBelow (slashed n) pair shortCase ∧
      Discovery.IsFileBelow (slashed n) pair longCase := by
  obtain ⟨ht, -, -, hnames, -, hshort, hlong, -⟩ := pair_evaluated
  obtain ⟨hroot, -⟩ := pair_locate hn
  obtain ⟨hdown, hdown'⟩ := cases_descend ht hnames
  exact ⟨Discovery.isFileBelow_of_file ht hroot hdown hshort,
    Discovery.isFileBelow_of_file ht hroot hdown' hlong⟩

end Pair

/-- With slashes enough, the path of the longer name alone is too long. -/
theorem pair_sourceFiles : Discovery.sourceFiles (slashed 4078) pair = .ok pairFiles := by
  obtain ⟨ht, -, -, hnames, hnone, hfile, -, hshort, hlong, hcase, hsource⟩ := pair_evaluated
  obtain ⟨hroot, hdir⟩ := pair_locate (n := 4078) (by omega)
  obtain ⟨hdown, hdown'⟩ := cases_descend ht hnames
  have hfirst : pair.isFile (.below (slashed 4078).rootPath shortCase) = true := by
    have hreach := Discovery.inReach_of_file ht hroot hdown hfile
      (by rw [slashed_length, hshort]; decide)
    have hbelow := (pair_isFileBelow (n := 4078) (by omega)).1
    exact Discovery.IsFound.regular ht ⟨⟨hbelow, (cases_named _).1⟩, hreach⟩
  have hsecond : pair.isFile (.below (slashed 4078).rootPath longCase) = false := by
    rw [← Bool.not_eq_true, hdown'.isFile_below_iff ht hroot, slashed_length, hlong]
    rintro ⟨hfits, -⟩
    exact absurd hfits (by decide)
  have hfound : Discovery.caseFiles pair (slashed 4078).casePrefix (slashed 4078).rootPath cases =
      [shortCase] := by
    have hcase' : Discovery.isCaseFile (slashed 4078).casePrefix shortCase = true := hcase
    rw [Discovery.caseFiles, hnames, List.filter_cons_of_neg, List.filter_cons_of_pos,
      List.filter_cons_of_neg]
    · rfl
    · simp [hsecond]
    · simp [hcase', hfirst]
    · simp [Discovery.isCaseFile]
  have hsame : Discovery.sourceFile? (slashed 4078) shortCase = pairFiles.head? := by
    rw [slashed_sourceFile?, hsource]
  have hwalk : Discovery.walkFailure? pair (slashed 4078).rootPath cases = none := by
    simp [Discovery.walkFailure?_eq_none_iff, hnone]
  rw [Discovery.sourceFiles_eq_ok hroot hdir hwalk, hfound, List.filterMap_cons_some hsame]
  rfl

theorem branched_locate {n : Nat} (hn : n ≤ 4084) :
    branched.locate .look (slashed n).rootPath = .ok (location ["suite", "real"]) :=
  slashed_locate hn (toOption_eq_some_iff.mp (by decide)) (by decide)

theorem branched_not_walkable : ¬ Discovery.Walkable (slashed 4082) branched := by
  intro h
  have hdescends : branched.Descends (location ["suite", "real"]) (location ["sub"]) :=
    branched_wellFormed.descends_iff.mpr (by decide)
  have hlength : (Route.below (Config.rootPath {}) (location ["sub"])).length = 15 := by decide
  have hfits := h _ _ (branched_locate (by omega)) hdescends (by decide)
  rw [slashed_length, hlength] at hfits
  exact absurd hfits (by decide)

theorem branched_isDirectory : branched.isDirectory (slashed 4082).rootPath = true := by
  rw [FileTree.isDirectory, FileTree.openDirectory_eq_ok_iff.mpr
    ⟨branched_locate (by omega), by decide⟩]
  rfl

theorem branched_fails :
    ¬ ∃ files, Discovery.sourceFiles (slashed 4082) branched = .ok files := by
  rintro ⟨files, hfiles⟩
  obtain ⟨l, hopen⟩ := Discovery.exists_of_isDirectory branched_isDirectory
  obtain ⟨names, -, -, -, herror⟩ :=
    Discovery.sourceFiles_eq_error branched_wellFormed hopen branched_not_walkable
  cases hfiles.symm.trans herror

end Sample

namespace Discovery

/-- Discovery does not find a file whose path is too long, nor one behind too many links, and it
fails where the path of a directory is too long. -/
theorem discovery_bounded :
    (Sample.pair.WellFormed ∧ Sample.pair.isDirectory (Sample.slashed 4078).rootPath = true ∧
      (∀ names, IsCaseBelow (Sample.slashed 4078) Sample.pair names →
        ∀ n ∈ names, n.text?.isSome = true) ∧
      IsCaseBelow (Sample.slashed 4078) Sample.pair Sample.longCase ∧
      sourceFiles (Sample.slashed 4078) Sample.pair = .ok Sample.pairFiles ∧
      ¬ ∃ f ∈ Sample.pairFiles,
        sourceFile? (Sample.slashed 4078) Sample.longCase = some f) ∧
    (Sample.chained.WellFormed ∧ Sample.chained.isDirectory (Config.rootPath {}) = true ∧
      (∀ names, IsCaseBelow {} Sample.chained names → ∀ n ∈ names, n.text?.isSome = true) ∧
      IsCaseBelow {} Sample.chained Sample.longCase ∧
      sourceFiles {} Sample.chained = .ok Sample.pairFiles ∧
      ¬ ∃ f ∈ Sample.pairFiles, sourceFile? {} Sample.longCase = some f) ∧
    Sample.branched.WellFormed ∧
      Sample.branched.isDirectory (Sample.slashed 4082).rootPath = true ∧
      (∀ names, IsCaseBelow (Sample.slashed 4082) Sample.branched names →
        ∀ n ∈ names, n.text?.isSome = true) ∧
      ¬ ∃ files, sourceFiles (Sample.slashed 4082) Sample.branched = .ok files := by
  refine ⟨⟨Sample.pair_wellFormed, Sample.pair_isDirectory (by omega), ?_,
      ⟨(Sample.pair_isFileBelow (by omega)).2, (Sample.cases_named _).2⟩,
      Sample.pair_sourceFiles, ?_⟩,
    ⟨Sample.chained_wellFormed, by decide, ?_,
      ⟨Sample.chained_isFileBelow.2, (Sample.cases_named 0).2⟩, Sample.chained_sourceFiles,
      by decide⟩,
    Sample.branched_wellFormed, Sample.branched_isDirectory, fun _ => Sample.branched_text,
    Sample.branched_fails⟩
  · exact fun _ h => Sample.all_of_keys (by decide) h.file
  · rw [Sample.slashed_sourceFile?]
    decide
  · exact fun _ h => Sample.all_of_keys (by decide) h.file

end Discovery

end SuiteMake

import SuiteMake.Proofs.Discovery.Readable

/-!
# What a draft depends on

The recipe depends on which files stand below the root, and on no content. The calls in the main
file depend, besides, on the content of the portable cases only. Both are statements about two
drafts of trees that differ in everything else.
-/

namespace SuiteMake

namespace Discovery

variable {c : Config} {t t' : FileTree} {names : Location}

theorem IsFound.mem_filesInReach (ht : t.WellFormed) (h : IsFound c t names) :
    names ∈ filesInReach c t := by
  obtain ⟨l, hroot, hdescends⟩ := h.descends
  exact (mem_filesInReach_iff hroot).mpr ⟨(ht.descends_iff.mp hdescends).2, h.regular ht⟩

theorem IsFound.transfer (ht : t.WellFormed) (ht' : t'.WellFormed)
    (h : IsFound c t names) {l' : Location} (hroot' : t'.locate .look c.rootPath = .ok l')
    (hbelow : ∀ names, names ∈ filesInReach c t ↔ names ∈ filesInReach c t') :
    IsFound c t' names := by
  obtain ⟨l, -, hdescends⟩ := h.descends
  obtain ⟨hmem, hfile⟩ := (mem_filesInReach_iff hroot').mp ((hbelow names).mp (h.mem_filesInReach ht))
  have hdescends' := ht'.descends_iff.mpr ⟨hdescends.ne_nil, hmem⟩
  exact (isFound_iff_isFile ht' hroot' hdescends').mpr ⟨hfile, h.named⟩

/-- A case file that is read in one tree is read in the other, and what is read is the same if its
content is. -/
theorem IsFound.readBytes_congr (ht : t.WellFormed) (ht' : t'.WellFormed)
    (h : IsFound c t names) (h' : IsFound c t' names)
    (htext : ∀ n ∈ names, n.text?.isSome = true) {f : SourceFile}
    (hf : sourceFile? c names = some f) {content : Bytes}
    (hread : t.readBytes (f.pathFrom c.baseDir) = .ok content)
    (hsame : t'.readRoute (.below c.rootPath names) = t.readRoute (.below c.rootPath names)) :
    t'.readBytes (f.pathFrom c.baseDir) = t.readBytes (f.pathFrom c.baseDir) := by
  obtain ⟨hpath, hlength⟩ := bounds_of_readBytes ht hread
  calc t'.readBytes (f.pathFrom c.baseDir)
      = t'.readRoute (.below c.rootPath names) := h'.readBytes ht' htext hf hpath hlength
    _ = t.readRoute (.below c.rootPath names) := hsame
    _ = t.readBytes (f.pathFrom c.baseDir) := (h.readBytes ht htext hf hpath hlength).symm

end Discovery

open Discovery

theorem Draft.mainText_congr {c : Config} {t t' : FileTree} {d d' : Draft}
    (hd : ofTree c t = .ok d) (hd' : ofTree c t' = .ok d')
    (hportable : d'.entries.portable = d.entries.portable)
    (hmain : t'.readBytes c.mainPath = t.readBytes c.mainPath) : d'.mainText = d.mainText := by
  obtain ⟨-, -, hedited, -⟩ := ofTree_eq_ok_iff.mp hd
  obtain ⟨-, -, hedited', -⟩ := ofTree_eq_ok_iff.mp hd'
  obtain ⟨text, htext, happly⟩ := FileTree.edited_eq_ok_iff.mp hedited
  obtain ⟨text', htext', happly'⟩ := FileTree.edited_eq_ok_iff.mp hedited'
  have hread : t'.readText c.mainPath = .ok text := by
    rw [FileTree.readText_eq_ok_iff, hmain]
    exact FileTree.readText_eq_ok_iff.mp htext
  have hedits : d'.entries.callEdits = d.entries.callEdits := by
    rw [EntryIndex.callEdits, EntryIndex.calls, hportable]
    rfl
  rw [hedits, Except.ok.inj (htext'.symm.trans hread), happly] at happly'
  exact (Except.ok.inj happly').symm

/-- Trees with the same files below the root have the same recipe, whatever the files hold. If,
besides, the main file and the portable cases have the same content, and the names on the way to
these are text, then the same entry points are called and the main file gets the same text,
whatever the variants and all other files hold. -/
theorem draft_ignores_variants {c : Config} {t t' : FileTree} {d d' : Draft} (ht : t.WellFormed)
    (ht' : t'.WellFormed) (hd : Draft.ofTree c t = .ok d) (hd' : Draft.ofTree c t' = .ok d')
    (hbelow : ∀ names, names ∈ filesInReach c t ↔ names ∈ filesInReach c t') :
    (d'.files = d.files ∧ d'.directories = d.directories ∧ d'.recipe = d.recipe) ∧
    ((∀ names f, IsFound c t names → sourceFile? c names = some f → c.isPortable f = true →
        (∀ n ∈ names, n.text?.isSome = true) ∧
        t'.readRoute (.below c.rootPath names) = t.readRoute (.below c.rootPath names)) →
      t'.readBytes c.mainPath = t.readBytes c.mainPath →
      d'.entries.portable = d.entries.portable ∧ d'.mainText = d.mainText) := by
  obtain ⟨hfiles, hentries, -, -, hdirectories, hrecipe⟩ := Draft.ofTree_eq_ok_iff.mp hd
  obtain ⟨hfiles', hentries', -, -, hdirectories', hrecipe'⟩ := Draft.ofTree_eq_ok_iff.mp hd'
  have hsame : d'.files = d.files := sourceFiles_congr hfiles hfiles' hbelow
  rw [hsame] at hentries' hdirectories' hrecipe'
  refine ⟨⟨hsame, hdirectories'.trans hdirectories.symm, hrecipe'.trans hrecipe.symm⟩, ?_⟩
  intro hcases hmain
  have hportable : d'.entries.portable = d.entries.portable := by
    apply EntryIndex.portable_congr _ hentries hentries'
    intro f hf hportable
    obtain ⟨names, hnames, hsource⟩ := exists_isFound ht hfiles hf
    obtain ⟨found, hfound, -⟩ := sourceFiles_eq_ok_iff.mp hfiles'
    obtain ⟨l', hroot', -, -⟩ := caseFilesIn_eq_ok_iff.mp hfound
    obtain ⟨htext, hcontent⟩ := hcases names f hnames hsource hportable
    obtain ⟨content, hread⟩ := EntryIndex.exists_ofFiles_eq_ok_iff.mp ⟨_, hentries⟩ f hf
    exact hnames.readBytes_congr ht ht' (hnames.transfer ht ht' hroot' hbelow) htext hsource hread
      hcontent
  exact ⟨hportable, Draft.mainText_congr hd hd' hportable hmain⟩

namespace Sample

/-- The suite with another content of its variant. -/
def revised : FileTree :=
  suite.put (location ["suite", "testcases", "CWE3_w32.c"]) (file "void CWE3_good()\n".toList)

/-- Whether a portable case is reached by text and not revised. -/
def keepsPortable (names : Location) : Bool :=
  (sourceFile? {} names).all fun f => !Config.isPortable {} f ||
    names.all (·.text?.isSome) &&
      (revised.readRoute (.below (Config.rootPath {}) names)).toOption =
        (suite.readRoute (.below (Config.rootPath {}) names)).toOption

private theorem revised_evaluated : revised.WellFormed ∧
    filesInReach {} revised = filesInReach {} suite ∧
    (filesInReach {} suite).all keepsPortable = true ∧
    (revised.readBytes (Config.mainPath {})).toOption =
      (suite.readBytes (Config.mainPath {})).toOption ∧
    (Draft.ofTree {} revised).isOk = true ∧
    (Draft.ofTree {} revised).toOption.map Draft.headerText ≠
      (Draft.ofTree {} suite).toOption.map Draft.headerText := by
  decide +kernel

theorem revised_portable {names : Location} {f : SourceFile} (h : IsFound {} suite names)
    (hf : sourceFile? {} names = some f) (hportable : Config.isPortable {} f = true) :
    (∀ n ∈ names, n.text?.isSome = true) ∧
      revised.readRoute (.below (Config.rootPath {}) names) =
        suite.readRoute (.below (Config.rootPath {}) names) := by
  obtain ⟨-, -, hall, -⟩ := revised_evaluated
  have hkeeps := List.all_eq_true.mp hall names (h.mem_filesInReach suite_wellFormed)
  simp only [keepsPortable, hf, hportable, Option.all_some, Bool.not_true, Bool.false_or,
    Bool.and_eq_true, decide_eq_true_eq, List.all_eq_true] at hkeeps
  obtain ⟨m, content, hm, hget⟩ := FileTree.isFile_iff.mp (h.regular suite_wellFormed)
  exact ⟨hkeeps.1, eq_of_toOption_eq hkeeps.2 (FileTree.readRoute_eq_ok_iff.mpr ⟨m, hm, hget⟩)⟩

end Sample

theorem draft_ignores_variants_revised : ∃ d d', Draft.ofTree {} Sample.suite = .ok d ∧
    Draft.ofTree {} Sample.revised = .ok d' ∧ d'.recipe = d.recipe ∧
    d'.entries.portable = d.entries.portable ∧ d'.mainText = d.mainText ∧
    d'.headerText ≠ d.headerText := by
  obtain ⟨d, hd, -⟩ := generate_eq_ok_iff.mp Sample.suite_generated
  obtain ⟨hwellFormed, hbelow, -, hmain, hok, hheader⟩ := Sample.revised_evaluated
  cases hd' : Draft.ofTree {} Sample.revised with
  | error failure =>
      rw [hd'] at hok
      cases hok
  | ok d' =>
      obtain ⟨⟨-, -, hrecipe⟩, hcalls⟩ := draft_ignores_variants Sample.suite_wellFormed
        hwellFormed hd hd' (fun names => by rw [hbelow])
      obtain ⟨-, -, hread, -⟩ := Draft.ofTree_eq_ok_iff.mp hd
      obtain ⟨text, htext, -⟩ := FileTree.edited_eq_ok_iff.mp hread
      have hsame := eq_of_toOption_eq hmain (FileTree.readText_eq_ok_iff.mp htext)
      obtain ⟨hportable, htexts⟩ := hcalls
        (fun names f h hf hportable => Sample.revised_portable h hf hportable) hsame
      refine ⟨d, d', hd, rfl, hrecipe, hportable, htexts, ?_⟩
      rw [hd, hd'] at hheader
      exact fun heq => hheader (congrArg some heq)

namespace Sample

/-- The suite with a misnamed directory. The name it is read by leads out of the root, to a file
that is no case. -/
def aliased (other : Text) : FileTree where
  nodes := misnamed.nodes ++ [
    (location ["suite", "testcases", "\uFFFD"], .link ⟨"../other".toList⟩),
    (location ["suite", "other"], .directory),
    (location ["suite", "other", "CWE1.c"], file other),
    (location ["suite", "testcasesupport"], .directory),
    (main, file (empty .functionCalls)),
    (header, file headerText)]
  cwd := misnamed.cwd

def aliasedGood : FileTree := aliased "void CWE1_good()\n".toList
def aliasedBad : FileTree := aliased "void CWE1_bad()\n".toList

end Sample

/-- The portable case below a directory whose name is not text is not what is read: another file
decides which entry points are called. -/
theorem draft_follows_alias : Sample.aliasedGood.WellFormed ∧ Sample.aliasedBad.WellFormed ∧
    (Draft.ofTree {} Sample.aliasedGood).isOk = true ∧
    (Draft.ofTree {} Sample.aliasedBad).isOk = true ∧
    filesInReach {} Sample.aliasedBad = filesInReach {} Sample.aliasedGood ∧
    (∀ names ∈ filesInReach {} Sample.aliasedGood,
      (Sample.aliasedBad.readRoute (.below (Config.rootPath {}) names)).toOption =
        (Sample.aliasedGood.readRoute (.below (Config.rootPath {}) names)).toOption) ∧
    (Sample.aliasedBad.readBytes (Config.mainPath {})).toOption =
      (Sample.aliasedGood.readBytes (Config.mainPath {})).toOption ∧
    (Draft.ofTree {} Sample.aliasedBad).toOption.map Draft.mainText ≠
      (Draft.ofTree {} Sample.aliasedGood).toOption.map Draft.mainText := by
  decide +kernel

end SuiteMake

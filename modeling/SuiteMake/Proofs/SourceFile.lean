import SuiteMake.Proofs.Discovery
import SuiteMake.Proofs.Path

/-!
# Source files of a suite

Seen from the base, a case file is its directory and its name. No two case files have the same
path there, so listing source files by path loses none.
-/

namespace SuiteMake

open Component

theorem FileTree.isStep_of_isEntryName {name : Text} (h : isEntryName (.text name) = true) :
    IsStep (.name (.text name)) := by
  have hslash : '/' ∉ name := slash_notMem_of_isEntryName h
  simp only [isEntryName, Bool.and_eq_true, decide_eq_true_eq] at h
  have hempty : name ≠ [] := fun heq => h.1.1.1.1.1 (by rw [heq])
  have hdot : name ≠ ['.'] := fun heq => h.1.1.1.1.2 (by rw [heq])
  have hdots : name ≠ ['.', '.'] := fun heq => h.1.1.1.2 (by rw [heq])
  exact isStep_of_ne hempty hdot hdots hslash

namespace SourceFile

variable {above : List Component} {name : Text}

theorem directoryOf_concat (above : List Component) (n : Name) :
    directoryOf (above ++ [.name n]) =
      if Component.canonical above = [] then ['.'] else Component.canonical above := by
  simp [directoryOf, parent?]

theorem afterLast_canonical (above : List Component) (hname : '/' ∉ name) :
    Text.afterLast '/' (Component.canonical (above ++ [.name (.text name)])) = name := by
  have hsegs : (above ++ [Component.name (.text name)]).filterMap segment? =
      above.filterMap segment? ++ [name] := by
    rw [List.filterMap_append]
    rfl
  rw [Component.canonical, hsegs]
  by_cases hnil : above.filterMap segment? = []
  · rw [hnil, List.nil_append, List.intercalate_singleton]
    split
    · exact Text.afterLast_append (u := []) hname
    · exact Text.afterLast_of_notMem hname
  · rw [Text.intercalate_concat hnil, ← List.append_assoc, List.singleton_append]
    exact Text.afterLast_append hname

theorem canonical_directory_name (habove : Standard above) (hname : IsStep (.name (.text name))) :
    (Path.mk (directoryOf (above ++ [.name (.text name)]) ++ '/' :: name)).canonical =
      Component.canonical (above ++ [.name (.text name)]) := by
  have hstandard : Standard (above ++ [.name (.text name)]) :=
    habove.append (by simpa using hname)
  have hfilter : (above ++ [Component.name (.text name)]).filter (· ≠ .here) =
      above.filter (· ≠ .here) ++ [.name (.text name)] := by
    rw [List.filter_append]
    rfl
  have habove' := Path.components_canonical habove
  rw [Path.canonical, directoryOf_concat]
  split
  · rename_i hnil
    -- nothing but dots stands above the file
    have hfree : above.filter (· ≠ .here) = [] := by
      rw [← habove', hnil]
      rfl
    rw [Path.components_append (by simp), hname.pieces, ← Path.canonical_filter hstandard, hfilter, hfree]
    rfl
  · rename_i hne
    rw [Path.components_append hne, hname.pieces, habove', ← hfilter, Path.canonical_filter hstandard]

theorem canonical_eq_directory_name (habove : Standard above) (name : Text) :
    Component.canonical (above ++ [.name (.text name)]) =
      if directoryOf (above ++ [.name (.text name)]) = ['.'] then name
      else if directoryOf (above ++ [.name (.text name)]) = ['/'] then '/' :: name
      else directoryOf (above ++ [.name (.text name)]) ++ '/' :: name := by
  rw [directoryOf_concat, Path.canonical_concat habove]
  by_cases hnil : Component.canonical above = []
  · rw [if_pos hnil, if_pos hnil, if_pos rfl]
  · rw [if_neg hnil, if_neg hnil, if_neg (Path.canonical_ne_dot habove)]

section Seen

variable {base file : List Component}

/-- The components of a file as they are seen from a base. -/
def seenFrom (base file : List Component) : List Component := (base.isPrefixOf? file).getD file

theorem seenFrom_cases (base file : List Component) :
    file = base ++ seenFrom base file ∨ ¬ base <+: file ∧ seenFrom base file = file := by
  cases hbase : base.isPrefixOf? file with
  | some rest =>
      left
      simp only [seenFrom, hbase, Option.getD_some]
      exact (List.append_eq_of_isPrefixOf?_eq_some hbase).symm
  | none =>
      right
      refine ⟨Text.isPrefixOf?_eq_none_iff.mp hbase, ?_⟩
      simp only [seenFrom, hbase, Option.getD_none]

theorem seenFrom_standard (base : List Component) (h : Standard file) :
    Standard (seenFrom base file) := by
  rcases seenFrom_cases base file with hin | hout
  · rw [hin] at h
    exact h.of_append
  · rwa [hout.2]

/-- Seen from a base that is spelled out, all that is left are steps. -/
theorem seenFrom_isStep (h : Standard file) (hinside : file = base ++ seenFrom base file)
    (hbase : base ≠ []) : ∀ x ∈ seenFrom base file, IsStep x := by
  intro x hx
  obtain ⟨b, bs, hb⟩ := List.exists_cons_of_ne_nil hbase
  have htail := h.tail
  rw [hinside, hb] at htail
  exact htail x (List.mem_append_right bs (hb ▸ hx))

theorem seenFrom_concat {x : Component} (h : seenFrom base (above ++ [x]) ≠ []) :
    ∃ before, seenFrom base (above ++ [x]) = before ++ [x] := by
  rcases seenFrom_cases base (above ++ [x]) with hin | hout
  · have hlast := List.dropLast_concat_getLast h
    rw [← hlast, ← List.append_assoc] at hin
    have hsame := (List.append_inj' hin rfl).2
    rw [← hsame] at hlast
    exact ⟨_, hlast.symm⟩
  · exact ⟨above, hout.2⟩

theorem exists_seenFrom_of_ne {x : Component} (hne : base ≠ above ++ [x]) :
    ∃ before, seenFrom base (above ++ [x]) = before ++ [x] := by
  apply seenFrom_concat
  intro hnil
  rcases seenFrom_cases base (above ++ [x]) with hin | hout
  · rw [hnil, List.append_nil] at hin
    exact hne hin.symm
  · rw [hnil] at hout
    simp at hout

/-- Apart from dots, a file that is looked up from the base has its own components again. -/
theorem components_join_seenFrom {base : Path} (hfile : Standard file)
    (hlead : base.components <+: file ∨ file.head? = some .root) :
    (base.join ⟨Component.canonical (seenFrom base.components file)⟩).components.filter
      (· ≠ .here) = file.filter (· ≠ .here) := by
  have hstandard := seenFrom_standard base.components hfile
  have hdots : (Path.components
      ⟨Component.canonical (seenFrom base.components file)⟩).filter (· ≠ .here) =
      (seenFrom base.components file).filter (· ≠ .here) := by
    rw [Path.components_canonical hstandard, List.filter_filter]
    simp
  rcases seenFrom_cases base.components file with hin | hout
  · by_cases hspelling : base.spelling = []
    · rw [Path.components_of_spelling_nil hspelling, List.nil_append] at hin
      rw [Path.join_of_spelling_nil hspelling, hdots, Path.components_of_spelling_nil hspelling,
        ← hin]
    · have hsteps := seenFrom_isStep hfile hin (Path.components_ne_nil hspelling)
      have habsolute : Path.isAbsolute
          ⟨Component.canonical (seenFrom base.components file)⟩ = false := by
        rw [Bool.eq_false_iff]
        intro habsolute
        obtain ⟨cs, hcs⟩ := Path.root_of_isAbsolute habsolute
        rw [Path.components_canonical hstandard] at hcs
        have hroot := (List.mem_filter.mp (hcs ▸ List.mem_cons_self)).1
        exact not_isStep_root (hsteps .root hroot)
      rw [Path.components_join_eq hspelling habsolute, Path.pieces_canonical hsteps, ← hin]
  · -- the file is written from the root on, and the base has no part in it
    have habsolute : Path.isAbsolute
        ⟨Component.canonical (seenFrom base.components file)⟩ = true := by
      rw [hout.2, Component.canonical, if_pos (hlead.resolve_left hout.1)]
      rfl
    rw [Path.join, if_pos habsolute, hdots, hout.2]

theorem parts_of_ofComponents? {f : SourceFile} (h : ofComponents? base file = some f) :
    (∃ ext, extension? file = some ext) ∧ f.path = Component.canonical (seenFrom base file) ∧
      f.directory = directoryOf (seenFrom base file) := by
  simp only [ofComponents?, Option.bind_eq_bind, Option.bind_eq_some_iff, Option.pure_def,
    Option.some.injEq] at h
  obtain ⟨ext, hext, language, -, hf⟩ := h
  rw [← hf]
  exact ⟨⟨ext, hext⟩, rfl, rfl⟩

theorem ofComponents?_of_stem {stem : Text} {l : Language}
    (hfile : file = above ++ [.name (.text (stem ++ '.' :: l.extension))]) (hstem : stem ≠ []) :
    ofComponents? base file = some ⟨Component.canonical (seenFrom base file),
      directoryOf (seenFrom base file), l⟩ := by
  have hdot : '.' ∉ l.extension := by cases l <;> decide
  obtain ⟨x, xs, rfl⟩ := List.exists_cons_of_ne_nil hstem
  have hext : extension? file = some l.extension := by
    simp only [hfile, extension?, List.getLast?_concat, Name.display, extensionOf?,
      Text.cutLast?_append hdot]
  rw [ofComponents?, hext]
  simp only [Option.bind_eq_bind, Option.bind_some, Language.ofExtension?_eq_some_iff.mpr rfl]
  rfl

theorem ofComponents?_of_extension (base above : List Component) (l : Language) :
    ofComponents? base (above ++ [.name (.text ('.' :: l.extension))]) = none := by
  have hdot : '.' ∉ l.extension := by cases l <;> decide
  have hcut : Text.cutLast? '.' ('.' :: l.extension) = some ([], l.extension) :=
    Text.cutLast?_append hdot []
  have hext : extension? (above ++ [.name (.text ('.' :: l.extension))]) = none := by
    simp only [extension?, List.getLast?_concat, Name.display, extensionOf?, hcut]
  rw [ofComponents?, hext]
  rfl

end Seen

end SourceFile

namespace Discovery

variable {c : Config}

def componentsOf (c : Config) (names : Location) : List Component :=
  c.rootPath.components ++ names.map .name

/-- The components of a location below the root, as they are seen from the base. -/
def relative (c : Config) (names : Location) : List Component :=
  (c.baseDir.components.isPrefixOf? (componentsOf c names)).getD (componentsOf c names)

theorem relative_cases (c : Config) (names : Location) :
    componentsOf c names = c.baseDir.components ++ relative c names ∨
      ¬ c.baseDir.components <+: componentsOf c names ∧ relative c names = componentsOf c names :=
  SourceFile.seenFrom_cases _ _

/-- What the base does not lead to lies below a root that is absolute. -/
theorem root_of_outside {names : Location}
    (h : ¬ c.baseDir.components <+: componentsOf c names) :
    ∃ cs, c.rootPath.components = .root :: cs := by
  rw [componentsOf, Config.rootPath] at h
  rw [Config.rootPath]
  cases habsolute : c.root.isAbsolute with
  | true =>
      rw [Path.join, if_pos habsolute]
      exact Path.root_of_isAbsolute habsolute
  | false => exact absurd ((Path.components_join habsolute).trans (List.prefix_append _ _)) h

section Steps

variable {names names' : Location} (hnames : ∀ n ∈ names, IsStep (.name n))
  (hnames' : ∀ n ∈ names', IsStep (.name n))

include hnames

theorem componentsOf_standard (c : Config) : Standard (componentsOf c names) := by
  apply (Path.components_standard c.rootPath).append
  intro x hx
  obtain ⟨n, hn, rfl⟩ := List.mem_map.mp hx
  exact hnames n hn

theorem relative_standard (c : Config) : Standard (relative c names) :=
  SourceFile.seenFrom_standard _ (componentsOf_standard hnames c)

theorem relative_isStep (hinside : componentsOf c names = c.baseDir.components ++ relative c names)
    (hbase : c.baseDir.components ≠ []) : ∀ x ∈ relative c names, IsStep x :=
  SourceFile.seenFrom_isStep (componentsOf_standard hnames c) hinside hbase

include hnames'

/-- A location that the base leads to and one that it does not lead to look different. -/
private theorem canonical_ne_of_outside
    (hinside : componentsOf c names = c.baseDir.components ++ relative c names)
    (hbase : ¬ c.baseDir.components <+: componentsOf c names')
    (hrelative : relative c names' = componentsOf c names') :
    Component.canonical (relative c names) ≠ Component.canonical (relative c names') := by
  intro heq
  obtain ⟨cs, hcs⟩ := root_of_outside hbase
  have hfilter := Path.filter_eq_of_canonical_eq (relative_standard hnames c)
    (relative_standard hnames' c) heq
  have hmem : Component.root ∈ relative c names := by
    have hmem' : Component.root ∈ (relative c names).filter (· ≠ .here) := by
      rw [hfilter, hrelative, componentsOf, hcs]
      exact List.mem_cons_self
    exact (List.mem_filter.mp hmem').1
  -- the root comes first or not at all, and the base comes before it
  have hspelled : c.baseDir.components ≠ [] := by
    intro hnil
    exact hbase (hnil ▸ List.nil_prefix)
  exact not_isStep_root (relative_isStep hnames hinside hspelled .root hmem)

/-- Different locations below the root are seen as different paths. -/
theorem relative_injective
    (h : Component.canonical (relative c names) = Component.canonical (relative c names')) :
    names = names' := by
  have hfilter := Path.filter_eq_of_canonical_eq (relative_standard hnames c)
    (relative_standard hnames' c) h
  have hfile : (componentsOf c names).filter (· ≠ .here) =
      (componentsOf c names').filter (· ≠ .here) := by
    -- both are seen from within the base or both from outside, as the two never look alike
    rcases relative_cases c names with hin | ⟨hbase, hout⟩
    · rcases relative_cases c names' with hin' | ⟨hbase', hout'⟩
      · rw [hin, hin', List.filter_append, List.filter_append, hfilter]
      · exact absurd h (canonical_ne_of_outside hnames hnames' hin hbase' hout')
    · rcases relative_cases c names' with hin' | ⟨hbase', hout'⟩
      · exact absurd h.symm (canonical_ne_of_outside hnames' hnames hin' hbase hout)
      · rw [← hout, ← hout', hfilter]
  have hsplit (names : Location) : (componentsOf c names).filter (· ≠ .here) =
      c.rootPath.components.filter (· ≠ .here) ++ names.map .name := by
    rw [componentsOf, List.filter_append]
    congr 1
    rw [List.filter_eq_self]
    intro x hx
    obtain ⟨n, -, rfl⟩ := List.mem_map.mp hx
    rfl
  rw [hsplit, hsplit] at hfile
  exact (List.map_inj_right fun _ _ => Component.name.inj).mp (List.append_cancel_left hfile)

end Steps

theorem componentsOf_concat (c : Config) (above : Location) (n : Name) :
    componentsOf c (above ++ [n]) = componentsOf c above ++ [.name n] := by
  simp [componentsOf]

theorem relative_concat {above : Location} {n : Name} (h : relative c (above ++ [n]) ≠ []) :
    ∃ before, relative c (above ++ [n]) = before ++ [.name n] := by
  rw [relative, componentsOf_concat] at h ⊢
  exact SourceFile.seenFrom_concat h

theorem sourceFile?_of_stem {names above : Location} {middle : Text} {l : Language}
    (hnames : names = above ++ [.text (c.casePrefix ++ (middle ++ '.' :: l.extension))])
    (hstem : c.casePrefix ++ middle ≠ []) :
    sourceFile? c names = some ⟨Component.canonical (relative c names),
      SourceFile.directoryOf (relative c names), l⟩ := by
  have hfile : componentsOf c names =
      componentsOf c above ++ [.name (.text (c.casePrefix ++ middle ++ '.' :: l.extension))] := by
    rw [hnames, componentsOf_concat, List.append_assoc]
  exact SourceFile.ofComponents?_of_stem hfile hstem

theorem sourceFile?_of_case (hne : c.casePrefix ≠ []) {names above : Location} {middle : Text}
    {l : Language}
    (hnames : names = above ++ [.text (c.casePrefix ++ (middle ++ '.' :: l.extension))]) :
    sourceFile? c names = some ⟨Component.canonical (relative c names),
      SourceFile.directoryOf (relative c names), l⟩ :=
  sourceFile?_of_stem hnames (by simp [hne])

theorem sourceFile?_of_extension {above : Location} (l : Language) :
    sourceFile? c (above ++ [.text ('.' :: l.extension)]) = none := by
  rw [sourceFile?, ← componentsOf, componentsOf_concat]
  exact SourceFile.ofComponents?_of_extension _ _ l

theorem path_of_sourceFile? {names : Location} {f : SourceFile} (h : sourceFile? c names = some f) :
    f.path = Component.canonical (relative c names) :=
  (SourceFile.parts_of_ofComponents? h).2.1

/-- The files below the root of a suite that can be looked up. Links to files count as files. -/
def filesInReach (c : Config) (t : FileTree) : List Location :=
  match t.locate .look c.rootPath with
  | .ok l => (t.namesBelow l).filter fun names => t.isFile (.below c.rootPath names)
  | .error _ => []

theorem mem_filesInReach_iff {t : FileTree} {l names : Location}
    (hroot : t.locate .look c.rootPath = .ok l) :
    names ∈ filesInReach c t ↔
      names ∈ t.namesBelow l ∧ t.isFile (.below c.rootPath names) = true := by
  rw [filesInReach, hroot]
  exact List.mem_filter

theorem sourceFiles_congr {t t' : FileTree} {files files' : List SourceFile}
    (h : sourceFiles c t = .ok files) (h' : sourceFiles c t' = .ok files')
    (hbelow : ∀ names, names ∈ filesInReach c t ↔ names ∈ filesInReach c t') : files' = files := by
  obtain ⟨found, hfound, rfl⟩ := sourceFiles_eq_ok_iff.mp h
  obtain ⟨found', hfound', rfl⟩ := sourceFiles_eq_ok_iff.mp h'
  obtain ⟨l, hroot, -, -, rfl⟩ := caseFilesIn_eq_ok_iff.mp hfound
  obtain ⟨l', hroot', -, -, rfl⟩ := caseFilesIn_eq_ok_iff.mp hfound'
  have hcases : caseFiles t' c.casePrefix c.rootPath l' =
      caseFiles t c.casePrefix c.rootPath l := by
    apply ascending_congr Location.bytes_injective
    intro names
    have hiff := hbelow names
    rw [mem_filesInReach_iff hroot, mem_filesInReach_iff hroot'] at hiff
    rw [List.mem_filter, List.mem_filter, Bool.and_eq_true, Bool.and_eq_true, and_left_comm, ← hiff,
      and_left_comm]
  rw [hcases]

/-- The source file at a location, if it is that of a test case. -/
def caseAt? (c : Config) (names : Location) : Option SourceFile :=
  if isCaseFile c.casePrefix names then sourceFile? c names else none

theorem path_of_caseAt? {names : Location} {f : SourceFile} (h : caseAt? c names = some f) :
    f.path = Component.canonical (relative c names) := by
  rw [caseAt?] at h
  split at h
  · exact path_of_sourceFile? h
  · cases h

theorem paths_nodup {found : List Location} (hfound : found.Nodup)
    (hsteps : ∀ names ∈ found, ∀ n ∈ names, IsStep (.name n)) :
    ((found.filterMap (caseAt? c)).map SourceFile.path).Nodup := by
  rw [List.Nodup, List.pairwise_map, List.pairwise_filterMap]
  apply hfound.imp_of_mem
  intro names names' hnames hnames' hne f hf f' hf' heq
  rw [path_of_caseAt? hf, path_of_caseAt? hf'] at heq
  exact hne (relative_injective (hsteps names hnames) (hsteps names' hnames') heq)

end Discovery
end SuiteMake

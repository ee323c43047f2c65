import SuiteMake.Proofs.SourceFile

/-!
# One way to split the name of a case file

The name of a case file is split in three places: by the pattern that finds it, by the filter that
looks for variants, and by its extension when it becomes a source file. All three find the same
middle part and the same extension, whatever dots the case prefix or the middle part hold.
-/

namespace SuiteMake

open Component

section Joined

variable {name : Text}

theorem Path.components_name (h : IsStep (.name (.text name))) :
    components ⟨name⟩ = [.name (.text name)] := by
  have hsteps : ∀ x ∈ [Component.name (.text name)], IsStep x := by
    simpa only [List.forall_mem_singleton] using h
  have hcanonical : Component.canonical [.name (.text name)] = name := by
    rw [canonical_of_steps hsteps]
    exact List.intercalate_singleton
  have hcomponents := components_canonical (standard_of_steps hsteps)
  rwa [hcanonical] at hcomponents

theorem Path.components_join_name (dir : Path) (h : IsStep (.name (.text name))) :
    (dir.join ⟨name⟩).components = dir.components ++ [.name (.text name)] := by
  by_cases hdir : dir.spelling = []
  · rw [join_of_spelling_nil hdir, components_of_spelling_nil hdir, components_name h,
      List.nil_append]
  · have hrelative : Path.isAbsolute ⟨name⟩ = false := by
      rw [Bool.eq_false_iff]
      intro habsolute
      obtain ⟨cs, hcs⟩ := root_of_isAbsolute habsolute
      rw [components_name h] at hcs
      cases hcs
    rw [components_join_eq hdir hrelative, h.pieces]

end Joined

namespace CaseName

/-- A name made of the case prefix, a middle part on one line, a dot and the extension of a
language. -/
structure Splits (casePrefix name middle ext : Text) (l : Language) : Prop where
  name_eq : name = casePrefix ++ (middle ++ '.' :: ext)
  one_line : '\n' ∉ middle
  language : Language.ofExtension? ext = some l

variable {casePrefix name middle ext : Text} {l : Language}

theorem isCase_iff_splits :
    isCase casePrefix name = true ↔ ∃ middle ext l, Splits casePrefix name middle ext l := by
  rw [isCase_iff]
  constructor
  · intro h
    obtain ⟨l, middle, hname, hline⟩ := h
    exact ⟨middle, l.extension, l, hname, hline, Language.ofExtension?_eq_some_iff.mpr rfl⟩
  · intro h
    obtain ⟨middle, ext, l, hname, hline, hlanguage⟩ := h
    rw [Language.ofExtension?_eq_some_iff.mp hlanguage] at hname
    exact ⟨l, middle, hname, hline⟩

namespace Splits

theorem name_eq_extension (h : Splits casePrefix name middle ext l) :
    name = casePrefix ++ (middle ++ '.' :: l.extension) := by
  rw [h.name_eq, Language.ofExtension?_eq_some_iff.mp h.language]

theorem core_eq (h : Splits casePrefix name middle ext l) : core casePrefix name = middle := by
  rw [h.name_eq_extension, core_case]

theorem unique {middle' ext' : Text} {l' : Language} (h : Splits casePrefix name middle ext l)
    (h' : Splits casePrefix name middle' ext' l') : middle' = middle ∧ ext' = ext := by
  have hlanguage : l = l' := language_unique (h.name_eq_extension.symm.trans h'.name_eq_extension)
  refine ⟨h'.core_eq.symm.trans h.core_eq, ?_⟩
  rw [Language.ofExtension?_eq_some_iff.mp h.language,
    Language.ofExtension?_eq_some_iff.mp h'.language, hlanguage]

/-- In every directory, and seen from every base but the file itself, the name gives a source file.
The names of the directory need not be text. -/
theorem exists_sourceFile (h : Splits casePrefix name middle ext l) (hslash : '/' ∉ name)
    (hname : ∀ l' : Language, name ≠ '.' :: l'.extension) {base above : List Component}
    (hbase : base ≠ above ++ [.name (.text name)]) :
    ∃ f, SourceFile.ofComponents? base (above ++ [.name (.text name)]) = some f ∧
      f.language = l ∧ f.name = name := by
  have hstem : casePrefix ++ middle ≠ [] := by
    intro hnil
    apply hname l
    rw [h.name_eq_extension, ← List.append_assoc, hnil, List.nil_append]
  have hfile : above ++ [.name (.text name)] =
      above ++ [.name (.text (casePrefix ++ middle ++ '.' :: l.extension))] := by
    rw [h.name_eq_extension, List.append_assoc]
  refine ⟨_, SourceFile.ofComponents?_of_stem hfile hstem, rfl, ?_⟩
  obtain ⟨before, hseen⟩ := SourceFile.exists_seenFrom_of_ne hbase
  rw [SourceFile.name, hseen]
  exact SourceFile.afterLast_canonical before hslash

theorem isStep (h : Splits casePrefix name middle ext l) (hslash : '/' ∉ name) :
    IsStep (.name (.text name)) := by
  have hcase : isCase casePrefix name = true := isCase_iff_splits.mpr ⟨middle, ext, l, h⟩
  obtain ⟨hempty, hdot, hdots⟩ := ne_dots_of_isCase hcase
  exact isStep_of_ne hempty hdot hdots hslash

end Splits

/-- The pattern that finds case files accepts a name exactly if it splits. It splits in one way
only, the middle part is the core in which variants are looked for, and unless the name is nothing
but an extension, it gives a source file of the language and the name in every directory. -/
theorem splitters_agree (casePrefix : Text) (hslash : '/' ∉ name) :
    (isCase casePrefix name = true ↔ ∃ middle ext l, Splits casePrefix name middle ext l) ∧
    ∀ middle ext l, Splits casePrefix name middle ext l →
      (∀ middle' ext' l', Splits casePrefix name middle' ext' l' →
        middle' = middle ∧ ext' = ext) ∧
      core casePrefix name = middle ∧
      ((∀ l' : Language, name ≠ '.' :: l'.extension) →
        (∀ base dir : Path, base.components ≠ (dir.join ⟨name⟩).components →
          ∃ f, SourceFile.ofPath? base (dir.join ⟨name⟩) = some f ∧
            f.language = l ∧ f.name = name) ∧
        ∀ base dir : List Component, base ≠ dir ++ [.name (.text name)] →
          ∃ f, SourceFile.ofComponents? base (dir ++ [.name (.text name)]) = some f ∧
            f.language = l ∧ f.name = name) := by
  refine ⟨isCase_iff_splits, ?_⟩
  intro middle ext l h
  refine ⟨fun _ _ _ h' => h.unique h', h.core_eq, ?_⟩
  intro hname
  refine ⟨?_, fun base dir hbase => h.exists_sourceFile hslash hname hbase⟩
  intro base dir hbase
  rw [SourceFile.ofPath?]
  rw [Path.components_join_name dir (h.isStep hslash)] at hbase ⊢
  exact h.exists_sourceFile hslash hname hbase

namespace Sample

/-- A case prefix that ends like a name with an extension. -/
def dottedPrefix : Text := "a.c".toList

/-- A name in which the dot of the extension is the fourth. -/
def dottedName : Text := "a.c..x.cpp".toList

def base : Path := ⟨"/s/./".toList⟩
def directory : Path := ⟨"/s//t/".toList⟩

end Sample

theorem splitters_agree_dotted :
    '/' ∉ Sample.dottedName ∧
    Splits Sample.dottedPrefix Sample.dottedName "..x".toList "cpp".toList .cpp ∧
    Sample.base.components ≠ (Sample.directory.join ⟨Sample.dottedName⟩).components ∧
    isCase Sample.dottedPrefix Sample.dottedName = true ∧
    core Sample.dottedPrefix Sample.dottedName = "..x".toList ∧
    ∃ f, SourceFile.ofPath? Sample.base (Sample.directory.join ⟨Sample.dottedName⟩) = some f ∧
      f.language = .cpp ∧ f.name = Sample.dottedName := by
  have hslash : '/' ∉ Sample.dottedName := by decide
  have hsplits : Splits Sample.dottedPrefix Sample.dottedName "..x".toList "cpp".toList .cpp :=
    ⟨by decide, by decide, by decide⟩
  have hbase : Sample.base.components ≠
      (Sample.directory.join ⟨Sample.dottedName⟩).components := by decide
  have hname : ∀ l' : Language, Sample.dottedName ≠ '.' :: l'.extension := by
    intro l'
    cases l' <;> decide
  have hagree := splitters_agree Sample.dottedPrefix hslash
  have hparts := hagree.2 _ _ _ hsplits
  exact ⟨hslash, hsplits, hbase, hagree.1.mpr ⟨_, _, _, hsplits⟩, hparts.2.1,
    (hparts.2.2 hname).1 Sample.base Sample.directory hbase⟩

end CaseName
end SuiteMake

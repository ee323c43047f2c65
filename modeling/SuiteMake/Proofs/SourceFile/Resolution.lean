import SuiteMake.Proofs.SourceFile

/-!
# Where a source file stands

A source file is kept by its path and its directory, as they are seen from a base. Taken from the
base, its path denotes the file it was made for, and its directory and its name make up its path.
-/

namespace SuiteMake.SourceFile

open Component

theorem exists_name_of_extension? {p : Path} {ext : Text}
    (h : extension? p.components = some ext) :
    ∃ above name, p.components = above ++ [.name (.text name)] ∧ IsStep (.name (.text name)) := by
  rw [extension?] at h
  split at h
  · rename_i n hlast
    obtain ⟨above, habove⟩ := List.getLast?_eq_some_iff.mp hlast
    have hmem : .name n ∈ p.components := by simp [habove]
    have hstep := p.components_standard.isStep hmem (by simp) (by simp)
    obtain ⟨name, hname⟩ := hstep.exists_text
    rw [hname] at habove hstep
    exact ⟨above, name, habove, hstep⟩
  · cases h

variable {base path : Path} {f : SourceFile}

theorem exists_seenFrom_concat {above : List Component} {x : Component}
    (hpath : path.components = above ++ [x]) (hne : base.components ≠ path.components) :
    ∃ before, seenFrom base.components path.components = before ++ [x] := by
  rw [hpath] at hne ⊢
  exact exists_seenFrom_of_ne hne

theorem canonical_pathFrom (hf : ofPath? base path = some f)
    (hlead : base.components <+: path.components ∨ path.isAbsolute = true) :
    (f.pathFrom base).canonical = path.canonical := by
  have hroot : base.components <+: path.components ∨ path.components.head? = some .root := by
    apply hlead.imp_right
    intro habsolute
    obtain ⟨cs, hcs⟩ := Path.root_of_isAbsolute habsolute
    rw [hcs]
    rfl
  have hjoin := components_join_seenFrom path.components_standard hroot
  rw [← (parts_of_ofComponents? hf).2.1] at hjoin
  rw [pathFrom, Path.canonical, Path.canonical, ← Path.canonical_filter (Path.components_standard _),
    hjoin, Path.canonical_filter path.components_standard]

/-- A source file of an absolute path, or of one that the base leads to, is found again from the
base, unless the base is that file. Its name is the last component of the path. Its path is made up
of its directory and its name, and its directory does not end with a slash, the root apart. -/
theorem ofPath?_resolves (hf : ofPath? base path = some f)
    (hne : base.components ≠ path.components)
    (hlead : path.isAbsolute = true ∨ base.components <+: path.components) :
    (f.pathFrom base).canonical = path.canonical ∧
    path.components.getLast? = some (.name (.text f.name)) ∧
    (f.path = if f.directory = ['.'] then f.name
      else if f.directory = ['/'] then '/' :: f.name
      else f.directory ++ '/' :: f.name) ∧
    (f.directory.getLast? = some '/' → f.directory = ['/']) := by
  obtain ⟨⟨ext, hext⟩, hpath, hdirectory⟩ := parts_of_ofComponents? hf
  obtain ⟨above, name, hcomponents, hname⟩ := exists_name_of_extension? hext
  obtain ⟨before, hseen⟩ := exists_seenFrom_concat hcomponents hne
  have hstandard := seenFrom_standard base.components path.components_standard
  rw [hseen] at hpath hdirectory hstandard
  have hf_name : f.name = name := by
    rw [SourceFile.name, hpath]
    exact afterLast_canonical before hname.slash_notMem
  refine ⟨canonical_pathFrom hf hlead.symm, ?_, ?_, ?_⟩
  · rw [hcomponents, hf_name, List.getLast?_concat]
  · rw [hpath, hdirectory, hf_name]
    exact canonical_eq_directory_name hstandard.left name
  · rw [hdirectory, directoryOf_concat]
    split
    · intro hslash
      cases hslash
    · exact Path.canonical_of_slash_last hstandard.left

namespace Sample

def dottedBase : Path := ⟨"/a/./b//".toList⟩

/-- A path that the base leads to, of a file above the base. -/
def climbing : Path := ⟨"//a/b/..//C.c/".toList⟩

def climbingFile : SourceFile := ⟨"../C.c".toList, "..".toList, .c⟩

end Sample

theorem ofPath?_resolves_climbing :
    ofPath? Sample.dottedBase Sample.climbing = some Sample.climbingFile ∧
    Sample.dottedBase.components ≠ Sample.climbing.components ∧
    Sample.climbing.isAbsolute = true ∧
    (Sample.climbingFile.pathFrom Sample.dottedBase).canonical = Sample.climbing.canonical ∧
    Sample.climbing.components.getLast? = some (.name (.text Sample.climbingFile.name)) ∧
    Sample.climbingFile.path =
      Sample.climbingFile.directory ++ '/' :: Sample.climbingFile.name := by
  have hf : ofPath? Sample.dottedBase Sample.climbing = some Sample.climbingFile := rfl
  have hne : Sample.dottedBase.components ≠ Sample.climbing.components := by decide
  have hresolves := ofPath?_resolves hf hne (Or.inl rfl)
  exact ⟨hf, hne, rfl, hresolves.1, hresolves.2.1, hresolves.2.2.1⟩

end SuiteMake.SourceFile

import SuiteMake.Proofs.Discovery.Complete
import SuiteMake.Proofs.EntryPoint

/-!
# Generated lines hold no marker

The case prefix is any text, and it stands in every generated line. But a source file is found by a
name that starts with the prefix, and no name holds a slash; the rest of a line is word characters
and fixed text without one. Every marker opens with a slash.
-/

namespace SuiteMake

namespace Discovery

variable {c : Config} {t : FileTree} {files : List SourceFile}

theorem exists_name_of_mem (ht : t.WellFormed) (h : sourceFiles c t = .ok files) {f : SourceFile}
    (hf : f ∈ files) :
    ∃ above name, IsFound c t (above ++ [.text name]) ∧
      sourceFile? c (above ++ [.text name]) = some f ∧ c.casePrefix <+: name ∧ '/' ∉ name := by
  obtain ⟨names, hcase, hsource⟩ := exists_isFound ht h hf
  obtain ⟨above, name, rfl, hname, -⟩ := hcase.named
  have hentry := hcase.file.isEntryName ht (List.mem_append_right above (List.mem_singleton_self _))
  obtain ⟨l, middle, hparts, -⟩ := CaseName.isCase_iff.mp hname
  exact ⟨above, name, hcase, hsource, ⟨_, hparts.symm⟩,
    FileTree.slash_notMem_of_isEntryName hentry⟩

/-- A case prefix with a slash finds nothing. -/
theorem slash_notMem_casePrefix (ht : t.WellFormed) (h : sourceFiles c t = .ok files)
    {f : SourceFile} (hf : f ∈ files) : '/' ∉ c.casePrefix := by
  obtain ⟨above, name, -, -, hstart, hslash⟩ := exists_name_of_mem ht h hf
  intro hmem
  exact hslash (hstart.subset hmem)

end Discovery

theorem Region.slash_mem_named (name : Text) :
    '/' ∈ (named name).start ∧ '/' ∈ (named name).stop := by
  have hstart : '/' ∈ "/* BEGIN-AUTOGENERATED-".toList := by decide
  have hstop : '/' ∈ "/* END-AUTOGENERATED-".toList := by decide
  exact ⟨List.mem_append_left _ (List.mem_append_left name hstart),
    List.mem_append_left _ (List.mem_append_left name hstop)⟩

namespace EntryIndex

variable {c : Config} {t : FileTree} {files : List SourceFile} {i : EntryIndex}

theorem slash_notMem_lines (ht : t.WellFormed) (hfiles : Discovery.sourceFiles c t = .ok files)
    (hindex : ofFiles c t files = .ok i) {e : EntryPoint} (he : e ∈ i.all) :
    '/' ∉ e.call ∧ '/' ∉ e.declaration := by
  obtain ⟨f, hf, -, -, hqualifies⟩ := exists_of_mem_ofFiles hindex he
  have hstart := Discovery.slash_notMem_casePrefix ht hfiles hf
  have hslash : '/' ∉ e.qualifier := hqualifies.lacks hstart (by decide)
  exact ⟨EntryPoint.slash_notMem_call hslash, EntryPoint.slash_notMem_declaration hslash⟩

theorem exists_entry_of_mem_edits (hindex : ofFiles c t files = .ok i) {edit : Edit}
    (hedit : edit ∈ i.callEdits ++ i.declarationEdits) {line : Text} (hline : line ∈ edit.lines) :
    ∃ e ∈ i.all, line = e.call ∨ line = e.declaration := by
  have hdeclared {l : Language} (h : line ∈ i.declarations l) :
      ∃ e ∈ i.all, line = e.call ∨ line = e.declaration := by
    obtain ⟨e, he, rfl⟩ := List.mem_map.mp h
    exact ⟨e, (List.mem_filter.mp he).1, Or.inr rfl⟩
  simp only [callEdits, declarationEdits, List.singleton_append, List.mem_cons, List.not_mem_nil,
    or_false] at hedit
  rcases hedit with rfl | rfl | rfl
  · obtain ⟨e, he, rfl⟩ := List.mem_map.mp hline
    rw [portable_eq_filter hindex] at he
    exact ⟨e, (List.mem_filter.mp he).1, Or.inl rfl⟩
  · exact hdeclared hline
  · exact hdeclared hline

/-- Whatever the case prefix, no generated line holds a slash, hence none a marker: source files
are found by names that start with the prefix, and a qualifier is the prefix and word characters. -/
theorem edits_hold_no_marker (ht : t.WellFormed)
    (hfiles : Discovery.sourceFiles c t = .ok files) (hindex : ofFiles c t files = .ok i) :
    (∀ f ∈ files, ∃ above name, Discovery.IsFound c t (above ++ [.text name]) ∧
      Discovery.sourceFile? c (above ++ [.text name]) = some f ∧
      c.casePrefix <+: name ∧ '/' ∉ name) ∧
    (∀ e ∈ i.all, Extract.Qualifies c.casePrefix e.qualifier) ∧
    ∀ edit ∈ i.callEdits ++ i.declarationEdits, ∀ line ∈ edit.lines, '/' ∉ line ∧
      ∀ name ∈ Region.names,
        ¬ (Region.named name).start <:+: line ∧ ¬ (Region.named name).stop <:+: line := by
  refine ⟨fun f hf => Discovery.exists_name_of_mem ht hfiles hf, ?_, ?_⟩
  · intro e he
    obtain ⟨f, -, -, -, hqualifies⟩ := exists_of_mem_ofFiles hindex he
    exact hqualifies
  · intro edit hedit line hline
    have hslash : '/' ∉ line := by
      obtain ⟨e, he, hcases⟩ := exists_entry_of_mem_edits hindex hedit hline
      have hlines := slash_notMem_lines ht hfiles hindex he
      rcases hcases with rfl | rfl
      · exact hlines.1
      · exact hlines.2
    refine ⟨hslash, ?_⟩
    intro name _
    have hmarkers := Region.slash_mem_named name
    exact ⟨fun h => hslash (h.subset hmarkers.1), fun h => hslash (h.subset hmarkers.2)⟩

theorem edits_hold_no_marker_suite :
    ∃ files i, Discovery.sourceFiles {} Sample.suite = .ok files ∧
      ofFiles {} Sample.suite files = .ok i ∧ i.all.length = 3 ∧ i.portable.length = 2 ∧
      ∀ edit ∈ i.callEdits ++ i.declarationEdits, ∀ line ∈ edit.lines, '/' ∉ line ∧
        ∀ name ∈ Region.names,
          ¬ (Region.named name).start <:+: line ∧ ¬ (Region.named name).stop <:+: line := by
  obtain ⟨d, hd, hsummary, -⟩ := generate_eq_ok_iff.mp Sample.suite_generated
  obtain ⟨hfiles, hindex, -⟩ := Draft.ofTree_eq_ok_iff.mp hd
  have hcounts := Summary.mk.inj hsummary
  exact ⟨d.files, d.entries, hfiles, hindex, hcounts.2.2.1, hcounts.2.2.2,
    (edits_hold_no_marker Sample.suite_wellFormed hfiles hindex).2.2⟩

end EntryIndex
end SuiteMake

import SuiteMake.Proofs.EntryPoint.Unmarked
import SuiteMake.Proofs.Region.Row

/-!
# What the drafted texts hold

The regions of the drafted texts hold the lines of the entry points and nothing else: no
generated line has a slash, so none holds a marker. Splicing the same lines again changes
nothing.
-/

namespace SuiteMake

namespace Region

private theorem spares_of_slash {markers lines : List Text} (hmarkers : ∀ m ∈ markers, '/' ∈ m)
    (hlines : ∀ line ∈ lines, '/' ∉ line) : Spares markers lines :=
  spares_of_notMem hmarkers hlines (by decide)

end Region

namespace Draft

variable {c : Config} {t : FileTree} {d : Draft}

theorem slash_notMem_calls (ht : t.WellFormed) (hd : ofTree c t = .ok d) :
    ∀ line ∈ d.entries.calls, '/' ∉ line := by
  intro line hline
  obtain ⟨hfiles, hentries, -⟩ := ofTree_eq_ok_iff.mp hd
  obtain ⟨e, he, rfl⟩ := List.mem_map.mp hline
  rw [EntryIndex.portable_eq_filter hentries] at he
  exact (EntryIndex.slash_notMem_lines ht hfiles hentries (List.mem_filter.mp he).1).1

theorem slash_notMem_declarations (ht : t.WellFormed) (hd : ofTree c t = .ok d) (l : Language) :
    ∀ line ∈ d.entries.declarations l, '/' ∉ line := by
  intro line hline
  obtain ⟨hfiles, hentries, -⟩ := ofTree_eq_ok_iff.mp hd
  obtain ⟨e, he, rfl⟩ := List.mem_map.mp hline
  exact (EntryIndex.slash_notMem_lines ht hfiles hentries (List.mem_filter.mp he).1).2

theorem main_shows (ht : t.WellFormed) (hd : ofTree c t = .ok d) :
    Region.functionCalls.Shows d.mainText d.entries.calls ∧
      Edit.applyAll d.entries.callEdits d.mainText = .ok d.mainText := by
  obtain ⟨-, -, hmain, -⟩ := ofTree_eq_ok_iff.mp hd
  obtain ⟨text, -, happly⟩ := FileTree.edited_eq_ok_iff.mp hmain
  obtain ⟨result, hsplice, hresult⟩ := Edit.applyAll_cons happly
  cases hresult
  have hspares : Region.Spares [Region.functionCalls.stop] d.entries.calls :=
    Region.spares_of_slash (by decide) (slash_notMem_calls ht hd)
  obtain ⟨hshows, hagain⟩ := Region.splice_shows Region.functionCalls_proper hspares hsplice
  refine ⟨hshows, ?_⟩
  rw [EntryIndex.callEdits, Edit.applyAll, hagain]
  rfl

theorem header_shows (ht : t.WellFormed) (hd : ofTree c t = .ok d) {header : Text}
    (hheader : t.readText c.headerPath = .ok header)
    (hapart : Region.cDeclarations.apart .cppDeclarations header = true) :
    Region.cDeclarations.Shows d.headerText (d.entries.declarations .c) ∧
      Region.cppDeclarations.Shows d.headerText (d.entries.declarations .cpp) ∧
      Edit.applyAll d.entries.declarationEdits d.headerText = .ok d.headerText := by
  obtain ⟨-, -, -, hedited, -⟩ := ofTree_eq_ok_iff.mp hd
  obtain ⟨text, htext, happly⟩ := FileTree.edited_eq_ok_iff.mp hedited
  cases hheader.symm.trans htext
  have hspares (l : Language) :
      Region.Spares (Region.markers .cDeclarations .cppDeclarations) (d.entries.declarations l) :=
    Region.spares_of_slash (by decide) (slash_notMem_declarations ht hd l)
  exact Region.applyAll_apart Region.cDeclarations_proper Region.cppDeclarations_proper hapart
    (hspares .c) (hspares .cpp) happly

/-- An entry point is portable exactly if a portable source file defines it. -/
theorem portable_eq (hd : ofTree c t = .ok d) :
    d.entries.portable = d.entries.all.filter fun e =>
      d.files.any fun f => f.path = e.source && c.isPortable f := by
  obtain ⟨-, hentries, -⟩ := ofTree_eq_ok_iff.mp hd
  rw [EntryIndex.portable_eq_filter hentries]
  apply List.filter_congr
  intro e he
  obtain ⟨f, hf, hsource, hportable, -⟩ := EntryIndex.exists_of_mem_ofFiles hentries he
  rw [Bool.eq_iff_iff, List.any_eq_true]
  constructor
  · intro hp
    exact ⟨f, hf, by simp [hsource, ← hportable, hp]⟩
  · rintro ⟨g, -, hg⟩
    simp only [Bool.and_eq_true, decide_eq_true_eq] at hg
    exact (EntryIndex.portable_of_source hentries he hg.1.symm).trans hg.2

end Draft

namespace EntryPoint

theorem declaration_of_c {e : EntryPoint} (h : e.language = .c) :
    e.declaration = "void ".toList ++ e.qualifier ++ '_' :: e.kind.text ++ "();".toList := by
  unfold declaration
  rw [h]

theorem declaration_of_cpp {e : EntryPoint} (h : e.language = .cpp) :
    e.declaration = "namespace ".toList ++ e.qualifier ++ " \x7b void ".toList ++ e.kind.text ++
      "(); \x7d".toList := by
  unfold declaration
  rw [h]

theorem map_declaration {l : Language} {text : EntryPoint → Text}
    (h : ∀ {e : EntryPoint}, e.language = l → e.declaration = text e) (es : List EntryPoint) :
    (es.filter (·.language = l)).map declaration = (es.filter (·.language = l)).map text := by
  apply List.map_congr_left
  intro e he
  exact h (by simpa using (List.mem_filter.mp he).2)

end EntryPoint

namespace EntryIndex

theorem declarations_order {c : Config} {t : FileTree} {files : List SourceFile} {i : EntryIndex}
    (h : ofFiles c t files = .ok i) (l : Language) :
    ((i.portable.filter (·.language = l)).map EntryPoint.declaration).Sublist
      (i.declarations l) := by
  apply List.Sublist.map
  rw [portable_eq_filter h]
  exact List.filter_sublist.filter _

theorem declaration_mem {c : Config} {t : FileTree} {files : List SourceFile} {i : EntryIndex}
    (h : ofFiles c t files = .ok i) {e : EntryPoint} (he : e ∈ i.portable) :
    e.declaration ∈ i.declarations e.language := by
  apply (declarations_order h e.language).subset
  exact List.mem_map_of_mem (List.mem_filter.mpr ⟨he, by simp⟩)

theorem length_declarations (i : EntryIndex) :
    (i.declarations .c).length + (i.declarations .cpp).length = i.all.length := by
  simp only [declarations, List.length_map]
  induction i.all with
  | nil => rfl
  | cons e es ih =>
      cases h : e.language <;> simp [h] <;> omega

theorem call_declared {c : Config} {t : FileTree} {files : List SourceFile} {i : EntryIndex}
    (h : ofFiles c t files = .ok i) {line : Text} (hline : line ∈ i.calls) :
    ∃ (q : Text) (k : Text), k ∈ ["good".toList, "bad".toList] ∧
      (line = q ++ '_' :: k ++ "();".toList ∧
          "void ".toList ++ q ++ '_' :: k ++ "();".toList ∈ i.declarations .c ∨
        line = q ++ "::".toList ++ k ++ "();".toList ∧
          "namespace ".toList ++ q ++ " \x7b void ".toList ++ k ++ "(); \x7d".toList ∈
            i.declarations .cpp) := by
  obtain ⟨e, he, rfl⟩ := List.mem_map.mp hline
  have hdeclared := declaration_mem h he
  have hkind : e.kind.text ∈ ["good".toList, "bad".toList] := by cases e.kind <;> decide
  refine ⟨e.qualifier, e.kind.text, hkind, ?_⟩
  unfold EntryPoint.call
  cases hlanguage : e.language with
  | c =>
      rw [hlanguage, EntryPoint.declaration_of_c hlanguage] at hdeclared
      exact Or.inl ⟨rfl, hdeclared⟩
  | cpp =>
      rw [hlanguage, EntryPoint.declaration_of_cpp hlanguage] at hdeclared
      exact Or.inr ⟨rfl, hdeclared⟩

end EntryIndex

/-- The region of the main file holds a call for each portable entry point, and those of the header
hold a declaration for each entry point of their language. What is called is declared, language by
language and in the same order. -/
theorem draft_texts_agree {c : Config} {t : FileTree} {d : Draft} {header : Text}
    (ht : t.WellFormed) (hd : Draft.ofTree c t = .ok d)
    (hheader : t.readText c.headerPath = .ok header)
    (hapart : Region.cDeclarations.apart .cppDeclarations header = true) :
    ∃ calls cLines cppLines : List Text,
      Region.functionCalls.Shows d.mainText calls ∧
      Region.cDeclarations.Shows d.headerText cLines ∧
      Region.cppDeclarations.Shows d.headerText cppLines ∧
      (calls = d.entries.portable.map fun e =>
        match e.language with
        | .c => e.qualifier ++ '_' :: e.kind.text ++ "();".toList
        | .cpp => e.qualifier ++ "::".toList ++ e.kind.text ++ "();".toList) ∧
      (cLines = (d.entries.all.filter (·.language = .c)).map fun e =>
        "void ".toList ++ e.qualifier ++ '_' :: e.kind.text ++ "();".toList) ∧
      (cppLines = (d.entries.all.filter (·.language = .cpp)).map fun e =>
        "namespace ".toList ++ e.qualifier ++ " \x7b void ".toList ++ e.kind.text ++
          "(); \x7d".toList) ∧
      (d.entries.portable = d.entries.all.filter fun e =>
        d.files.any fun f => f.path = e.source && c.isPortable f) ∧
      (∀ line ∈ calls, ∃ (q : Text) (k : Text), k ∈ ["good".toList, "bad".toList] ∧
        (line = q ++ '_' :: k ++ "();".toList ∧
            "void ".toList ++ q ++ '_' :: k ++ "();".toList ∈ cLines ∨
          line = q ++ "::".toList ++ k ++ "();".toList ∧
            "namespace ".toList ++ q ++ " \x7b void ".toList ++ k ++ "(); \x7d".toList ∈
              cppLines)) ∧
      (((d.entries.portable.filter (·.language = .c)).map fun e =>
        "void ".toList ++ e.qualifier ++ '_' :: e.kind.text ++ "();".toList).Sublist cLines) ∧
      (((d.entries.portable.filter (·.language = .cpp)).map fun e =>
        "namespace ".toList ++ e.qualifier ++ " \x7b void ".toList ++ e.kind.text ++
          "(); \x7d".toList).Sublist cppLines) ∧
      cLines.length + cppLines.length = d.entries.all.length := by
  obtain ⟨-, hentries, -⟩ := Draft.ofTree_eq_ok_iff.mp hd
  obtain ⟨hc, hcpp, -⟩ := Draft.header_shows ht hd hheader hapart
  refine ⟨d.entries.calls, d.entries.declarations .c, d.entries.declarations .cpp,
    (Draft.main_shows ht hd).1, hc, hcpp, rfl, EntryPoint.map_declaration EntryPoint.declaration_of_c _,
    EntryPoint.map_declaration EntryPoint.declaration_of_cpp _, Draft.portable_eq hd,
    fun _ hline => EntryIndex.call_declared hentries hline, ?_, ?_, d.entries.length_declarations⟩
  · rw [← EntryPoint.map_declaration EntryPoint.declaration_of_c]
    exact EntryIndex.declarations_order hentries .c
  · rw [← EntryPoint.map_declaration EntryPoint.declaration_of_cpp]
    exact EntryIndex.declarations_order hentries .cpp

theorem suite_header : Sample.suite.readText (Config.headerPath {}) =
    .ok Sample.headerText := by
  apply FileTree.readText_eq_ok_iff.mpr
  apply FileTree.readRoute_eq_ok_iff.mpr
  exact ⟨Sample.header, toOption_eq_some_iff.mp (by decide), rfl⟩

theorem suite_header_apart :
    Region.cDeclarations.apart .cppDeclarations Sample.headerText = true := by
  decide +kernel

private theorem suite_lines : (Draft.ofTree {} Sample.suite).toOption.map (fun d =>
      (d.entries.calls, d.entries.declarations .c, d.entries.declarations .cpp)) =
    some (["CWE1_good();".toList, "CWE2::bad();".toList],
      ["void CWE1_good();".toList, "void CWE3_bad();".toList],
      ["namespace CWE2 \x7b void bad(); \x7d".toList]) := by
  decide +kernel

theorem draft_texts_agree_suite : ∃ d, Draft.ofTree {} Sample.suite = .ok d ∧
    d.summary = ⟨3, 1, 3, 2⟩ ∧
    Region.functionCalls.Shows d.mainText ["CWE1_good();".toList, "CWE2::bad();".toList] ∧
    Region.cDeclarations.Shows d.headerText
      ["void CWE1_good();".toList, "void CWE3_bad();".toList] ∧
    Region.cppDeclarations.Shows d.headerText
      ["namespace CWE2 \x7b void bad(); \x7d".toList] := by
  obtain ⟨d, hd, hs, -⟩ := generate_eq_ok_iff.mp Sample.suite_generated
  obtain ⟨calls, cLines, cppLines, hmain, hc, hcpp, hcalls, hcLines, hcppLines, -⟩ :=
    draft_texts_agree Sample.suite_wellFormed hd suite_header suite_header_apart
  have hlines := suite_lines
  rw [hd] at hlines
  obtain ⟨hcalled, hdeclared⟩ := Prod.mk.inj (Option.some.inj hlines)
  obtain ⟨hdeclaredC, hdeclaredCpp⟩ := Prod.mk.inj hdeclared
  rw [← EntryPoint.map_declaration EntryPoint.declaration_of_c] at hcLines
  rw [← EntryPoint.map_declaration EntryPoint.declaration_of_cpp] at hcppLines
  refine ⟨d, hd, hs, ?_, ?_, ?_⟩
  · exact (hcalls.trans hcalled) ▸ hmain
  · exact (hcLines.trans hdeclaredC) ▸ hc
  · exact (hcppLines.trans hdeclaredCpp) ▸ hcpp

end SuiteMake

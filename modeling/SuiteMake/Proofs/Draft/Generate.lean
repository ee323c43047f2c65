import SuiteMake.Draft
import SuiteMake.Proofs.Except
import SuiteMake.Proofs.FileTree.Write

/-!
# What generating writes

A generation that succeeds has drafted everything and then written the three texts of its
draft. Where their paths denote three different files, each file holds its text in the end.
-/

namespace SuiteMake

theorem FileTree.edited_eq_ok_iff {t : FileTree} {p : Path} {edits : List Edit} {result : Text} :
    t.edited p edits = .ok result ↔
      ∃ text, t.readText p = .ok text ∧ Edit.applyAll edits text = .ok result := by
  rw [edited]
  cases t.readText p with
  | error cause => simp
  | ok text =>
      simp only [Except.ok.injEq, exists_eq_left']
      cases Edit.applyAll edits text <;> simp

theorem FileTree.exists_located_of_edited {t : FileTree} {p : Path} {edits : List Edit}
    {result : Text} (h : t.edited p edits = .ok result) :
    ∃ l content, t.Located p l ∧ t.get? l = some (.file content) := by
  obtain ⟨text, hread, -⟩ := edited_eq_ok_iff.mp h
  obtain ⟨l, hl, hget⟩ := Located.of_read (readText_eq_ok_iff.mp hread)
  exact ⟨l, _, hl, hget⟩

theorem FileTree.lacks_eq_false_iff {t : FileTree} {o : Path × Text} :
    t.lacks o = false ↔ t.readText o.1 = .ok o.2 := by
  rw [lacks]
  cases t.readText o.1 <;> simp

namespace Draft

theorem ofTree_eq_ok_iff {c : Config} {t : FileTree} {d : Draft} :
    ofTree c t = .ok d ↔ Discovery.sourceFiles c t = .ok d.files ∧
      EntryIndex.ofFiles c t d.files = .ok d.entries ∧
      t.edited c.mainPath d.entries.callEdits = .ok d.mainText ∧
      t.edited c.headerPath d.entries.declarationEdits = .ok d.headerText ∧
      d.directories = directoriesOf d.files ∧ d.recipe = recipeFor c d.files := by
  rw [ofTree]
  simp only [bind_eq_ok_iff]
  constructor
  · rintro ⟨files, hfiles, entries, hentries, mainText, hmain, headerText, hheader, hd⟩
    cases hd
    exact ⟨hfiles, hentries, hmain, hheader, rfl, rfl⟩
  · rintro ⟨hfiles, hentries, hmain, hheader, hdirectories, hrecipe⟩
    refine ⟨d.files, hfiles, d.entries, hentries, d.mainText, hmain, d.headerText, hheader, ?_⟩
    rw [← hdirectories, ← hrecipe]
    rfl

end Draft

theorem generate_eq_ok_iff {c : Config} {t t' : FileTree} {s : Summary} :
    generate c t = (.ok s, t') ↔ ∃ d, Draft.ofTree c t = .ok d ∧ d.summary = s ∧
      t.writeAll (d.outputs c) = (.ok (), t') := by
  rw [generate]
  cases Draft.ofTree c t with
  | error failure => simp
  | ok d =>
      simp only [Except.ok.injEq, exists_eq_left']
      obtain ⟨answer, t₁⟩ := t.writeAll (d.outputs c)
      cases answer <;> simp

theorem outdated_eq_ok_iff {c : Config} {t : FileTree} {paths : List Path} :
    outdated c t = .ok paths ↔ ∃ d, Draft.ofTree c t = .ok d ∧
      ((d.outputs c).filter t.lacks).map Prod.fst = paths := by
  rw [outdated, bind_eq_ok_iff]
  simp [pure, Except.pure]

/-- The files that are written stand, or will stand, at three different locations. -/
structure Config.Targets (c : Config) (t : FileTree) (main header recipe : Location) : Prop where
  main_at : t.locate .create c.mainPath = .ok main
  header_at : t.locate .create c.headerPath = .ok header
  recipe_at : t.locate .create c.outputPath = .ok recipe
  distinct : [main, header, recipe].Nodup

namespace Config.Targets

variable {c : Config} {t t' : FileTree} {main header recipe : Location} {d : Draft}

private theorem located_of_edited {p : Path} {l : Location} {edits : List Edit} {text : Text}
    (hp : t.locate .create p = .ok l) (h : t.edited p edits = .ok text) : t.Located p l := by
  obtain ⟨k, content, hk, -⟩ := FileTree.exists_located_of_edited h
  cases hp.symm.trans hk.denotes
  exact hk

theorem located (h : c.Targets t main header recipe) (ht : t.WellFormed)
    (hd : Draft.ofTree c t = .ok d) (hw : t.writeAll (d.outputs c) = (.ok (), t')) :
    t.Located c.mainPath main ∧ t.Located c.headerPath header ∧
      t.Located c.outputPath recipe := by
  obtain ⟨-, -, hmain, hheader, -, -⟩ := Draft.ofTree_eq_ok_iff.mp hd
  have hm := located_of_edited h.main_at hmain
  have hh := located_of_edited h.header_at hheader
  refine ⟨hm, hh, ht.located h.recipe_at ?_⟩
  -- the recipe is written to a tree in which both other files are put, and every directory stays
  obtain ⟨t₁, h₁, hw⟩ := FileTree.writeAll_cons hw
  obtain ⟨t₂, h₂, hw⟩ := FileTree.writeAll_cons hw
  obtain ⟨t₃, h₃, -⟩ := FileTree.writeAll_cons hw
  have hr₁ : t.Rewritten [main, header] t₁ := by
    cases h₁.symm.trans (hm.write d.mainText)
    exact .put .refl hm.writable (by simp)
  have hr₂ : t.Rewritten [main, header] t₂ := by
    cases h₂.symm.trans ((hr₁.located hh).write d.headerText)
    exact .put hr₁ hh.writable (by simp)
  obtain ⟨l, hl, hget, -⟩ := FileTree.writeText_eq_ok_iff.mp h₃
  cases hl.symm.trans (hr₂.locateRoute h.recipe_at)
  intro hdir
  exact hget (hr₂.get?_directory hdir)

/-- A generation that succeeds puts each text of its draft where it belongs, and nothing else. -/
theorem written (h : c.Targets t main header recipe) (ht : t.WellFormed)
    (hd : Draft.ofTree c t = .ok d) (hw : t.writeAll (d.outputs c) = (.ok (), t')) :
    t.Rewritten [main, header, recipe] t' ∧ ∀ o ∈ d.outputs c, t'.readText o.1 = .ok o.2 := by
  obtain ⟨hm, hh, hr⟩ := h.located ht hd hw
  let plan : List (Location × Path × Text) := [(main, c.mainPath, d.mainText),
    (header, c.headerPath, d.headerText), (recipe, c.outputPath, d.recipe)]
  have hplan : ∀ e ∈ plan, t.Located e.2.1 e.1 ∧ e.1 ∈ [main, header, recipe] := by
    simp [plan, hm, hh, hr]
  obtain ⟨t₁, hw₁, hrewritten, htexts, -⟩ :=
    FileTree.writeAll_located .refl plan hplan h.distinct
  cases hw.symm.trans hw₁
  refine ⟨hrewritten, ?_⟩
  intro o ho
  obtain ⟨e, he, rfl⟩ := List.mem_map.mp (show o ∈ plan.map Prod.snd from ho)
  exact FileTree.readText_eq_ok_iff.mpr
    ((hrewritten.located (hplan e he).1).read.mpr (htexts e he))

end Config.Targets

namespace Sample

def location (names : List String) : Location := names.map fun name => .text name.toList

def file (text : Text) : Node := .file (Utf8.encode text)

def empty (r : Region) : Text := r.start ++ '\n' :: r.stop ++ ['\n']

def main : Location := location ["suite", "testcasesupport", "main_linux.cpp"]
def header : Location := location ["suite", "testcasesupport", "testcases.h"]
def recipe : Location := location ["suite", "Makefile_all"]

/-- A header whose regions are empty, the one for C++ first. -/
def headerText : Text := empty .cppDeclarations ++ empty .cDeclarations

/-- A suite with a case of each language and a variant, seen with the default configuration. Its
main file is indented and uses carriage returns. -/
def suite : FileTree where
  nodes := [
    (location ["suite"], .directory),
    (location ["suite", "testcases"], .directory),
    (location ["suite", "testcases", "CWE1.c"], file "void CWE1_good()\n\x7b\n".toList),
    (location ["suite", "testcases", "CWE2.cpp"], file "namespace CWE2\nvoid bad(void)\n".toList),
    (location ["suite", "testcases", "CWE3_w32.c"], file "void CWE3_bad()\n".toList),
    (location ["suite", "testcasesupport"], .directory),
    (main, file ('\t' :: Region.functionCalls.start ++ "\r\nold();\n".toList ++
      Region.functionCalls.stop ++ ['\n'])),
    (header, file headerText)]
  cwd := location ["suite"]

private theorem suite_evaluated : suite.WellFormed ∧
    Config.Targets {} suite main header recipe ∧
    (generate {} suite).1.toOption = some ⟨3, 1, 3, 2⟩ := by
  refine ⟨by decide +kernel, ?_, by decide +kernel⟩
  exact {
    main_at := toOption_eq_some_iff.mp (by decide +kernel)
    header_at := toOption_eq_some_iff.mp (by decide +kernel)
    recipe_at := toOption_eq_some_iff.mp (by decide +kernel)
    distinct := by decide }

theorem suite_wellFormed : suite.WellFormed := suite_evaluated.1

theorem suite_targets : Config.Targets {} suite main header recipe := suite_evaluated.2.1

theorem suite_generated : generate {} suite = (.ok ⟨3, 1, 3, 2⟩, (generate {} suite).2) :=
  eq_ok_of_toOption suite_evaluated.2.2

end Sample
end SuiteMake

import SuiteMake.Proofs.Draft.Generate

/-!
# What a failing generation leaves behind

Everything that can fail without a trace fails in the draft. The main file and the header were
read for the draft, so both can be written; a generation that gets that far can fail at the
recipe only, and then both hold their new texts.
-/

namespace SuiteMake

namespace Draft

variable {c : Config} {t : FileTree} {d : Draft}

/-- The main file and the header of a draft at their locations, and the trees in which the first
and both of them are written. -/
structure Supports (d : Draft) (c : Config) (t : FileTree) (main header : Location)
    (t₁ t₂ : FileTree) : Prop where
  main_located : t.Located c.mainPath main
  header_located : t.Located c.headerPath header
  main_written : t.writeText c.mainPath d.mainText = .ok t₁
  header_written : t₁.writeText c.headerPath d.headerText = .ok t₂

theorem exists_supports (hd : ofTree c t = .ok d) :
    ∃ main header t₁ t₂, d.Supports c t main header t₁ t₂ ∧
      ∀ p l, t₂.locate .create p = .ok l ↔ t.locate .create p = .ok l := by
  obtain ⟨-, -, hmain, hheader, -, -⟩ := ofTree_eq_ok_iff.mp hd
  obtain ⟨main, old, hm, hmget⟩ := FileTree.exists_located_of_edited hmain
  obtain ⟨header, old', hh, hhget⟩ := FileTree.exists_located_of_edited hheader
  have hput : t.Rewritten [main] (t.put main (.file (Utf8.encode d.mainText))) :=
    .put .refl hm.writable (by simp)
  refine ⟨main, header, _, _, ⟨hm, hh, hm.write _, (hput.located hh).write _⟩, ?_⟩
  -- where each of the two is put, a file stood before
  obtain ⟨old'', hget⟩ := hput.get?_file hhget
  intro p l
  exact (FileTree.locateRoute_put_file hget).trans (FileTree.locateRoute_put_file hmget)

namespace Supports

variable {main header : Location} {t₁ t₂ : FileTree}

theorem eq_put (h : d.Supports c t main header t₁ t₂) :
    t₁ = t.put main (.file (Utf8.encode d.mainText)) ∧
      t₂ = t₁.put header (.file (Utf8.encode d.headerText)) := by
  have h₁ : t₁ = t.put main (.file (Utf8.encode d.mainText)) :=
    Except.ok.inj (h.main_written.symm.trans (h.main_located.write _))
  have hput : t.Rewritten [main] t₁ := h₁ ▸ .put .refl h.main_located.writable (by simp)
  exact ⟨h₁, Except.ok.inj
    (h.header_written.symm.trans ((hput.located h.header_located).write _))⟩

theorem rewritten (h : d.Supports c t main header t₁ t₂) : t.Rewritten [main, header] t₂ := by
  obtain ⟨rfl, rfl⟩ := h.eq_put
  exact .put (.put .refl h.main_located.writable (by simp)) h.header_located.writable (by simp)

theorem agreesOutside (h : d.Supports c t main header t₁ t₂) :
    t.AgreesOutside t₂ [main, header] := by
  obtain ⟨rfl, rfl⟩ := h.eq_put
  exact ((FileTree.AgreesOutside.refl t _).put (by simp) _).put (by simp) _

theorem read_header (h : d.Supports c t main header t₁ t₂) :
    t₂.readText c.headerPath = .ok d.headerText := by
  apply FileTree.readText_eq_ok_iff.mpr
  apply (h.rewritten.located h.header_located).read.mpr
  rw [h.eq_put.2, FileTree.get?_put_self _ _ _ h.header_located.writable.ne_nil]

theorem read_main (h : d.Supports c t main header t₁ t₂) (hne : main ≠ header) :
    t₂.readText c.mainPath = .ok d.mainText := by
  apply FileTree.readText_eq_ok_iff.mpr
  apply (h.rewritten.located h.main_located).read.mpr
  rw [h.eq_put.2, FileTree.get?_put_of_ne _ _ hne, h.eq_put.1,
    FileTree.get?_put_self _ _ _ h.main_located.writable.ne_nil]

/-- After the main file and the header, all that is left is to write the recipe. -/
theorem generate_eq (h : d.Supports c t main header t₁ t₂) (hd : ofTree c t = .ok d) :
    generate c t = match t₂.writeText c.outputPath d.recipe with
      | .ok t₃ => (.ok d.summary, t₃)
      | .error failure => (.error failure, t₂) := by
  simp only [generate, hd, outputs, FileTree.writeAll, h.main_written, h.header_written]
  cases t₂.writeText c.outputPath d.recipe <;> rfl

end Supports
end Draft

/-- A draft that fails is reported, and nothing changes. A draft that succeeds is written to the
main file and to the header. If its generation fails nevertheless, it is the recipe that could not
be written: the main file and the header hold their texts, and all else is as before. If it
succeeds, nothing changes but these two and the recipe. -/
theorem generate_leaves_known_state (c : Config) (t : FileTree) :
    (∀ failure, Draft.ofTree c t = .error failure → generate c t = (.error failure, t)) ∧
    ∀ d, Draft.ofTree c t = .ok d → ∃ main header t₁ t₂, d.Supports c t main header t₁ t₂ ∧
      (∀ failure t', generate c t = (.error failure, t') →
        (∃ cause, failure = .file c.outputPath cause) ∧
        (main ≠ header → t'.readText c.mainPath = .ok d.mainText) ∧
        t'.readText c.headerPath = .ok d.headerText ∧ t.AgreesOutside t' [main, header]) ∧
      ∀ s t', generate c t = (.ok s, t') → ∃ recipe, t.locate .create c.outputPath = .ok recipe ∧
        t.AgreesOutside t' [main, header, recipe] := by
  constructor
  · intro failure h
    rw [generate, h]
  intro d hd
  obtain ⟨main, header, t₁, t₂, hsupports, hlocate⟩ := Draft.exists_supports hd
  refine ⟨main, header, t₁, t₂, hsupports, ?_, ?_⟩
  · intro failure t' hrun
    rw [hsupports.generate_eq hd] at hrun
    split at hrun
    · cases hrun
    · rename_i failure' hwrite
      cases hrun
      exact ⟨FileTree.writeText_eq_error hwrite, hsupports.read_main, hsupports.read_header,
        hsupports.agreesOutside⟩
  · intro s t' hrun
    rw [hsupports.generate_eq hd] at hrun
    split at hrun
    · rename_i t₃ hwrite
      cases hrun
      obtain ⟨recipe, hrecipe, -, rfl⟩ := FileTree.writeText_eq_ok_iff.mp hwrite
      refine ⟨recipe, (hlocate _ _).mp hrecipe, ?_⟩
      exact (hsupports.agreesOutside.mono (by simp)).put (by simp) _
    · cases hrun

namespace Sample

/-- The recipe is to go to a directory that is not there. -/
def unplaced : Config where
  output := ⟨"missing/Makefile_all".toList⟩

def rootless : Config where
  root := ⟨"missing".toList⟩

end Sample

theorem generate_leaves_known_state_suite :
    (Draft.ofTree Sample.rootless Sample.suite = .error (.rootNotFound Sample.rootless.rootPath) ∧
      generate Sample.rootless Sample.suite =
        (.error (.rootNotFound Sample.rootless.rootPath), Sample.suite)) ∧
    (∃ d cause t', Draft.ofTree Sample.unplaced Sample.suite = .ok d ∧
      generate Sample.unplaced Sample.suite =
        (.error (.file Sample.unplaced.outputPath cause), t') ∧
      t'.readText Sample.unplaced.mainPath = .ok d.mainText ∧
      t'.readText Sample.unplaced.headerPath = .ok d.headerText ∧
      Sample.suite.AgreesOutside t' [Sample.main, Sample.header]) ∧
    Sample.suite.AgreesOutside (generate {} Sample.suite).2
      [Sample.main, Sample.header, Sample.recipe] := by
  have hrootless : Draft.ofTree Sample.rootless Sample.suite =
      .error (.rootNotFound Sample.rootless.rootPath) := rfl
  have hunplaced : (Sample.suite.locate .create Sample.unplaced.outputPath).toOption = none := by
    decide
  obtain ⟨d, hd, -⟩ := generate_eq_ok_iff.mp Sample.suite_generated
  refine ⟨⟨hrootless, (generate_leaves_known_state _ _).1 _ hrootless⟩, ?_, ?_⟩
  · -- where the recipe goes has no part in the draft
    have hdraft : Draft.ofTree Sample.unplaced Sample.suite = .ok d := hd
    obtain ⟨main, header, t₁, t₂, hsupports, hfails, hsucceeds⟩ :=
      (generate_leaves_known_state _ _).2 d hdraft
    obtain rfl : main = Sample.main :=
      Except.ok.inj (hsupports.main_located.denotes.symm.trans Sample.suite_targets.main_at)
    obtain rfl : header = Sample.header :=
      Except.ok.inj (hsupports.header_located.denotes.symm.trans Sample.suite_targets.header_at)
    cases hrun : generate Sample.unplaced Sample.suite with
    | mk answer t' =>
        cases answer with
        | ok s =>
            obtain ⟨recipe, hrecipe, -⟩ := hsucceeds s t' hrun
            rw [hrecipe] at hunplaced
            cases hunplaced
        | error failure =>
            obtain ⟨⟨cause, rfl⟩, hmain, hheader, hothers⟩ := hfails failure t' hrun
            exact ⟨d, cause, t', hdraft, rfl, hmain (by decide), hheader, hothers⟩
  · obtain ⟨main, header, t₁, t₂, hsupports, -, hsucceeds⟩ :=
      (generate_leaves_known_state _ _).2 d hd
    obtain rfl : main = Sample.main :=
      Except.ok.inj (hsupports.main_located.denotes.symm.trans Sample.suite_targets.main_at)
    obtain rfl : header = Sample.header :=
      Except.ok.inj (hsupports.header_located.denotes.symm.trans Sample.suite_targets.header_at)
    obtain ⟨recipe, hrecipe, hothers⟩ := hsucceeds _ _ Sample.suite_generated
    obtain rfl : recipe = Sample.recipe :=
      Except.ok.inj (hrecipe.symm.trans Sample.suite_targets.recipe_at)
    exact hothers

end SuiteMake

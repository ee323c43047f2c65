import SuiteMake.Proofs.Ascending
import SuiteMake.Proofs.Recipe.Sources

/-!
# Directories of a recipe

A recipe names each directory once in the sources of each language and once in the command that
cleans up. The order and the repetitions of the given directories leave no trace in it.
-/

namespace SuiteMake.Recipe

open Text

/-- The lines of an assignment. The first opens with the variable, and a line goes on to the next
one exactly if it is not the last. -/
structure IsAssignment (name : Text) (block : List Text) : Prop where
  opens : ∃ first more, block = (name ++ '=' :: first) :: more
  continues : ∀ line ∈ block.dropLast, [' ', '\\'] <:+ line
  ends : ∀ line ∈ block.getLast?, line.getLast? ≠ some '\\'

theorem isAssignment_continued (name : Text) {items : List Text}
    (hitems : ∀ item ∈ items, IsCall item) : IsAssignment name (continued (name ++ ['=']) items) where
  opens := by
    obtain ⟨first, more, -, hlines⟩ := continued_eq (name ++ ['=']) items
    exact ⟨first, more, by rw [hlines, List.append_assoc, List.singleton_append]⟩
  continues := suffix_of_mem_dropLast_continued _ items
  ends := getLast?_of_mem_getLast?_continued (by simp) hitems

section Lines

variable {c : Config} {dirs : List Text}

theorem exists_lines_assignment (htexts : ∀ text ∈ c.recipeTexts, '\n' ∉ text)
    (h : ∀ dir ∈ dirs, Unbroken c dir) (l : Language) :
    ∃ above block below, Text.lines (recipe c dirs) = above ++ (block ++ below) ∧
      (∀ line ∈ above, ¬ l.sourcesVariable ++ ['='] <+: line) ∧
      IsAssignment l.sourcesVariable block ∧ block.length = max 1 dirs.length := by
  obtain ⟨before, after, hstatements, hbefore⟩ := exists_statements htexts h l
  have hitems := isCall_of_mem_selections (l := l) h
  have hname : '\n' ∉ l.sourcesVariable ++ ['='] := by cases l <;> decide
  refine ⟨before.flatMap Statement.lines,
    continued (l.sourcesVariable ++ ['=']) (selections c l dirs), Text.lines (render after), ?_, ?_,
    isAssignment_continued _ hitems, ?_⟩
  · rw [recipe_eq_of_statements hstatements,
      lines_render fun s hs line hline => (hbefore s hs line hline).1, Statement.render_eq,
      Statement.lines, lines_flatMap (newline_notMem_continued hname hitems)]
  · intro line hline
    obtain ⟨s, hs, hmem⟩ := List.mem_flatMap.mp hline
    exact (hbefore s hs line hmem).2
  · rw [length_continued, selections, List.length_map]

theorem newline_notMem_cleanCommand (h : ∀ dir ∈ dirs, '\n' ∉ dir) :
    '\n' ∉ '\t' :: cleanCommand dirs := by
  have hcommand : '\n' ∉ "rm -rf *.o $(TARGET)".toList := by decide
  have hdirs : '\n' ∉ dirs.flatMap fun dir => ' ' :: dir ++ "/*.o".toList := by
    intro hmem
    obtain ⟨dir, hdir, hmem⟩ := List.mem_flatMap.mp hmem
    simp [h dir hdir] at hmem
  change '\n' ∉ '\t' :: ("rm -rf *.o $(TARGET)".toList ++ _)
  rw [List.mem_cons, List.mem_append, not_or, not_or]
  exact ⟨by decide, hcommand, hdirs⟩

theorem exists_lines_clean (c : Config) (h : ∀ dir ∈ dirs, '\n' ∉ dir) :
    ∃ above, Text.lines (recipe c dirs) = above ++ ['\t' :: cleanCommand dirs, []] := by
  let before := preamble c ++ Language.all.flatMap (sources c dirs) ++ linking c ++
    Language.all.flatMap compiling ++ compilingSupport ++ [.blank]
  have hrecipe : recipe c dirs = (render before ++ "clean:".toList) ++
      '\n' :: (('\t' :: cleanCommand dirs) ++ ['\n']) := by
    have hstatements : statements c dirs =
        before ++ [.line "clean:".toList, .line ('\t' :: cleanCommand dirs)] := by
      simp only [statements, cleaning, before, List.append_assoc, List.singleton_append]
    rw [recipe, hstatements, render, render, List.flatMap_append, List.flatMap_cons,
      List.flatMap_singleton, Statement.render, Statement.render]
    simp only [List.append_assoc, List.singleton_append]
  refine ⟨Text.lines (render before ++ "clean:".toList), ?_⟩
  rw [hrecipe, Text.lines, List.splitOn_append_cons_self,
    List.splitOn_append_cons_self_of_not_mem (newline_notMem_cleanCommand h)]
  rfl

end Lines

theorem mem_distinctDirectories {dir : Text} {dirs : List Text} :
    dir ∈ distinctDirectories dirs ↔ dir ∈ dirs :=
  mem_ascending_iff id

theorem distinctDirectories_congr {dirs dirs' : List Text} (h : ∀ dir, dir ∈ dirs' ↔ dir ∈ dirs) :
    distinctDirectories dirs' = distinctDirectories dirs :=
  ascending_congr id h

/-- The sources of each language are one expression for each of the distinct directories, in
ascending order, and so are the places that are cleaned up. Nothing else of the given directories
shows in a recipe. -/
theorem recipe_covers_directories {c : Config}
    (htexts : ∀ text ∈ c.casePrefix :: c.recipeTexts, '\n' ∉ text) {dirs : List Text}
    (hdirs : ∀ dir ∈ dirs, '\n' ∉ dir) :
    (distinctDirectories dirs).Pairwise (· < ·) ∧
    (∀ dir, dir ∈ distinctDirectories dirs ↔ dir ∈ dirs) ∧
    (∀ l : Language,
      assignedTo l.sourcesVariable (recipe c (distinctDirectories dirs)) =
        (distinctDirectories dirs).map (selection c l.extension) ∧
      ∃ above block below,
        Text.lines (recipe c (distinctDirectories dirs)) = above ++ (block ++ below) ∧
        (∀ line ∈ above, ¬ l.sourcesVariable ++ ['='] <+: line) ∧
        IsAssignment l.sourcesVariable block ∧
        block.length = max 1 (distinctDirectories dirs).length) ∧
    (∃ above, Text.lines (recipe c (distinctDirectories dirs)) = above ++
      ['\t' :: ("rm -rf *.o $(TARGET)".toList ++
        (distinctDirectories dirs).flatMap fun dir => ' ' :: dir ++ "/*.o".toList), []]) ∧
    ∀ dirs', (∀ dir, dir ∈ dirs' ↔ dir ∈ dirs) →
      recipe c (distinctDirectories dirs') = recipe c (distinctDirectories dirs) := by
  have hcase : '\n' ∉ c.casePrefix := htexts _ List.mem_cons_self
  have hrest : ∀ text ∈ c.recipeTexts, '\n' ∉ text := fun text h =>
    htexts text (List.mem_cons_of_mem _ h)
  have hdistinct : ∀ dir ∈ distinctDirectories dirs, '\n' ∉ dir := fun dir h =>
    hdirs dir (mem_distinctDirectories.mp h)
  have hunbroken : ∀ dir ∈ distinctDirectories dirs, Unbroken c dir := fun dir h =>
    ⟨hcase, hdistinct dir h⟩
  refine ⟨ascending_pairwise dirs, fun dir => mem_distinctDirectories, ?_,
    exists_lines_clean c hdistinct, ?_⟩
  · intro l
    exact ⟨assignedTo_recipe hrest hunbroken l, exists_lines_assignment hrest hunbroken l⟩
  · intro dirs' h
    rw [distinctDirectories_congr h]

end SuiteMake.Recipe

namespace SuiteMake.Sample

/-- A case prefix that closes the call it is pasted into. -/
def closingConfig : Config where
  casePrefix := "C)".toList

def scatteredDirectories : List Text := ["b".toList, "a $(".toList, "b".toList]

end SuiteMake.Sample

theorem SuiteMake.Recipe.recipe_covers_scattered :
    (∀ text ∈ Sample.closingConfig.casePrefix :: Sample.closingConfig.recipeTexts, '\n' ∉ text) ∧
    (∀ dir ∈ Sample.scatteredDirectories, '\n' ∉ dir) ∧
    distinctDirectories Sample.scatteredDirectories = ["a $(".toList, "b".toList] ∧
    assignedTo Language.cpp.sourcesVariable
        (recipe Sample.closingConfig (distinctDirectories Sample.scatteredDirectories)) =
      ["a $(".toList, "b".toList].map (selection Sample.closingConfig Language.cpp.extension) ∧
    recipe Sample.closingConfig (distinctDirectories ["b".toList, "a $(".toList]) =
      recipe Sample.closingConfig (distinctDirectories Sample.scatteredDirectories) := by
  have htexts : ∀ text ∈ Sample.closingConfig.casePrefix :: Sample.closingConfig.recipeTexts,
      '\n' ∉ text := by decide
  have hdirs : ∀ dir ∈ Sample.scatteredDirectories, '\n' ∉ dir := by decide
  have hdistinct : distinctDirectories Sample.scatteredDirectories =
      ["a $(".toList, "b".toList] := by decide
  have hsame : ∀ dir, dir ∈ ["b".toList, "a $(".toList] ↔ dir ∈ Sample.scatteredDirectories := by
    intro dir
    simp only [Sample.scatteredDirectories, List.mem_cons, List.not_mem_nil, or_false]
    rw [or_left_comm, or_self]
    exact or_comm
  have hcovers := recipe_covers_directories htexts hdirs
  refine ⟨htexts, hdirs, hdistinct, ?_, hcovers.2.2.2.2 _ hsame⟩
  rw [(hcovers.2.2.1 .cpp).1, hdistinct]

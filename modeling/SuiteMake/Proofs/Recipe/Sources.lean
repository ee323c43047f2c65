import SuiteMake.Proofs.Path
import SuiteMake.Proofs.Recipe.Glob
import SuiteMake.Proofs.Recipe.Lines
import SuiteMake.Recipe.Basic

/-!
# Source variables of a recipe

A recipe assigns to the sources variable of each language one expression per directory. None of
the lines before that assignment opens with the variable, whatever the tools and the support
files are called.
-/

namespace SuiteMake

open Text

/-- The configured texts that the recipe holds as they are. -/
def Config.recipeTexts (c : Config) : List Text :=
  [c.tools.cc, c.tools.cpp, c.tools.debug, c.tools.cflags, c.tools.lflags, c.tools.target,
    c.supportDir.spelling, c.mainFile] ++ c.tools.cSupportSources

namespace Recipe

section Newlines

theorem newline_notMem_objectFileOf {source : Text} (h : '\n' ∉ source) :
    '\n' ∉ objectFileOf source := by
  have hafter : ∀ x ∈ afterLast '/' source, x ∈ source := by
    intro x hx
    rw [afterLast] at hx
    split at hx
    · rename_i before after hcut
      rw [(eq_of_cutLast? hcut).1]
      exact List.mem_append_right _ (List.mem_cons_of_mem _ hx)
    · exact hx
  have hbefore : ∀ x ∈ beforeLast '.' (afterLast '/' source), x ∈ source := by
    intro x hx
    apply hafter
    rw [beforeLast] at hx
    split at hx
    · rename_i before after hcut
      rw [(eq_of_cutLast? hcut).1]
      exact List.mem_append_left _ hx
    · exact hx
  have hext : '\n' ∉ ".o".toList := by decide
  rw [objectFileOf, List.mem_append, not_or]
  exact ⟨fun hmem => h (hbefore _ hmem), hext⟩

theorem newline_notMem_spaced {items : List Text} (h : ∀ item ∈ items, '\n' ∉ item) :
    '\n' ∉ Statement.spaced items := by
  intro hmem
  rcases mem_intercalate hmem with hblank | ⟨item, hitem, hmem⟩
  · exact absurd hblank (by decide)
  · exact h item hitem hmem

theorem newline_notMem_dollar {inner : Text} (h : '\n' ∉ inner) : '\n' ∉ dollar inner := by
  simp [dollar, h]

variable {c : Config} {dir : Text}

private theorem newline_notMem_wildcard {glob : Text} (h : '\n' ∉ glob) :
    '\n' ∉ wildcard glob := by
  have hcall : '\n' ∉ "wildcard ".toList := by decide
  apply newline_notMem_dollar
  rw [List.mem_append, not_or]
  exact ⟨hcall, h⟩

private theorem newline_notMem_marker {m : Text} (hm : m ∈ c.variants.markers) : '\n' ∉ m := by
  have hplain := (plain_of_pastable (c.variants.pastable m hm).2).1
  exact hplain.notMem (by decide) (by decide)

/-- What is asked of the texts that are pasted into an expression on one line. -/
structure Unbroken (c : Config) (dir : Text) : Prop where
  casePrefix : '\n' ∉ c.casePrefix
  directory : '\n' ∉ dir

theorem Pasted.unbroken (h : Pasted c dir) : Unbroken c dir where
  casePrefix := (plain_of_pastable h.casePrefix).1.notMem (by decide) (by decide)
  directory := h.directory.notMem (by decide) (by decide)

theorem isCall_selection (h : Unbroken c dir) (l : Language) :
    IsCall (selection c l.extension dir) := by
  have hopening : '\n' ∉ dir ++ '/' :: c.casePrefix := by
    simp [h.directory, h.casePrefix]
  have hext : '\n' ∉ '.' :: l.extension := notMem_extension l (by decide)
  have hcase : '\n' ∉ casePattern c dir l.extension := by
    rw [casePattern_eq, List.mem_append, not_or, List.mem_cons, not_or]
    exact ⟨hopening, by decide, hext⟩
  have hevery : '\n' ∉ wildcard (casePattern c dir l.extension) := newline_notMem_wildcard hcase
  have hvariant : ∀ m ∈ c.variants.markers, '\n' ∉ wildcard (variantPattern c dir l.extension m) := by
    intro m hm
    have hafter : '\n' ∉ m ++ '*' :: ('.' :: l.extension) := by
      rw [List.mem_append, not_or, List.mem_cons, not_or]
      exact ⟨newline_notMem_marker hm, by decide, hext⟩
    apply newline_notMem_wildcard
    rw [variantPattern_eq, List.mem_append, not_or, List.mem_cons, not_or]
    exact ⟨hopening, by decide, hafter⟩
  have hdollar {inner : Text} (hinner : '\n' ∉ inner) : IsCall (dollar inner) :=
    ⟨'(' :: inner, rfl, by simpa using hinner⟩
  rw [selection]
  cases hmarkers : c.variants.markers with
  | nil =>
      apply hdollar
      have hcall : '\n' ∉ "wildcard ".toList := by decide
      rw [List.mem_append, not_or]
      exact ⟨hcall, hcase⟩
  | cons m ms =>
      apply hdollar
      have hcall : '\n' ∉ "filter-out ".toList := by decide
      have hvariants : '\n' ∉ List.intercalate [' ']
          ((m :: ms).map fun m => wildcard (variantPattern c dir l.extension m)) := by
        apply newline_notMem_spaced
        intro item hitem
        obtain ⟨marker, hmarker, rfl⟩ := List.mem_map.mp hitem
        exact hvariant marker (hmarkers ▸ hmarker)
      simp only [List.mem_append, List.mem_cons, not_or]
      exact ⟨⟨hcall, hvariants⟩, by decide, hevery⟩

theorem newline_notMem_selectionRemark (l : Language) : '\n' ∉ selectionRemark c l.extension := by
  have hext : '\n' ∉ l.extension := fun hmem =>
    notMem_extension l (x := '\n') (by decide) (List.mem_cons_of_mem _ hmem)
  rw [selectionRemark]
  cases hmarkers : c.variants.markers with
  | nil =>
      have hgrab : '\n' ∉ "grab all the .".toList := by decide
      have hfiles : '\n' ∉ " files".toList := by decide
      simp only [List.mem_append, not_or]
      exact ⟨⟨hgrab, hext⟩, hfiles⟩
  | cons m ms =>
      have hgrab : '\n' ∉ "only grab the .".toList := by decide
      have hfiles : '\n' ∉ " files without ".toList := by decide
      have hname : '\n' ∉ " in the name".toList := by decide
      have hwords : '\n' ∉ List.intercalate " or ".toList
          ((m :: ms).map fun m => '"' :: m ++ ['"']) := by
        intro hmem
        rcases mem_intercalate hmem with hor | ⟨word, hword, hmem⟩
        · exact absurd hor (by decide)
        · obtain ⟨marker, hmarker, rfl⟩ := List.mem_map.mp hword
          have hmarker := newline_notMem_marker (hmarkers ▸ hmarker)
          simp [hmarker] at hmem
      simp only [List.mem_append, not_or]
      exact ⟨⟨⟨⟨hgrab, hext⟩, hfiles⟩, hwords⟩, hname⟩

end Newlines

section Assignments

variable {c : Config} {dirs : List Text} {l : Language}

private theorem sourcesVariable_shape (l : Language) :
    '=' ∉ l.sourcesVariable ∧ '\n' ∉ l.sourcesVariable ∧ l.sourcesVariable ≠ [] ∧
      l.sourcesVariable.head? ≠ some '#' ∧ l.sourcesVariable.head? ≠ some '$' := by
  cases l <;> decide

private theorem skipped_other {other value : Text}
    (hother : '=' ∉ other ∧ '\n' ∉ other ∧ other ∉ Language.all.map Language.sourcesVariable)
    (hvalue : '\n' ∉ value) : Skipped l.sourcesVariable (.assign other value) := by
  have hne : other ≠ l.sourcesVariable := by
    rintro rfl
    apply hother.2.2
    cases l <;> decide
  exact skipped_assign hne (sourcesVariable_shape l).1 hother.1 hother.2.1 hvalue

theorem skipped_preamble (htexts : ∀ text ∈ c.recipeTexts, '\n' ∉ text) :
    ∀ s ∈ preamble c, Skipped l.sourcesVariable s := by
  have htool {text : Text} (h : text ∈ c.recipeTexts) : '\n' ∉ text := htexts text h
  have hmain : '\n' ∉ c.mainFile := htool (by simp [Config.recipeTexts])
  have hdir : '\n' ∉ c.supportDirText := by
    intro hmem
    rcases Path.mem_canonical hmem with h | h
    · exact absurd h (by decide)
    · exact htool (by simp [Config.recipeTexts]) h
  have hreference : '\n' ∉ dollar "SUPPORT_PATH".toList := by decide
  have hsources : '\n' ∉ Statement.spaced
      (c.tools.cSupportSources.map fun s => dollar "SUPPORT_PATH".toList ++ s) := by
    apply newline_notMem_spaced
    intro item hitem
    obtain ⟨s, hs, rfl⟩ := List.mem_map.mp hitem
    rw [List.mem_append, not_or]
    exact ⟨hreference, htool (List.mem_append_right _ hs)⟩
  have hobjects : '\n' ∉ Statement.spaced (c.tools.cSupportSources.map objectFileOf) := by
    apply newline_notMem_spaced
    intro item hitem
    obtain ⟨s, hs, rfl⟩ := List.mem_map.mp hitem
    exact newline_notMem_objectFileOf (htool (List.mem_append_right _ hs))
  have hincludes : '\n' ∉ "-I ".toList ++ c.supportDirText := by
    have hflag : '\n' ∉ "-I ".toList := by decide
    rw [List.mem_append, not_or]
    exact ⟨hflag, hdir⟩
  have hvalue : '\n' ∉ dollar "SUPPORT_PATH".toList ++ c.mainFile := by
    rw [List.mem_append, not_or]
    exact ⟨hreference, hmain⟩
  simp only [preamble, List.forall_mem_cons]
  refine ⟨skipped_other (by decide) (htool (by simp [Config.recipeTexts])),
    skipped_other (by decide) (htool (by simp [Config.recipeTexts])),
    skipped_other (by decide) (htool (by simp [Config.recipeTexts])),
    skipped_other (by decide) (htool (by simp [Config.recipeTexts])),
    skipped_other (by decide) (htool (by simp [Config.recipeTexts])), skipped_blank,
    skipped_other (by decide) hincludes, skipped_blank,
    skipped_other (by decide) (by simpa using hdir), skipped_blank,
    skipped_other (by decide) hvalue,
    skipped_other (by decide) (newline_notMem_objectFileOf hmain), skipped_blank,
    skipped_other (by decide) hsources, skipped_other (by decide) hobjects, by simp⟩

theorem isCall_of_mem_selections (h : ∀ dir ∈ dirs, Unbroken c dir) :
    ∀ item ∈ selections c l dirs, IsCall item := by
  intro item hitem
  obtain ⟨dir, hdir, rfl⟩ := List.mem_map.mp hitem
  exact isCall_selection (h dir hdir) l

private theorem skipped_remark {l' : Language} :
    Skipped l.sourcesVariable (.comment (selectionRemark c l'.extension)) := by
  obtain ⟨-, -, hne, hhash, -⟩ := sourcesVariable_shape l
  exact skipped_comment hhash hne (newline_notMem_selectionRemark l')

theorem skipped_sources {l' : Language} (hne : l' ≠ l) (h : ∀ dir ∈ dirs, Unbroken c dir) :
    ∀ s ∈ sources c dirs l', Skipped l.sourcesVariable s := by
  obtain ⟨hequals, -, hempty, -, hdollar⟩ := sourcesVariable_shape l
  obtain ⟨hequals', hline', -, -, -⟩ := sourcesVariable_shape l'
  have hnames : l'.sourcesVariable ≠ l.sourcesVariable := by
    revert hne
    cases l <;> cases l' <;> decide
  have hlist : Skipped l.sourcesVariable
      (.assignList l'.sourcesVariable (selections c l' dirs)) :=
    skipped_assignList hnames hequals hequals' hline' hdollar hempty (isCall_of_mem_selections h)
  have hobjects : Skipped l.sourcesVariable (.assign l'.objectsVariable
      (dollar (l'.sourcesVariable ++ ":.".toList ++ l'.extension ++ "=.o".toList))) := by
    apply skipped_other
    · cases l' <;> decide
    · cases l' <;> decide
  simp only [sources, List.forall_mem_cons]
  exact ⟨skipped_blank, skipped_remark, hlist, hobjects, by simp⟩

/-- No statement above the assignment of the sources opens with the variable. -/
theorem exists_statements (htexts : ∀ text ∈ c.recipeTexts, '\n' ∉ text)
    (h : ∀ dir ∈ dirs, Unbroken c dir) (l : Language) : ∃ before after,
      statements c dirs =
        before ++ .assignList l.sourcesVariable (selections c l dirs) :: after ∧
      ∀ s ∈ before, Skipped l.sourcesVariable s := by
  obtain ⟨ls, ls', hall, hnot⟩ : ∃ ls ls', Language.all = ls ++ l :: ls' ∧ l ∉ ls :=
    List.eq_append_cons_of_mem (by cases l <;> decide)
  refine ⟨preamble c ++ (ls.flatMap (sources c dirs) ++
      [.blank, .comment (selectionRemark c l.extension)]),
    .assign l.objectsVariable
      (dollar (l.sourcesVariable ++ ":.".toList ++ l.extension ++ "=.o".toList)) ::
      (ls'.flatMap (sources c dirs) ++ (linking c ++ (Language.all.flatMap compiling ++
        (compilingSupport ++ cleaning dirs)))), ?_, ?_⟩
  · have hsources : Language.all.flatMap (sources c dirs) =
        ls.flatMap (sources c dirs) ++ (sources c dirs l ++ ls'.flatMap (sources c dirs)) := by
      rw [hall, List.flatMap_append, List.flatMap_cons]
    have hl : sources c dirs l = [.blank, .comment (selectionRemark c l.extension),
        .assignList l.sourcesVariable (selections c l dirs),
        .assign l.objectsVariable
          (dollar (l.sourcesVariable ++ ":.".toList ++ l.extension ++ "=.o".toList))] := rfl
    rw [statements, hsources, hl]
    simp only [List.append_assoc, List.cons_append, List.nil_append]
  · intro s hs
    rcases List.mem_append.mp hs with hs | hs
    · exact skipped_preamble htexts s hs
    · rcases List.mem_append.mp hs with hs | hs
      · obtain ⟨l', hl', hs⟩ := List.mem_flatMap.mp hs
        have hne : l' ≠ l := by
          rintro rfl
          exact hnot hl'
        exact skipped_sources hne h s hs
      · simp only [List.mem_cons, List.not_mem_nil, or_false] at hs
        rcases hs with rfl | rfl
        · exact skipped_blank
        · exact skipped_remark

theorem recipe_eq_of_statements {before after : List Statement} {s : Statement}
    (h : statements c dirs = before ++ s :: after) :
    recipe c dirs = render before ++ (s.render ++ render after) := by
  rw [recipe, h, render, List.flatMap_append, List.flatMap_cons]
  rfl

theorem assignedTo_recipe (htexts : ∀ text ∈ c.recipeTexts, '\n' ∉ text)
    (h : ∀ dir ∈ dirs, Unbroken c dir) (l : Language) :
    assignedTo l.sourcesVariable (recipe c dirs) = selections c l dirs := by
  obtain ⟨before, after, hstatements, hbefore⟩ := exists_statements htexts h l
  rw [recipe_eq_of_statements hstatements, assignedTo_skip hbefore,
    assignedTo_assignList (sourcesVariable_shape l).2.1 (isCall_of_mem_selections h)]

end Assignments

end Recipe
end SuiteMake

import SuiteMake.CaseName
import SuiteMake.Proofs.Text.Cut

/-!
# Names of case files

The name of a case file is cut at its last dot: the extension after it tells the language, and
between the case prefix and the dot stands the core.
-/

namespace SuiteMake

theorem Language.ofExtension?_eq_some_iff {ext : Text} {l : Language} :
    ofExtension? ext = some l ↔ ext = l.extension := by
  constructor
  · intro h
    have hext := List.find?_some h
    exact (of_decide_eq_true hext).symm
  · intro h
    rw [h]
    cases l <;> decide

namespace CaseName

variable {casePrefix : Text}

theorem isCase_iff {name : Text} :
    isCase casePrefix name = true ↔ ∃ (l : Language) (middle : Text),
      name = casePrefix ++ (middle ++ '.' :: l.extension) ∧ '\n' ∉ middle := by
  have hmiddle (l : Language) : (middle? casePrefix name l).isSome = true ↔
      ∃ middle, name = casePrefix ++ (middle ++ '.' :: l.extension) ∧ '\n' ∉ middle := by
    rw [middle?]
    constructor
    · intro h
      cases hp : casePrefix.isPrefixOf? name with
      | none => simp [hp] at h
      | some rest =>
          cases hs : ('.' :: l.extension).isSuffixOf? rest with
          | none => simp [hp, hs] at h
          | some middle =>
              refine ⟨middle, ?_, ?_⟩
              · rw [← List.append_eq_of_isPrefixOf?_eq_some hp, ← List.append_eq_of_isSuffixOf?_eq_some hs]
              · intro hn
                simp [hp, hs, hn] at h
    · rintro ⟨middle, hname, hn⟩
      simp [List.isPrefixOf?_eq_some_iff_append_eq.mpr hname.symm, List.isSuffixOf?_eq_some_iff_append_eq.mpr rfl, hn]
  rw [isCase, List.any_eq_true]
  constructor
  · rintro ⟨l, -, h⟩
    exact ⟨l, (hmiddle l).mp h⟩
  · rintro ⟨l, h⟩
    refine ⟨l, ?_, (hmiddle l).mpr h⟩
    cases l <;> simp [Language.all]

theorem cutLast?_case (casePrefix middle : Text) (l : Language) :
    Text.cutLast? '.' (casePrefix ++ (middle ++ '.' :: l.extension)) =
      some (casePrefix ++ middle, l.extension) := by
  have hdot : '.' ∉ l.extension := by cases l <;> decide
  exact Text.cutLast?_eq_some_iff.mpr ⟨by simp, hdot⟩

theorem core_case (casePrefix middle : Text) (l : Language) :
    core casePrefix (casePrefix ++ (middle ++ '.' :: l.extension)) = middle := by
  rw [core, Text.beforeLast, cutLast?_case]
  simp [List.isPrefixOf?_eq_some_iff_append_eq.mpr rfl]

/-- The name of a case file is neither empty nor made of dots, since an extension ends it. -/
theorem ne_dots_of_isCase {name : Text} (h : isCase casePrefix name = true) :
    name ≠ [] ∧ name ≠ ['.'] ∧ name ≠ ['.', '.'] := by
  obtain ⟨l, middle, rfl, -⟩ := isCase_iff.mp h
  have hend : ∀ u, casePrefix ++ (middle ++ '.' :: l.extension) ≠ u ++ ['.'] := by
    intro u heq
    have hlast := congrArg List.getLast? heq
    cases l <;> simp [Language.extension] at hlast
  exact ⟨by simp, hend [], hend ['.']⟩

theorem language_unique {middle middle' : Text} {l l' : Language}
    (h : casePrefix ++ (middle ++ '.' :: l.extension) =
      casePrefix ++ (middle' ++ '.' :: l'.extension)) : l = l' := by
  have hsame := congrArg (Text.cutLast? '.') h
  rw [cutLast?_case, cutLast?_case, Option.some.injEq, Prod.mk.injEq] at hsame
  have hext := hsame.2
  revert hext
  cases l <;> cases l' <;> simp [Language.extension]

theorem exists_middle_iff {name middle : Text} {l l' : Language}
    (hname : name = casePrefix ++ (middle ++ '.' :: l'.extension)) :
    (∃ middle', name = casePrefix ++ (middle' ++ '.' :: l.extension)) ↔ l' = l := by
  constructor
  · intro h
    obtain ⟨middle', hname'⟩ := h
    exact language_unique (hname.symm.trans hname')
  · intro h
    rw [← h]
    exact ⟨middle, hname⟩

theorem isCase_and_suffix_iff {name : Text} {l : Language} (hname : '\n' ∉ name) :
    isCase casePrefix name = true ∧ '.' :: l.extension <:+ name ↔
      ∃ middle, name = casePrefix ++ (middle ++ '.' :: l.extension) := by
  rw [isCase_iff]
  constructor
  · intro h
    obtain ⟨⟨l', middle, rfl, -⟩, u, hu⟩ := h
    have hsame : [] ++ (u ++ '.' :: l.extension) =
        [] ++ ((casePrefix ++ middle) ++ '.' :: l'.extension) := by
      rw [List.nil_append, List.nil_append, hu, List.append_assoc]
    rw [language_unique hsame]
    exact ⟨middle, rfl⟩
  · intro h
    obtain ⟨middle, rfl⟩ := h
    simp only [List.mem_append, not_or] at hname
    refine ⟨⟨l, middle, rfl, hname.2.1⟩, casePrefix ++ middle, ?_⟩
    rw [List.append_assoc]

end CaseName
end SuiteMake

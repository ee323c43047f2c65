import SuiteMake.Proofs.EntryPoint.Namespace
import SuiteMake.Proofs.Text.LineEnding

/-!
# Extraction and line endings

A carriage return is neither a blank nor a part of a word. At the end of a line it is read only
where a definition may end, and there the line may end without it. So it hides no entry point and
adds none.
-/

namespace SuiteMake.Extract

open Text

section Readers

variable {α : Type} {read? : Text → Option (α × Text)}

/-- A reader that finds the same whether or not a carriage return ends the text. -/
def IgnoresReturn (read? : Text → Option (α × Text)) : Prop :=
  ∀ t, '\r' ∉ t → (read? (t ++ ['\r'])).map Prod.fst = (read? t).map Prod.fst

private theorem isBlank_return : isBlank '\r' = false := by decide

private theorem isWord_return : isWord '\r' = false := by decide

theorem isSome_bodyStart?_return {t : Text} (h : '\r' ∉ t) :
    (bodyStart? (t ++ ['\r'])).isSome = (bodyStart? t).isSome := by
  have hfree : '\r' ∉ skipBlanks t := fun hmem => h ((List.dropWhile_suffix _).subset hmem)
  rw [bodyStart?, bodyStart?, skipBlanks_append_cons isBlank_return]
  cases hu : skipBlanks t with
  | nil => rfl
  | cons c u =>
      rw [hu] at hfree
      have hc : '\r' ≠ c := List.ne_of_not_mem_cons hfree
      simp only [List.cons_append, isPrefixOf?_singleton, if_neg hc, Option.getD_none]
      by_cases hbrace : '\x7b' = c
      · rw [if_pos hbrace, if_pos hbrace]
        rfl
      · rw [if_neg hbrace, if_neg hbrace]
        by_cases hend : c = '\n' <;> simp [atLineEnd, hend]

theorem isSome_definition?_return {t : Text} (h : '\r' ∉ t) :
    (definition? (t ++ ['\r'])).isSome = (definition? t).isSome := by
  rw [definition?, definition?, parameters?_append_cons isBlank_return (by decide)]
  cases hread : parameters? t with
  | none => rfl
  | some rest =>
      obtain ⟨a, b, void, c, -, -, -, -, ht⟩ := parameters?_eq_some_iff.mp hread
      have hrest : '\r' ∉ rest := fun hmem => h (by simp [ht, hmem])
      exact isSome_bodyStart?_return hrest

private theorem map_fst_bind {a : α} {o o' : Option Text} (h : o.isSome = o'.isSome) :
    (o.bind fun rest => some (a, rest)).map Prod.fst =
      (o'.bind fun rest => some (a, rest)).map Prod.fst := by
  cases o <;> cases o' <;> simp_all

theorem caseFunction?_ignoresReturn {casePrefix : Text} (hp : '\r' ∉ casePrefix) :
    IgnoresReturn (caseFunction? casePrefix) := by
  intro t ht
  rw [caseFunction?, caseFunction?, isPrefixOf?_append_cons hp]
  cases hread : casePrefix.isPrefixOf? t with
  | none => rfl
  | some name =>
      have hname : '\r' ∉ name.dropWhile isWord := by
        intro hmem
        apply ht
        rw [← List.append_eq_of_isPrefixOf?_eq_some hread]
        exact List.mem_append_right _ ((List.dropWhile_suffix _).subset hmem)
      simp only [Option.map_some, Option.bind_eq_bind, Option.bind_some,
        takeWhile_append_cons isWord_return, dropWhile_append_cons isWord_return]
      cases Kind.all.findSome? fun k => (('_' :: k.text).isSuffixOf? (name.takeWhile isWord)).map
          fun w => (⟨casePrefix ++ w, k⟩ : Signature) with
      | none => rfl
      | some signature => exact map_fst_bind (isSome_definition?_return hname)

theorem kindFunction?_ignoresReturn : IgnoresReturn kindFunction? := by
  intro t ht
  rw [kindFunction?, kindFunction?, List.map_findSome?, List.map_findSome?]
  congr 1
  funext k
  have hk : '\r' ∉ k.text := by cases k <;> decide
  simp only [Function.comp_apply, isPrefixOf?_append_cons hk]
  cases hread : k.text.isPrefixOf? t with
  | none => rfl
  | some opening =>
      have hopening : '\r' ∉ opening := by
        intro hmem
        exact ht (by simp [← List.append_eq_of_isPrefixOf?_eq_some hread, hmem])
      exact map_fst_bind (isSome_definition?_return hopening)

theorem caseName?_ignoresReturn {casePrefix : Text} (hp : '\r' ∉ casePrefix) :
    IgnoresReturn (caseName? casePrefix) := by
  intro t _
  rw [caseName?, caseName?, isPrefixOf?_append_cons hp]
  cases casePrefix.isPrefixOf? t with
  | none => rfl
  | some name =>
      simp only [Option.map_some, Option.bind_eq_bind, Option.bind_some, Option.pure_def,
        takeWhile_append_cons isWord_return]

theorem IgnoresReturn.afterKeyword (h : IgnoresReturn read?) {c : Char} (hc : isBlank c = false)
    {keyword : Text} (hk : '\r' ∉ c :: keyword) :
    IgnoresReturn fun line => (afterKeyword (c :: keyword) line).findSome? read? := by
  intro t ht
  have hsame : ∀ u ∈ Extract.afterKeyword (c :: keyword) t,
      (read? (u ++ ['\r'])).map Prod.fst = (read? u).map Prod.fst :=
    fun u hu => h u (((mem_afterKeyword_iff hc).mp hu).notMem ht)
  simp only [afterKeyword_append_cons isBlank_return hk, List.findSome?_map, List.map_findSome?]
  rw [← Function.id_comp (Option.map Prod.fst ∘ _), ← List.findSome?_map,
    ← Function.id_comp (Option.map Prod.fst ∘ read?), ← List.findSome?_map]
  exact congrArg (List.findSome? id) (List.map_congr_left hsame)

theorem cDefinition?_ignoresReturn {casePrefix : Text} (hp : '\r' ∉ casePrefix) :
    IgnoresReturn (cDefinition? casePrefix) :=
  (caseFunction?_ignoresReturn hp).afterKeyword (by decide) (by decide)

theorem cppDefinition?_ignoresReturn : IgnoresReturn cppDefinition? :=
  kindFunction?_ignoresReturn.afterKeyword (by decide) (by decide)

theorem caseNamespace?_ignoresReturn {casePrefix : Text} (hp : '\r' ∉ casePrefix) :
    IgnoresReturn (caseNamespace? casePrefix) :=
  (caseName?_ignoresReturn hp).afterKeyword (by decide) (by decide)

end Readers

section Files

variable {α : Type} {read? : Text → Option (α × Text)} {t : Text}

theorem IgnoresReturn.map_lines (h : IgnoresReturn read?) (t : Text) :
    '\r' ∉ t → (lines (crlf t)).map (fun line => (read? line).map Prod.fst) =
      (lines t).map fun line => (read? line).map Prod.fst := by
  induction t using by_lines with
  | last line hline =>
      intro _
      rw [crlf_of_notMem hline]
  | step line more hline ih =>
      intro ht
      rw [List.mem_append, List.mem_cons, not_or, not_or] at ht
      have hreturn : '\n' ∉ line ++ ['\r'] := by simpa using hline
      rw [crlf_line hline, lines_append hline, List.append_cons line, lines_append hreturn,
        List.map_cons, List.map_cons, h line ht.1, ih ht.2.2]

theorem IgnoresReturn.filterMap_lines (h : IgnoresReturn read?) (ht : '\r' ∉ t) :
    ((lines (crlf t)).filterMap fun line => (read? line).map Prod.fst) =
      (lines t).filterMap fun line => (read? line).map Prod.fst := by
  have hfound := congrArg (List.filterMap id) (h.map_lines t ht)
  rwa [List.filterMap_map, List.filterMap_map] at hfound

theorem IgnoresReturn.findSome?_lines (h : IgnoresReturn read?) (ht : '\r' ∉ t) :
    ((lines (crlf t)).findSome? fun line => (read? line).map Prod.fst) =
      (lines t).findSome? fun line => (read? line).map Prod.fst := by
  have hfound := congrArg (List.findSome? id) (h.map_lines t ht)
  rwa [List.findSome?_map, List.findSome?_map] at hfound

/-- The line endings have no part in which entry points a file defines. -/
theorem signatures_crlf {casePrefix : Text} (hreturn : '\r' ∉ casePrefix)
    (hnewline : '\n' ∉ casePrefix) (ht : '\r' ∉ t) (l : Language) :
    signatures casePrefix l (crlf t) = signatures casePrefix l t := by
  cases l with
  | c =>
      have hreads := cDefinition?_staysOnLine hnewline
      rw [signatures, signatures, findAll_eq hreads, findAll_eq hreads,
        (cDefinition?_ignoresReturn hreturn).filterMap_lines ht]
  | cpp =>
      have hname : (lines (crlf t)).findSome? (nameOn casePrefix) =
          (lines t).findSome? (nameOn casePrefix) :=
        (caseNamespace?_ignoresReturn hreturn).findSome?_lines ht
      have hkinds : (lines (crlf t)).filterMap kindOn = (lines t).filterMap kindOn :=
        cppDefinition?_ignoresReturn.filterMap_lines ht
      rw [signatures_cpp hnewline, signatures_cpp hnewline, hname, hkinds]

end Files

end SuiteMake.Extract

namespace SuiteMake.Sample

/-- A C++ file whose last line has no ending. Blanks stand before other line endings. -/
def openEnded : Text := "namespace C+\nvoid bad( ) \nvoid good()".toList

end SuiteMake.Sample

theorem SuiteMake.Extract.signatures_crlf_openEnded :
    '\r' ∉ "C+".toList ∧ '\n' ∉ "C+".toList ∧ '\r' ∉ Sample.openEnded ∧
    signatures "C+".toList .cpp (Text.crlf Sample.openEnded) =
      [⟨"C+".toList, .bad⟩, ⟨"C+".toList, .good⟩] ∧
    ∀ l, signatures "C+".toList l (Text.crlf Sample.openEnded) =
      signatures "C+".toList l Sample.openEnded := by
  have hreturn : '\r' ∉ "C+".toList := by decide
  have hnewline : '\n' ∉ "C+".toList := by decide
  have htext : '\r' ∉ Sample.openEnded := by decide
  exact ⟨hreturn, hnewline, htext, rfl, signatures_crlf hreturn hnewline htext⟩

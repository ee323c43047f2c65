import SuiteMake.EntryPoint.Extract
import SuiteMake.Proofs.Text.Split

/-!
# Extraction line by line

A reader that starts on a line and does not see beyond its end finds the same in a text as in the
lines of the text, each taken alone. The readers of definitions are of this kind.
-/

namespace SuiteMake

namespace Text

/-- A text is a line, or a line and a newline before a text. -/
@[elab_as_elim]
theorem by_lines {motive : Text → Prop} (last : ∀ line, '\n' ∉ line → motive line)
    (step : ∀ line more, '\n' ∉ line → motive more → motive (line ++ '\n' :: more)) (t : Text) :
    motive t := by
  by_cases hmem : '\n' ∈ t
  · obtain ⟨line, more, ht, hline⟩ := List.eq_append_cons_of_mem hmem
    rw [ht]
    exact step line more hline (by_lines last step more)
  · exact last t hmem
termination_by t.length
decreasing_by
  rw [ht, List.length_append, List.length_cons]
  omega

theorem lines_of_notMem {line : Text} (h : '\n' ∉ line) : lines line = [line] :=
  List.splitOn_eq_singleton h

theorem lines_append {line : Text} (h : '\n' ∉ line) (more : Text) :
    lines (line ++ '\n' :: more) = line :: lines more :=
  List.splitOn_append_cons_self_of_not_mem h more

theorem takeWhile_append_cons {p : Char → Bool} {c : Char} (hc : p c = false) (t more : Text) :
    (t ++ c :: more).takeWhile p = t.takeWhile p := by
  induction t with
  | nil => simp [hc]
  | cons d t ih => simp only [List.cons_append, List.takeWhile_cons, ih]

theorem dropWhile_append_cons {p : Char → Bool} {c : Char} (hc : p c = false) (t more : Text) :
    (t ++ c :: more).dropWhile p = t.dropWhile p ++ c :: more := by
  induction t with
  | nil => simp [hc]
  | cons d t ih =>
      simp only [List.cons_append, List.dropWhile_cons, ih]
      split <;> rfl

end Text

namespace Extract

open Text

section Runs

variable {α : Type} {read? : Text → Option (α × Text)}

/-- A reader for which a newline is the end of the text. -/
def StaysOnLine (read? : Text → Option (α × Text)) : Prop :=
  ∀ t more, read? (t ++ '\n' :: more) = (read? t).map fun (x, rest) => (x, rest ++ '\n' :: more)

private theorem afterNewlines_of_notMem {line : Text} (h : '\n' ∉ line) :
    afterNewlines line = [] := by
  induction line with
  | nil => rfl
  | cons c line ih =>
      have hc : c ≠ '\n' := (List.ne_of_not_mem_cons h).symm
      rw [afterNewlines, if_neg hc]
      exact ih (List.not_mem_of_not_mem_cons h)

private theorem afterNewlines_append {line : Text} (h : '\n' ∉ line) (more : Text) :
    afterNewlines (line ++ '\n' :: more) = lineStarts more := by
  induction line with
  | nil => rw [List.nil_append, afterNewlines, if_pos rfl, lineStarts]
  | cons c line ih =>
      have hc : c ≠ '\n' := (List.ne_of_not_mem_cons h).symm
      rw [List.cons_append, afterNewlines, if_neg hc]
      exact ih (List.not_mem_of_not_mem_cons h)

private theorem findFrom_lineStarts (h : StaysOnLine read?) (t : Text) :
    ∀ limit, t.length ≤ limit → findFrom read? limit (lineStarts t) =
      (lines t).filterMap fun line => (read? line).map Prod.fst := by
  induction t using by_lines with
  | last line hline =>
      intro limit hlimit
      rw [lineStarts, afterNewlines_of_notMem hline, lines_of_notMem hline, findFrom, if_pos hlimit]
      cases hread : read? line with
      | none => simp [findFrom, hread]
      | some found => simp [findFrom, hread]
  | step line more hline ih =>
      -- a find on this line ends before the newline, so the next line is never passed over
      intro limit hlimit
      rw [lineStarts, afterNewlines_append hline, lines_append hline, findFrom, if_pos hlimit,
        h line more]
      rw [List.length_append, List.length_cons] at hlimit
      cases hread : read? line with
      | none =>
          simp only [Option.map_none, List.filterMap_cons, hread]
          exact ih limit (by omega)
      | some found =>
          simp only [Option.map_some, List.filterMap_cons, hread]
          rw [ih _ (by simp only [List.length_append, List.length_cons]; omega)]

theorem findAll_eq (h : StaysOnLine read?) (t : Text) :
    findAll read? t = (lines t).filterMap fun line => (read? line).map Prod.fst :=
  findFrom_lineStarts h t t.length (Nat.le_refl _)

theorem findSome?_lineStarts (h : StaysOnLine read?) (t : Text) :
    ((lineStarts t).findSome? read?).map Prod.fst =
      (lines t).findSome? fun line => (read? line).map Prod.fst := by
  induction t using by_lines with
  | last line hline =>
      rw [lineStarts, afterNewlines_of_notMem hline, lines_of_notMem hline]
      cases hread : read? line <;> simp [hread]
  | step line more hline ih =>
      rw [lineStarts, afterNewlines_append hline, lines_append hline, List.findSome?_cons,
        List.findSome?_cons, h line more]
      cases hread : read? line with
      | none =>
          simp only [Option.map_none]
          exact ih
      | some found => rfl

end Runs

section Readers

section Ending

variable {c : Char}

theorem isPrefixOf?_append_cons {p : Text} (hp : c ∉ p) (t more : Text) :
    p.isPrefixOf? (t ++ c :: more) = (p.isPrefixOf? t).map (· ++ c :: more) := by
  cases hread : p.isPrefixOf? t with
  | some rest =>
      rw [← List.append_eq_of_isPrefixOf?_eq_some hread, List.append_assoc]
      exact List.isPrefixOf?_eq_some_iff_append_eq.mpr rfl
  | none =>
      rw [isPrefixOf?_eq_none_iff] at hread
      rw [Option.map_none, isPrefixOf?_eq_none_iff]
      intro hlong
      have ht : t <+: t ++ c :: more := List.prefix_append _ _
      rcases List.prefix_or_prefix_of_prefix hlong ht with hshort | ⟨u, hu⟩
      · exact hread hshort
      · rw [← hu, List.prefix_append_right_inj] at hlong
        cases u with
        | nil => exact hread (by simp [← hu])
        | cons d u =>
            have hd : d = c := (List.cons_prefix_cons.mp hlong).1
            exact hp (by simp [← hu, hd])

variable (hblank : isBlank c = false)

include hblank

theorem skipBlanks_append_cons (t more : Text) :
    skipBlanks (t ++ c :: more) = skipBlanks t ++ c :: more :=
  dropWhile_append_cons hblank t more

theorem afterBlanks_append_cons (t more : Text) :
    afterBlanks (t ++ c :: more) = (afterBlanks t).map (· ++ c :: more) := by
  induction t with
  | nil => simp [afterBlanks, hblank]
  | cons d t ih =>
      rw [List.cons_append, afterBlanks, afterBlanks]
      split
      · rw [ih, List.map_append, List.map_singleton]
      · rfl

theorem afterKeyword_append_cons {keyword : Text} (hk : c ∉ keyword) (t more : Text) :
    afterKeyword keyword (t ++ c :: more) = (afterKeyword keyword t).map (· ++ c :: more) := by
  rw [afterKeyword, afterKeyword, skipBlanks_append_cons hblank, isPrefixOf?_append_cons hk]
  cases keyword.isPrefixOf? (skipBlanks t) with
  | none => rfl
  | some rest => exact afterBlanks_append_cons hblank rest more

theorem parameters?_append_cons (hc : c ∉ "(void)".toList) (t more : Text) :
    parameters? (t ++ c :: more) = (parameters? t).map (· ++ c :: more) := by
  have hall : "(void)".toList = ['('] ++ ("void".toList ++ [')']) := rfl
  rw [hall, List.mem_append, List.mem_append, not_or, not_or] at hc
  have hopen : c ∉ ['('] := hc.1
  have hvoid : c ∉ "void".toList := hc.2.1
  have hclose : c ∉ [')'] := hc.2.2
  rw [parameters?, parameters?, skipBlanks_append_cons hblank, isPrefixOf?_append_cons hopen]
  cases ['('].isPrefixOf? (skipBlanks t) with
  | none => rfl
  | some inner =>
      simp only [Option.map_some, Option.bind_eq_bind, Option.bind_some,
        skipBlanks_append_cons hblank, isPrefixOf?_append_cons hvoid]
      cases "void".toList.isPrefixOf? (skipBlanks inner) with
      | none =>
          simp only [Option.map_none, Option.getD_none]
          rw [skipBlanks_append_cons hblank, isPrefixOf?_append_cons hclose]
      | some rest =>
          simp only [Option.map_some, Option.getD_some]
          rw [skipBlanks_append_cons hblank, isPrefixOf?_append_cons hclose]

end Ending

private theorem isBlank_newline : isBlank '\n' = false := by decide

theorem atLineEnd_newline (t more : Text) : atLineEnd (t ++ '\n' :: more) = atLineEnd t := by
  cases t <;> simp [atLineEnd]

theorem bodyStart?_newline (t more : Text) :
    bodyStart? (t ++ '\n' :: more) = (bodyStart? t).map (· ++ '\n' :: more) := by
  have hbrace : '\n' ∉ ['\x7b'] := by decide
  have hreturn : '\n' ∉ ['\r'] := by decide
  have hrest (u : Text) : (['\r'].isPrefixOf? (u ++ '\n' :: more)).getD (u ++ '\n' :: more) =
      (['\r'].isPrefixOf? u).getD u ++ '\n' :: more := by
    rw [isPrefixOf?_append_cons hreturn]
    cases ['\r'].isPrefixOf? u <;> rfl
  simp only [bodyStart?, skipBlanks_append_cons isBlank_newline, isPrefixOf?_append_cons hbrace,
    hrest, atLineEnd_newline]
  cases ['\x7b'].isPrefixOf? (skipBlanks t) with
  | some rest => rfl
  | none =>
      simp only [Option.map_none]
      split <;> rfl

theorem definition?_newline (t more : Text) :
    definition? (t ++ '\n' :: more) = (definition? t).map (· ++ '\n' :: more) := by
  rw [definition?, definition?, parameters?_append_cons isBlank_newline (by decide)]
  cases parameters? t with
  | none => rfl
  | some rest => exact bodyStart?_newline rest more

theorem caseFunction?_staysOnLine {casePrefix : Text} (hp : '\n' ∉ casePrefix) :
    StaysOnLine (caseFunction? casePrefix) := by
  intro t more
  rw [caseFunction?, caseFunction?, isPrefixOf?_append_cons hp]
  cases casePrefix.isPrefixOf? t with
  | none => rfl
  | some name =>
      have hnewline : isWord '\n' = false := by decide
      simp only [Option.map_some, Option.bind_eq_bind, Option.bind_some,
        takeWhile_append_cons hnewline, dropWhile_append_cons hnewline, definition?_newline]
      cases Kind.all.findSome? fun k => (('_' :: k.text).isSuffixOf? (name.takeWhile isWord)).map
          fun w => (⟨casePrefix ++ w, k⟩ : Signature) with
      | none => rfl
      | some signature => cases definition? (name.dropWhile isWord) <;> rfl

theorem kindFunction?_staysOnLine : StaysOnLine kindFunction? := by
  intro t more
  rw [kindFunction?, kindFunction?, List.map_findSome?]
  congr 1
  funext k
  have hk : '\n' ∉ k.text := by cases k <;> decide
  simp only [isPrefixOf?_append_cons hk, Function.comp_apply]
  cases k.text.isPrefixOf? t with
  | none => rfl
  | some rest =>
      simp only [Option.map_some, Option.bind_eq_bind, Option.bind_some, definition?_newline]
      cases definition? rest <;> rfl

theorem caseName?_staysOnLine {casePrefix : Text} (hp : '\n' ∉ casePrefix) :
    StaysOnLine (caseName? casePrefix) := by
  intro t more
  rw [caseName?, caseName?, isPrefixOf?_append_cons hp]
  cases casePrefix.isPrefixOf? t with
  | none => rfl
  | some name =>
      have hnewline : isWord '\n' = false := by decide
      simp only [Option.map_some, Option.bind_eq_bind, Option.bind_some, Option.pure_def,
        takeWhile_append_cons hnewline, dropWhile_append_cons hnewline]

theorem findSome?_afterKeyword_staysOnLine {α : Type} {read? : Text → Option (α × Text)}
    {keyword : Text} (hk : '\n' ∉ keyword) (h : StaysOnLine read?) :
    StaysOnLine fun line => (afterKeyword keyword line).findSome? read? := by
  intro t more
  simp only [afterKeyword_append_cons isBlank_newline hk, List.findSome?_map, List.map_findSome?]
  congr 1
  funext u
  exact h u more

theorem cDefinition?_staysOnLine {casePrefix : Text} (hp : '\n' ∉ casePrefix) :
    StaysOnLine (cDefinition? casePrefix) :=
  findSome?_afterKeyword_staysOnLine (by decide) (caseFunction?_staysOnLine hp)

theorem cppDefinition?_staysOnLine : StaysOnLine cppDefinition? :=
  findSome?_afterKeyword_staysOnLine (by decide) kindFunction?_staysOnLine

theorem caseNamespace?_staysOnLine {casePrefix : Text} (hp : '\n' ∉ casePrefix) :
    StaysOnLine (caseNamespace? casePrefix) :=
  findSome?_afterKeyword_staysOnLine (by decide) (caseName?_staysOnLine hp)

end Readers

end Extract
end SuiteMake

import SuiteMake.Proofs.Text.Split
import SuiteMake.Recipe.Reading
import SuiteMake.Recipe.Statement

/-!
# Lines of a recipe

A recipe without stray newlines has the lines of its statements, one after the other. So the
items of an assignment are read back unless an earlier line opens with the same variable.
-/

namespace SuiteMake.Recipe

open Text

/-- The lines of an assignment of several items, the first of them opened. -/
def continued (opening : Text) : List Text → List Text
  | [] => [opening]
  | [item] => [opening ++ item]
  | item :: next :: items => (opening ++ item ++ [' ', '\\']) :: continued [] (next :: items)

def Statement.lines : Statement → List Text
  | .line text => [text]
  | .blank => [[]]
  | .comment text => ['#' :: ' ' :: text]
  | .assign name value => [name ++ '=' :: value]
  | .assignList name items => continued (name ++ ['=']) items
  | .rule targets prerequisites commands =>
    (targets ++ " : ".toList ++ prerequisites) :: commands.map ('\t' :: ·)

private theorem flatMap_continued (opening : Text) (items : List Text) :
    (continued opening items).flatMap (· ++ ['\n']) =
      opening ++ List.intercalate " \\\n".toList items ++ ['\n'] := by
  have hbreak : " \\\n".toList = [' ', '\\', '\n'] := by decide
  fun_induction continued opening items with
  | case1 opening => simp
  | case2 opening item => simp
  | case3 opening item next items ih =>
      rw [List.flatMap_cons, ih, List.intercalate_cons_cons, hbreak]
      simp only [List.append_assoc, List.cons_append, List.nil_append]

theorem Statement.render_eq (s : Statement) : s.render = s.lines.flatMap (· ++ ['\n']) := by
  cases s with
  | line text => simp [render, lines]
  | blank => simp [render, lines]
  | comment text => simp [render, lines]
  | assign name value => simp [render, renderAssign, lines]
  | assignList name items =>
      rw [lines, flatMap_continued, render, renderAssign]
      simp only [List.append_assoc, List.cons_append, List.nil_append]
  | rule targets prerequisites commands => simp [render, lines, List.flatMap_map]

theorem lines_render {ss : List Statement} (h : ∀ s ∈ ss, ∀ line ∈ s.lines, '\n' ∉ line)
    (rest : Text) :
    Text.lines (render ss ++ rest) = ss.flatMap Statement.lines ++ Text.lines rest := by
  have hrender : render ss = (ss.flatMap Statement.lines).flatMap (· ++ ['\n']) := by
    rw [render, List.flatMap_assoc]
    congr 1
    funext s
    exact s.render_eq
  rw [hrender]
  apply lines_flatMap
  intro line hline
  obtain ⟨s, hs, hmem⟩ := List.mem_flatMap.mp hline
  exact h s hs line hmem

section Skipping

/-- A statement on lines of its own, none of which opens an assignment of a variable. -/
def Skipped (name : Text) (s : Statement) : Prop :=
  ∀ line ∈ s.lines, '\n' ∉ line ∧ ¬ name ++ ['='] <+: line

variable {name : Text}

theorem assignedIn_skip {ls : List Text} (h : ∀ l ∈ ls, ¬ name ++ ['='] <+: l)
    (rest : List Text) : assignedIn name (ls ++ rest) = assignedIn name rest := by
  induction ls with
  | nil => rfl
  | cons l ls ih =>
      have hl : (name ++ ['=']).isPrefixOf? l = none :=
        isPrefixOf?_eq_none_iff.mpr (h l List.mem_cons_self)
      have htail := ih fun k hk => h k (List.mem_cons_of_mem l hk)
      rw [List.cons_append, assignedIn, hl]
      exact htail

theorem assignedTo_skip {ss : List Statement} (h : ∀ s ∈ ss, Skipped name s) (rest : Text) :
    assignedTo name (render ss ++ rest) = assignedTo name rest := by
  rw [assignedTo, lines_render (fun s hs line hline => (h s hs line hline).1), assignedIn_skip]
  · rfl
  · intro line hline
    obtain ⟨s, hs, hmem⟩ := List.mem_flatMap.mp hline
    exact (h s hs line hmem).2

theorem skipped_blank : Skipped name .blank := by
  intro line hline
  obtain rfl : line = [] := by simpa [Statement.lines] using hline
  simp

theorem not_opens_of_head {c : Char} (hc : name.head? ≠ some c) (hne : name ≠ []) (text : Text) :
    ¬ name ++ ['='] <+: c :: text := by
  cases name with
  | nil => exact absurd rfl hne
  | cons d name =>
      rw [List.cons_append, List.cons_prefix_cons]
      rintro ⟨rfl, -⟩
      exact hc rfl

theorem skipped_comment {text : Text} (hhash : name.head? ≠ some '#') (hne : name ≠ [])
    (htext : '\n' ∉ text) : Skipped name (.comment text) := by
  intro line hline
  obtain rfl : line = '#' :: ' ' :: text := by simpa [Statement.lines] using hline
  refine ⟨?_, not_opens_of_head hhash hne _⟩
  simpa using htext

theorem not_opens_of_ne {other value : Text} (hne : other ≠ name) (hname : '=' ∉ name)
    (hother : '=' ∉ other) : ¬ name ++ ['='] <+: other ++ '=' :: value := by
  rintro ⟨rest, hrest⟩
  have hsame : name ++ '=' :: rest = other ++ '=' :: value := by simpa using hrest
  have hcut : cut? ['='] (name ++ '=' :: rest) = some (name, rest) :=
    cut?_eq_some_iff.mpr ⟨rfl, absent_singleton.mpr hname⟩
  have hcut' : cut? ['='] (other ++ '=' :: value) = some (other, value) :=
    cut?_eq_some_iff.mpr ⟨rfl, absent_singleton.mpr hother⟩
  rw [hsame, hcut', Option.some.injEq, Prod.mk.injEq] at hcut
  exact hne hcut.1

theorem skipped_assign {other value : Text} (hne : other ≠ name) (hname : '=' ∉ name)
    (hother : '=' ∉ other) (hline : '\n' ∉ other) (hvalue : '\n' ∉ value) :
    Skipped name (.assign other value) := by
  intro line hmem
  obtain rfl : line = other ++ '=' :: value := by simpa [Statement.lines] using hmem
  refine ⟨?_, not_opens_of_ne hne hname hother⟩
  simp [hline, hvalue]

end Skipping

section Items

def IsCall (item : Text) : Prop := ∃ inner, item = '$' :: (inner ++ [')']) ∧ '\n' ∉ inner

variable {items : List Text}

private theorem exists_of_continued_nil (hitems : ∀ item ∈ items, IsCall item) (hne : items ≠ [])
    {line : Text} (h : line ∈ continued [] items) : ∃ rest, line = '$' :: rest ∧ '\n' ∉ rest := by
  induction items with
  | nil => exact absurd rfl hne
  | cons item items ih =>
      obtain ⟨inner, rfl, hinner⟩ := hitems item List.mem_cons_self
      cases items with
      | nil =>
          refine ⟨inner ++ [')'], by simpa [continued] using h, ?_⟩
          simpa using hinner
      | cons next items =>
          rw [continued, List.mem_cons] at h
          rcases h with rfl | h
          · refine ⟨inner ++ [')', ' ', '\\'], by simp, ?_⟩
            simpa using hinner
          · exact ih (fun i hi => hitems i (List.mem_cons_of_mem _ hi)) (by simp) h

private theorem exists_of_continued (hitems : ∀ item ∈ items, IsCall item) {opening line : Text}
    (h : line ∈ continued opening items) :
    ∃ rest, '\n' ∉ rest ∧ (line = opening ++ rest ∨ line = '$' :: rest) := by
  cases items with
  | nil => exact ⟨[], by simp, Or.inl (by simpa [continued] using h)⟩
  | cons item items =>
      obtain ⟨inner, hshape, hinner⟩ := hitems item List.mem_cons_self
      cases items with
      | nil => exact ⟨item, by simpa [hshape] using hinner, Or.inl (by simpa [continued] using h)⟩
      | cons next items =>
          rw [continued, List.mem_cons] at h
          rcases h with rfl | h
          · refine ⟨item ++ [' ', '\\'], ?_, Or.inl (by simp)⟩
            simpa [hshape] using hinner
          · have hnext : ∀ i ∈ next :: items, IsCall i := fun i hi =>
              hitems i (List.mem_cons_of_mem item hi)
            obtain ⟨rest, hrest, hline⟩ := exists_of_continued_nil hnext (by simp) h
            exact ⟨rest, hline, Or.inr hrest⟩

theorem skipped_assignList {name other : Text} (hne : other ≠ name) (hname : '=' ∉ name)
    (hother : '=' ∉ other) (hline : '\n' ∉ other) (hdollar : name.head? ≠ some '$')
    (hempty : name ≠ []) (hitems : ∀ item ∈ items, IsCall item) :
    Skipped name (.assignList other items) := by
  intro line hmem
  obtain ⟨rest, hrest, rfl | rfl⟩ := exists_of_continued hitems hmem
  · rw [List.append_assoc, List.singleton_append]
    refine ⟨?_, not_opens_of_ne hne hname hother⟩
    simp [hline, hrest]
  · refine ⟨?_, not_opens_of_head hdollar hempty rest⟩
    simpa using hrest

private theorem trim_call {item : Text} (h : IsCall item) (blank : Text)
    (hblank : ∀ c ∈ blank, isSpace c = true) : trim (item ++ blank) = item := by
  obtain ⟨inner, rfl, -⟩ := h
  have hopen : isSpace '$' = false := by decide
  have hclose : isSpace ')' = false := by decide
  have hfront : (('$' :: (inner ++ [')'])) ++ blank).dropWhile isSpace =
      ('$' :: (inner ++ [')'])) ++ blank := by
    rw [List.cons_append, List.dropWhile_cons_of_neg (by simp [hopen])]
  have hback : (('$' :: (inner ++ [')'])) ++ blank).reverse.dropWhile isSpace =
      ('$' :: (inner ++ [')'])).reverse := by
    rw [List.reverse_append, List.dropWhile_append_of_pos (by simpa using hblank)]
    simp [hclose]
  rw [trim, hfront, hback, List.reverse_reverse]

theorem continuedItems_continued (hitems : ∀ item ∈ items, IsCall item) (rest : List Text) :
    continuedItems (continued [] items ++ rest) = items := by
  induction items with
  | nil => rfl
  | cons item items ih =>
      obtain ⟨inner, hshape, hinner⟩ := hitems item List.mem_cons_self
      have hitem : IsCall item := ⟨inner, hshape, hinner⟩
      have hne : item ≠ [] := by simp [hshape]
      cases items with
      | nil =>
          have hstrip : (item.reverse.dropWhile (· == '\\')).reverse = item := by
            simp [hshape]
          have htrim : trim item = item := by
            simpa using trim_call hitem [] (by simp)
          have hend : item.getLast? = some ')' := by
            rw [hshape, ← List.cons_append, List.getLast?_concat]
          rw [continued, List.nil_append, List.singleton_append, continuedItems, hstrip, htrim]
          simp [hne, hend]
      | cons next items =>
          have hstrip : ((item ++ [' ', '\\']).reverse.dropWhile (· == '\\')).reverse =
              item ++ [' '] := by simp
          have hblank : ∀ c ∈ [' '], isSpace c = true := by
            intro c hc
            rw [List.mem_singleton.mp hc]
            decide
          have htrim : trim (item ++ [' ']) = item := trim_call hitem [' '] hblank
          have hend : (item ++ [' ', '\\']).getLast? = some '\\' := by simp
          have htail := ih fun i hi => hitems i (List.mem_cons_of_mem item hi)
          rw [continued, List.nil_append, List.cons_append, continuedItems, hstrip, htrim, htail]
          simp [hne, hend]

/-- The opening of an assignment stands before the first line, and changes no other. -/
theorem continued_eq (opening : Text) (items : List Text) :
    ∃ first lines, continued [] items = first :: lines ∧
      continued opening items = (opening ++ first) :: lines := by
  cases items with
  | nil => exact ⟨[], [], rfl, by simp [continued]⟩
  | cons item items =>
      cases items with
      | nil => exact ⟨item, [], rfl, rfl⟩
      | cons next items =>
          refine ⟨item ++ [' ', '\\'], continued [] (next :: items), rfl, ?_⟩
          simp only [continued, List.append_assoc]

theorem length_continued (opening : Text) (items : List Text) :
    (continued opening items).length = max 1 items.length := by
  fun_induction continued opening items with
  | case1 opening => rfl
  | case2 opening item => rfl
  | case3 opening item next items ih =>
      simp only [List.length_cons] at ih ⊢
      omega

private theorem continued_ne_nil (opening : Text) (items : List Text) :
    continued opening items ≠ [] := by
  obtain ⟨first, lines, -, hlines⟩ := continued_eq opening items
  simp [hlines]

theorem suffix_of_mem_dropLast_continued (opening : Text) (items : List Text) :
    ∀ line ∈ (continued opening items).dropLast, [' ', '\\'] <:+ line := by
  fun_induction continued opening items with
  | case1 opening => simp
  | case2 opening item => simp
  | case3 opening item next items ih =>
      rw [List.dropLast_cons_of_ne_nil (continued_ne_nil [] (next :: items)), List.forall_mem_cons]
      exact ⟨List.suffix_append _ _, ih⟩

theorem getLast?_of_mem_getLast?_continued {opening : Text} {items : List Text}
    (hopening : opening.getLast? ≠ some '\\') (hitems : ∀ item ∈ items, IsCall item) :
    ∀ line ∈ (continued opening items).getLast?, line.getLast? ≠ some '\\' := by
  fun_induction continued opening items with
  | case1 opening => simpa using hopening
  | case2 opening item =>
      obtain ⟨inner, hitem, -⟩ := hitems item List.mem_cons_self
      have hend : (opening ++ item).getLast? = some ')' := by
        rw [hitem, ← List.cons_append, ← List.append_assoc, List.getLast?_concat]
      simp [hend]
  | case3 opening item next items ih =>
      have htail := ih (by simp) fun i hi => hitems i (List.mem_cons_of_mem item hi)
      rwa [List.getLast?_cons_of_ne_nil (continued_ne_nil [] (next :: items))]

theorem newline_notMem_continued {opening : Text} (hopening : '\n' ∉ opening)
    (hitems : ∀ item ∈ items, IsCall item) : ∀ line ∈ continued opening items, '\n' ∉ line := by
  intro line hline
  obtain ⟨rest, hrest, rfl | rfl⟩ := exists_of_continued hitems hline
  · simp [hopening, hrest]
  · simpa using hrest

/-- The items assigned to a variable are read back. -/
theorem assignedTo_assignList {name : Text} (hname : '\n' ∉ name)
    (hitems : ∀ item ∈ items, IsCall item) (rest : Text) :
    assignedTo name ((Statement.assignList name items).render ++ rest) = items := by
  have hassign : '\n' ∉ name ++ ['='] := by simp [hname]
  have hlines := newline_notMem_continued hassign hitems
  obtain ⟨first, lines, hnil, hopening⟩ := continued_eq (name ++ ['=']) items
  have hopen : (name ++ ['=']).isPrefixOf? (name ++ ['='] ++ first) = some first :=
    List.isPrefixOf?_eq_some_iff_append_eq.mpr rfl
  calc
    assignedTo name ((Statement.assignList name items).render ++ rest)
        = assignedIn name (continued (name ++ ['=']) items ++ Text.lines rest) := by
      rw [assignedTo, Statement.render_eq, Statement.lines, lines_flatMap hlines]
    _ = continuedItems (continued [] items ++ Text.lines rest) := by
      rw [hopening, hnil, List.cons_append, assignedIn, hopen]
      rfl
    _ = items := continuedItems_continued hitems _

end Items

end SuiteMake.Recipe

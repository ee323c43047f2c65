import SuiteMake.Proofs.CaseName
import SuiteMake.Proofs.Except
import SuiteMake.Recipe.Glob
import SuiteMake.Recipe.Reading

/-!
# What source globs select

The globs of an expression are read back as they were pasted. On a path written as a directory
and a name, they tell the directory, the case prefix, the extension and the markers.
-/

namespace SuiteMake.Recipe

open Text

theorem mem_afterRuns_iff {path rest : Text} :
    rest ∈ afterRuns path ↔ ∃ run, path = run ++ rest ∧ '/' ∉ run := by
  induction path with
  | nil =>
      rw [afterRuns, List.mem_singleton]
      constructor
      · rintro rfl
        exact ⟨[], rfl, by simp⟩
      · rintro ⟨run, hpath, -⟩
        exact (List.append_eq_nil_iff.mp hpath.symm).2
  | cons c path ih =>
      rw [afterRuns, List.mem_cons]
      constructor
      · rintro (rfl | h)
        · exact ⟨[], rfl, by simp⟩
        · by_cases hc : c = '/'
          · simp [hc] at h
          · rw [if_neg hc] at h
            obtain ⟨run, rfl, hrun⟩ := ih.mp h
            exact ⟨c :: run, rfl, by simp [Ne.symm hc, hrun]⟩
      · rintro ⟨run, hpath, hrun⟩
        cases run with
        | nil => exact Or.inl hpath.symm
        | cons d run =>
            obtain ⟨rfl, rfl⟩ := List.cons.inj hpath
            rw [List.mem_cons, not_or] at hrun
            rw [if_neg (Ne.symm hrun.1)]
            exact Or.inr (ih.mpr ⟨run, rfl, hrun.2⟩)

theorem matchesGlob_star {glob path : Text} : matchesGlob ('*' :: glob) path = true ↔
    ∃ run rest, path = run ++ rest ∧ '/' ∉ run ∧ matchesGlob glob rest = true := by
  rw [matchesGlob.eq_def]
  simp only [if_true, List.any_eq_true]
  constructor
  · rintro ⟨rest, hrest, h⟩
    obtain ⟨run, hpath, hrun⟩ := mem_afterRuns_iff.mp hrest
    exact ⟨run, rest, hpath, hrun, h⟩
  · rintro ⟨run, rest, hpath, hrun, h⟩
    exact ⟨rest, mem_afterRuns_iff.mpr ⟨run, hpath, hrun⟩, h⟩

theorem matchesGlob_append {u glob path : Text} (hu : '*' ∉ u) :
    matchesGlob (u ++ glob) path = true ↔
      ∃ rest, path = u ++ rest ∧ matchesGlob glob rest = true := by
  induction u generalizing path with
  | nil => simp
  | cons c u ih =>
      rw [List.mem_cons, not_or] at hu
      rw [List.cons_append, matchesGlob.eq_def]
      simp only [if_neg (Ne.symm hu.1)]
      cases path with
      | nil => simp
      | cons d path =>
          simp only [Bool.and_eq_true, decide_eq_true_eq, ih hu.2, List.cons_append,
            List.cons.injEq]
          constructor
          · rintro ⟨hc, rest, hpath, h⟩
            exact ⟨rest, ⟨hc.symm, hpath⟩, h⟩
          · rintro ⟨rest, ⟨hc, hpath⟩, h⟩
            exact ⟨hc.symm, rest, hpath, h⟩

theorem matchesGlob_literal {u path : Text} (hu : '*' ∉ u) :
    matchesGlob u path = true ↔ path = u := by
  rw [← List.append_nil u, matchesGlob_append hu, List.append_nil]
  constructor
  · rintro ⟨rest, rfl, hrest⟩
    obtain rfl : rest = [] := by simpa [matchesGlob] using hrest
    simp
  · rintro rfl
    exact ⟨[], by simp, rfl⟩

/-- A text without characters that have a meaning in globs, slashes apart. -/
def Plain (t : Text) : Prop := ∀ c ∈ t, c = '/' ∨ Variants.breaksGlob c = false

instance (t : Text) : Decidable (Plain t) :=
  List.decidableBAll (fun c => c = '/' ∨ Variants.breaksGlob c = false) t

theorem Plain.notMem {t : Text} (h : Plain t) {c : Char} (hc : Variants.breaksGlob c = true)
    (hslash : c ≠ '/') : c ∉ t := by
  intro hmem
  rcases h c hmem with h | h
  · exact hslash h
  · rw [hc] at h
    cases h

theorem plain_of_pastable {t : Text} (h : t.any Variants.breaksGlob = false) :
    Plain t ∧ '/' ∉ t := by
  have hall : ∀ c ∈ t, Variants.breaksGlob c = false := by simpa using h
  refine ⟨fun c hc => Or.inr (hall c hc), ?_⟩
  intro hmem
  have hslash := hall '/' hmem
  revert hslash
  decide

section Wildcards

theorem wildcards_of_notMem {u : Text} (hu : '$' ∉ u) : wildcards u = [] := by
  have hcut : cut? wildcardOpening u = none := by
    rw [cut?_eq_none_iff]
    intro hwithin
    exact hu (hwithin.subset (by decide))
  rw [wildcards]
  split
  · rfl
  · rename_i heq
    rw [hcut] at heq
    cases heq

theorem wildcard_eq (glob : Text) : wildcard glob = wildcardOpening ++ (glob ++ [')']) := by
  have hopening : wildcardOpening = '$' :: '(' :: "wildcard ".toList := by decide
  rw [wildcard, dollar, hopening]
  simp only [List.cons_append, List.append_assoc]

theorem wildcards_wildcard {u glob rest : Text} (hu : Absent wildcardOpening u wildcardOpening)
    (hglob : ')' ∉ glob) :
    wildcards (u ++ (wildcard glob ++ rest)) = glob :: wildcards rest := by
  have hopening : cut? wildcardOpening (u ++ (wildcard glob ++ rest)) =
      some (u, glob ++ (')' :: rest)) := by
    rw [cut?_eq_some_iff]
    refine ⟨?_, hu⟩
    simp only [wildcard_eq, List.append_assoc, List.singleton_append]
  have hclosing : cut? [')'] (glob ++ (')' :: rest)) = some (glob, rest) := by
    rw [cut?_eq_some_iff]
    exact ⟨rfl, absent_of_head_notMem hglob [] _⟩
  rw [wildcards]
  split
  · rename_i heq
    rw [hopening] at heq
    cases heq
  · rename_i before rest₁ heq
    cases hopening.symm.trans heq
    split
    · rename_i heq₁
      rw [hclosing] at heq₁
      cases heq₁
    · rename_i glob₁ rest₂ heq₁
      cases hclosing.symm.trans heq₁
      rfl

private theorem absent_of_dollar_notMem {u : Text} (hu : '$' ∉ u) (v : Text) :
    Absent wildcardOpening u v := by
  have hopening : wildcardOpening = '$' :: "(wildcard ".toList := by decide
  rw [hopening]
  exact absent_of_head_notMem hu _ v

private theorem absent_filterOut (v : Text) :
    Absent wildcardOpening ('$' :: '(' :: "filter-out ".toList) v := by
  rw [absent_cons]
  refine ⟨?_, absent_of_dollar_notMem (by decide) v⟩
  have hopening : wildcardOpening = '$' :: '(' :: 'w' :: "ildcard ".toList := by decide
  have hcall : "filter-out ".toList = 'f' :: "ilter-out ".toList := by decide
  rw [hopening, hcall]
  simp only [List.cons_append, List.cons_prefix_cons]
  rintro ⟨-, -, hletter, -⟩
  exact absurd hletter (by decide)

private theorem wildcards_intercalate {globs : List Text} (hglobs : ∀ g ∈ globs, ')' ∉ g)
    {u rest : Text} (hne : globs ≠ []) (hu : Absent wildcardOpening u wildcardOpening) :
    wildcards (u ++ (List.intercalate [' '] (globs.map wildcard) ++ rest)) =
      globs ++ wildcards rest := by
  induction globs generalizing u with
  | nil => exact absurd rfl hne
  | cons glob globs ih =>
      have hglob : ')' ∉ glob := hglobs glob List.mem_cons_self
      cases globs with
      | nil =>
          rw [List.map_singleton, List.intercalate_singleton, wildcards_wildcard hu hglob]
          rfl
      | cons next globs =>
          have hblank : Absent wildcardOpening [' '] wildcardOpening :=
            absent_of_dollar_notMem (by decide) _
          rw [List.map_cons, List.map_cons, List.intercalate_cons_cons, List.append_assoc,
            List.append_assoc, wildcards_wildcard hu hglob, ← List.map_cons,
            ih (fun g hg => hglobs g (List.mem_cons_of_mem _ hg)) (by simp) hblank]
          rfl

end Wildcards

section Selection

variable {c : Config} {dir ext : Text}

theorem wildcards_selection (hcase : ')' ∉ casePattern c dir ext)
    (hvariant : ∀ m ∈ c.variants.markers, ')' ∉ variantPattern c dir ext m) :
    wildcards (selection c ext dir) =
      c.variants.markers.map (variantPattern c dir ext) ++ [casePattern c dir ext] := by
  have hclosed : wildcards [')'] = [] := wildcards_of_notMem (by decide)
  have hnil : Absent wildcardOpening [] wildcardOpening := absent_nil _ _
  have hcomma : Absent wildcardOpening [','] wildcardOpening :=
    absent_of_dollar_notMem (by decide) _
  rw [selection]
  cases hmarkers : c.variants.markers with
  | nil =>
      have hrest : wildcards [] = [] := wildcards_of_notMem (by simp)
      calc
        wildcards (wildcard (casePattern c dir ext))
            = wildcards ([] ++ (wildcard (casePattern c dir ext) ++ [])) := by
          rw [List.nil_append, List.append_nil]
        _ = casePattern c dir ext :: wildcards [] := wildcards_wildcard hnil hcase
        _ = [casePattern c dir ext] := by rw [hrest]
  | cons m ms =>
      have hglobs : ∀ g ∈ (m :: ms).map (variantPattern c dir ext), ')' ∉ g := by
        rw [← hmarkers]
        intro g hg
        obtain ⟨marker, hmarker, rfl⟩ := List.mem_map.mp hg
        exact hvariant marker hmarker
      have hmap : (m :: ms).map (fun m => wildcard (variantPattern c dir ext m)) =
          ((m :: ms).map (variantPattern c dir ext)).map wildcard := by
        rw [List.map_map]
        rfl
      have hlayout : dollar ("filter-out ".toList ++
          List.intercalate [' '] ((m :: ms).map fun m => wildcard (variantPattern c dir ext m)) ++
            ',' :: wildcard (casePattern c dir ext)) =
          ('$' :: '(' :: "filter-out ".toList) ++
            (List.intercalate [' '] (((m :: ms).map (variantPattern c dir ext)).map wildcard) ++
              ([','] ++ (wildcard (casePattern c dir ext) ++ [')']))) := by
        rw [hmap, dollar]
        simp only [List.cons_append, List.append_assoc, List.nil_append]
      dsimp only
      rw [hlayout, wildcards_intercalate hglobs (by simp) (absent_filterOut _),
        wildcards_wildcard hcomma hcase, hclosed]

theorem select_selection (hcase : ')' ∉ casePattern c dir ext)
    (hvariant : ∀ m ∈ c.variants.markers, ')' ∉ variantPattern c dir ext m) (paths : List Text) :
    select (selection c ext dir) paths = paths.filter fun p =>
      matchesGlob (casePattern c dir ext) p &&
        !c.variants.markers.any fun m => matchesGlob (variantPattern c dir ext m) p := by
  rw [select, wildcards_selection hcase hvariant]
  simp [List.any_map, Function.comp_def]

theorem casePattern_eq : casePattern c dir ext =
    (dir ++ '/' :: c.casePrefix) ++ '*' :: ('.' :: ext) := by
  have hstar : "*.".toList = ['*', '.'] := by decide
  rw [casePattern, hstar]
  simp only [List.append_assoc, List.cons_append, List.nil_append]

theorem variantPattern_eq {m : Text} : variantPattern c dir ext m =
    (dir ++ '/' :: c.casePrefix) ++ '*' :: (m ++ '*' :: ('.' :: ext)) := by
  have hstar : "*.".toList = ['*', '.'] := by decide
  rw [variantPattern, hstar]
  simp only [List.append_assoc, List.cons_append, List.nil_append]

end Selection

theorem append_slash_inj {d d' name name' : Text} (h : '/' ∉ name) (h' : '/' ∉ name') :
    d ++ '/' :: name = d' ++ '/' :: name' ↔ d = d' ∧ name = name' := by
  constructor
  · intro heq
    have hcut : cutLast? '/' (d ++ '/' :: name) = some (d, name) :=
      cutLast?_eq_some_iff.mpr ⟨rfl, h⟩
    have hcut' : cutLast? '/' (d' ++ '/' :: name') = some (d', name') :=
      cutLast?_eq_some_iff.mpr ⟨rfl, h'⟩
    rw [heq, hcut', Option.some.injEq, Prod.mk.injEq] at hcut
    exact ⟨hcut.1.symm, hcut.2.symm⟩
  · rintro ⟨rfl, rfl⟩
    rfl

/-- What is asked of the texts that are pasted into the globs of a directory. -/
structure Pasted (c : Config) (dir : Text) : Prop where
  casePrefix : c.casePrefix.any Variants.breaksGlob = false
  directory : Plain dir

section Matching

variable {c : Config} {dir d name : Text} {l : Language}

theorem Pasted.notMem_opening (h : Pasted c dir) {x : Char}
    (hx : Variants.breaksGlob x = true) (hslash : x ≠ '/') : x ∉ dir ++ '/' :: c.casePrefix := by
  rw [List.mem_append, List.mem_cons]
  rintro (hmem | rfl | hmem)
  · exact h.directory.notMem hx hslash hmem
  · exact hslash rfl
  · exact (plain_of_pastable h.casePrefix).1.notMem hx hslash hmem

theorem notMem_extension (l : Language) {x : Char} (hx : Variants.breaksGlob x = true) :
    x ∉ '.' :: l.extension := by
  have hplain : ('.' :: l.extension).any Variants.breaksGlob = false := by cases l <;> decide
  intro hmem
  exact List.any_eq_false.mp hplain x hmem hx

theorem Pasted.notMem_casePattern (h : Pasted c dir) {x : Char}
    (hx : Variants.breaksGlob x = true) (hslash : x ≠ '/') (hstar : x ≠ '*') :
    x ∉ casePattern c dir l.extension := by
  have hopening := h.notMem_opening hx hslash
  have hext := notMem_extension l hx
  rw [casePattern_eq, List.mem_append, not_or, List.mem_cons, not_or]
  exact ⟨hopening, hstar, hext⟩

theorem Pasted.notMem_variantPattern (h : Pasted c dir) {x : Char}
    (hx : Variants.breaksGlob x = true) (hslash : x ≠ '/') (hstar : x ≠ '*') {m : Text}
    (hm : m ∈ c.variants.markers) : x ∉ variantPattern c dir l.extension m := by
  have hopening := h.notMem_opening hx hslash
  have hmarker := (plain_of_pastable (c.variants.pastable m hm).2).1.notMem hx hslash
  have hext := notMem_extension l hx
  have hafter : x ∉ m ++ '*' :: ('.' :: l.extension) := by
    rw [List.mem_append, not_or, List.mem_cons, not_or]
    exact ⟨hmarker, hstar, hext⟩
  rw [variantPattern_eq, List.mem_append, not_or, List.mem_cons, not_or]
  exact ⟨hopening, hstar, hafter⟩

theorem matchesGlob_casePattern (h : Pasted c dir) (hname : '/' ∉ name) :
    matchesGlob (casePattern c dir l.extension) (d ++ '/' :: name) = true ↔
      d = dir ∧ ∃ middle, name = c.casePrefix ++ (middle ++ '.' :: l.extension) := by
  have hstar := h.notMem_opening (x := '*') (by decide) (by decide)
  have hstar' := notMem_extension l (x := '*') (by decide)
  have hslash := (plain_of_pastable h.casePrefix).2
  have hslash' := notMem_extension l (x := '/') (by decide)
  rw [casePattern_eq, matchesGlob_append hstar]
  simp only [matchesGlob_star, matchesGlob_literal hstar']
  constructor
  · rintro ⟨rest, hpath, run, rest', rfl, hrun, rfl⟩
    rw [List.append_assoc, List.cons_append, append_slash_inj hname] at hpath
    · exact ⟨hpath.1, run, hpath.2⟩
    · simp only [List.mem_append, not_or]
      exact ⟨hslash, hrun, hslash'⟩
  · rintro ⟨rfl, middle, rfl⟩
    simp only [List.mem_append, not_or] at hname
    refine ⟨middle ++ '.' :: l.extension, ?_, middle, _, rfl, hname.2.1, rfl⟩
    simp only [List.append_assoc, List.cons_append]

theorem matchesGlob_variantPattern (h : Pasted c dir) (hname : '/' ∉ name) {m : Text}
    (hm : m.any Variants.breaksGlob = false) :
    matchesGlob (variantPattern c dir l.extension m) (d ++ '/' :: name) = true ↔
      d = dir ∧ ∃ middle, name = c.casePrefix ++ (middle ++ '.' :: l.extension) ∧ m <:+: middle := by
  have hstar := h.notMem_opening (x := '*') (by decide) (by decide)
  have hstar' := notMem_extension l (x := '*') (by decide)
  have hstarm := (plain_of_pastable hm).1.notMem (c := '*') (by decide) (by decide)
  have hslash := (plain_of_pastable h.casePrefix).2
  have hslash' := notMem_extension l (x := '/') (by decide)
  have hslashm := (plain_of_pastable hm).2
  rw [variantPattern_eq, matchesGlob_append hstar]
  simp only [matchesGlob_star, matchesGlob_append hstarm, matchesGlob_literal hstar']
  constructor
  · rintro ⟨rest, hpath, run, rest₁, rfl, hrun, rest₂, rfl, run', rest₃, rfl, hrun', rfl⟩
    rw [List.append_assoc, List.cons_append, append_slash_inj hname] at hpath
    · refine ⟨hpath.1, run ++ (m ++ run'), ?_, ⟨run, run', by simp⟩⟩
      rw [hpath.2]
      simp only [List.append_assoc]
    · simp only [List.mem_append, not_or]
      exact ⟨hslash, hrun, hslashm, hrun', hslash'⟩
  · rintro ⟨rfl, middle, rfl, run, run', rfl⟩
    simp only [List.mem_append, not_or] at hname
    refine ⟨run ++ m ++ run' ++ '.' :: l.extension, ?_, run, _, ?_, hname.2.1.1.1, _, rfl, run', _,
      rfl, hname.2.1.2, rfl⟩
    · simp only [List.append_assoc, List.cons_append]
    · simp only [List.append_assoc]

theorem occursIn_iff {pat t : Text} : occursIn pat t = true ↔ pat <:+: t := by
  rw [occursIn, Option.isSome_iff_ne_none, Ne, cut?_eq_none_iff, Decidable.not_not]

def selects (c : Config) (l : Language) (dir p : Text) : Bool :=
  matchesGlob (casePattern c dir l.extension) p &&
    !c.variants.markers.any fun m => matchesGlob (variantPattern c dir l.extension m) p

theorem select_eq (h : Pasted c dir) (paths : List Text) :
    select (selection c l.extension dir) paths = paths.filter (selects c l dir) := by
  have hcase := h.notMem_casePattern (l := l) (x := ')') (by decide) (by decide) (by decide)
  have hvariant : ∀ m ∈ c.variants.markers, ')' ∉ variantPattern c dir l.extension m :=
    fun m hm => h.notMem_variantPattern (by decide) (by decide) (by decide) hm
  exact select_selection hcase hvariant paths

/-- The expression for a directory selects the portable case files of that directory. -/
theorem selects_iff (h : Pasted c dir) (hname : '/' ∉ name) :
    selects c l dir (d ++ '/' :: name) = true ↔
    d = dir ∧ (∃ middle, name = c.casePrefix ++ (middle ++ '.' :: l.extension)) ∧
      c.variants.isPortable c.casePrefix name = true := by
  rw [selects, Bool.and_eq_true, matchesGlob_casePattern h hname, and_assoc]
  apply and_congr_right
  rintro rfl
  apply and_congr_right
  rintro ⟨middle, rfl⟩
  have hmarker : ∀ m ∈ c.variants.markers,
      matchesGlob (variantPattern c d l.extension m)
        (d ++ '/' :: (c.casePrefix ++ (middle ++ '.' :: l.extension))) =
      occursIn m middle := by
    intro m hm
    rw [Bool.eq_iff_iff, matchesGlob_variantPattern h hname (c.variants.pastable m hm).2,
      occursIn_iff]
    constructor
    · rintro ⟨-, middle', hmiddle, hwithin⟩
      have hsame : middle = middle' := List.append_cancel_right (List.append_cancel_left hmiddle)
      rwa [hsame]
    · intro hwithin
      exact ⟨rfl, middle, rfl, hwithin⟩
  have hany : (c.variants.markers.any fun m => matchesGlob (variantPattern c d l.extension m)
      (d ++ '/' :: (c.casePrefix ++ (middle ++ '.' :: l.extension)))) =
      c.variants.markers.any fun m => occursIn m middle := by
    rw [Bool.eq_iff_iff, List.any_eq_true, List.any_eq_true]
    constructor
    · rintro ⟨m, hm, hmatch⟩
      exact ⟨m, hm, by rwa [hmarker m hm] at hmatch⟩
    · rintro ⟨m, hm, hoccurs⟩
      exact ⟨m, hm, by rwa [hmarker m hm]⟩
  rw [Variants.isPortable, Variants.excludes, CaseName.core_case, hany]

theorem selects_iff_portable (h : Pasted c dir) (hslash : '/' ∉ name) (hline : '\n' ∉ name) :
    selects c l dir (dir ++ '/' :: name) = true ↔ CaseName.isCase c.casePrefix name = true ∧
      '.' :: l.extension <:+ name ∧ c.variants.isPortable c.casePrefix name = true := by
  rw [selects_iff h hslash, ← CaseName.isCase_and_suffix_iff hline, and_assoc]
  exact and_iff_right rfl

end Matching

/-- Of the files of a directory, the expression for a language selects those that have the name of
a case, the extension of the language, and no marker: the three readings of a file name, by a
pattern, by its parts and by globs, agree. -/
theorem selection_agrees_with_filter {c : Config} {dir : Text} (h : Pasted c dir) (l : Language)
    {names : List Text} (hnames : ∀ name ∈ names, '/' ∉ name ∧ '\n' ∉ name) :
    select (selection c l.extension dir) (names.map (dir ++ '/' :: ·)) =
        (names.filter fun name => CaseName.isCase c.casePrefix name ∧
          '.' :: l.extension <:+ name ∧ c.variants.isPortable c.casePrefix name).map
            (dir ++ '/' :: ·) ∧
    ∀ name ∈ names, dir ++ '/' :: name ∈
        select (selection c l.extension dir) (names.map (dir ++ '/' :: ·)) ↔
      CaseName.isCase c.casePrefix name = true ∧ '.' :: l.extension <:+ name ∧
        c.variants.isPortable c.casePrefix name = true := by
  have hiff : ∀ name ∈ names, selects c l dir (dir ++ '/' :: name) = true ↔ _ :=
    fun name hname => selects_iff_portable h (hnames name hname).1 (hnames name hname).2
  rw [select_eq h]
  constructor
  · rw [List.filter_map]
    congr 1
    apply List.filter_congr
    intro name hname
    rw [Bool.eq_iff_iff, decide_eq_true_iff]
    exact hiff name hname
  · intro name hname
    rw [List.mem_filter, hiff name hname]
    exact and_iff_right (List.mem_map_of_mem hname)

end SuiteMake.Recipe

namespace SuiteMake.Sample

/-- Markers of which one holds a dot and one begins like the end of the case prefix. -/
def dottedMarkers : List Text := ["v1.2".toList, [], "EW".toList]

def dottedConfig : Config := { variants := ⟨["v1.2".toList, "EW".toList], by decide⟩ }

def dottedDirectory : Text := "testcases/A".toList

def dottedNames : List Text :=
  ["CWE1.c".toList, "CWEW.c".toList, "CWEEW.c".toList, "CWE_v1.2.c".toList, "CWE1.c.cpp".toList,
    "CWE1.cpp.c".toList, "CWE.c".toList, "xCWE1.c".toList, ".c".toList]

end SuiteMake.Sample

namespace SuiteMake.Recipe

theorem selection_agrees_with_filter_dotted :
    Variants.ofMarkers Sample.dottedMarkers = .ok Sample.dottedConfig.variants ∧
    Pasted Sample.dottedConfig Sample.dottedDirectory ∧
    (∀ name ∈ Sample.dottedNames, '/' ∉ name ∧ '\n' ∉ name) ∧
    select (selection Sample.dottedConfig Language.c.extension Sample.dottedDirectory)
        (Sample.dottedNames.map (Sample.dottedDirectory ++ '/' :: ·)) =
      ["CWE1.c".toList, "CWEW.c".toList, "CWE1.cpp.c".toList, "CWE.c".toList].map
        (Sample.dottedDirectory ++ '/' :: ·) := by
  have hmarkers : Variants.ofMarkers Sample.dottedMarkers = .ok Sample.dottedConfig.variants :=
    toOption_eq_some_iff.mp (by decide)
  have hpasted : Pasted Sample.dottedConfig Sample.dottedDirectory := by
    constructor <;> decide
  have hnames : ∀ name ∈ Sample.dottedNames, '/' ∉ name ∧ '\n' ∉ name := by decide
  have hselect := (selection_agrees_with_filter hpasted .c hnames).1
  exact ⟨hmarkers, hpasted, hnames, hselect.trans (by decide)⟩

end SuiteMake.Recipe

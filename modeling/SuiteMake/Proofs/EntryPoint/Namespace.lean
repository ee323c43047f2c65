import Mathlib.Data.List.Perm.Subperm
import SuiteMake.Proofs.EntryPoint.Grammar

/-!
# C++ entry points and their namespace

A line of a C++ file tells only the kind of an entry point. The qualifier is the name on the first
line that opens a namespace of the case, wherever that line stands.
-/

namespace SuiteMake.Extract

open Text

def DefinesKind (line : Text) (k : Kind) : Prop :=
  ∃ opening, IsOpening opening ∧ Follows "void".toList line (k.text ++ opening)

/-- A line that opens a namespace whose name starts with the case prefix. -/
def OpensCase (casePrefix line : Text) : Prop :=
  ∃ rest, Follows "namespace".toList line (casePrefix ++ rest)

/-- A line that opens a namespace, and the case prefix with all the word characters behind it. The
name is set off by all the blanks there are. -/
def Names (casePrefix line qualifier : Text) : Prop :=
  ∃ word rest, qualifier = casePrefix ++ word ∧ (∀ c ∈ word, isWord c = true) ∧
    rest.head?.any isWord = false ∧ (qualifier ++ rest).head?.any isBlank = false ∧
    Follows "namespace".toList line (qualifier ++ rest)

section Keyword

theorem skipBlanks_of_head {t : Text} (h : t.head?.any isBlank = false) : skipBlanks t = t := by
  cases t with
  | nil => rfl
  | cons c t => exact skipBlanks_cons (by simpa using h) t

theorem skipBlanks_blank {c : Char} (hc : isBlank c = true) (t : Text) :
    skipBlanks (c :: t) = skipBlanks t :=
  List.dropWhile_cons_of_pos hc

theorem head_dropWhile (p : Char → Bool) (t : Text) : (t.dropWhile p).head?.any p = false := by
  have hnot := List.head?_dropWhile_not p t
  cases hhead : (t.dropWhile p).head? with
  | none => rfl
  | some c =>
      rw [hhead] at hnot
      exact hnot

theorem Follows.unique {c : Char} (hc : isBlank c = false) {keyword line t t' : Text}
    (h : Follows (c :: keyword) line t) (h' : Follows (c :: keyword) line t')
    (ht : t.head?.any isBlank = false) (ht' : t'.head?.any isBlank = false) : t = t' := by
  obtain ⟨gap, hgap, hline⟩ := Follows.skipBlanks hc h
  obtain ⟨gap', hgap', hline'⟩ := Follows.skipBlanks hc h'
  have hsame := congrArg Text.skipBlanks (List.append_cancel_left (hline.symm.trans hline'))
  rwa [skipBlanks_append hgap, skipBlanks_append hgap', skipBlanks_of_head ht,
    skipBlanks_of_head ht'] at hsame

variable {α : Type} {read? : Text → Option (α × Text)}

/-- A reader that gains nothing from a blank before what it reads. -/
def IgnoresBlanks (read? : Text → Option (α × Text)) : Prop :=
  ∀ c t, isBlank c = true → read? (skipBlanks t) = none → read? (c :: t) = none

/-- Such a reader is tried after all the blanks; to give some back is of no use to it. -/
theorem findSome?_afterBlanks (h : IgnoresBlanks read?) (t : Text) :
    (afterBlanks t).findSome? read? =
      if t.head?.any isBlank = true then read? (skipBlanks t) else none := by
  induction t with
  | nil => rfl
  | cons c t ih =>
      cases hc : isBlank c with
      | false => simp [afterBlanks, hc]
      | true =>
          rw [afterBlanks, if_pos hc, List.findSome?_append, ih, skipBlanks_blank hc]
          simp only [List.head?_cons, Option.any_some, hc, if_true, List.findSome?_singleton]
          cases t with
          | nil => simp [skipBlanks]
          | cons d t =>
              cases hd : isBlank d with
              | false => simp [skipBlanks_cons hd, hd]
              | true =>
                  rw [skipBlanks_blank hd]
                  cases hread : read? (skipBlanks t) with
                  | none => simp [hd, h d t hd hread]
                  | some found => simp [hd]

theorem findSome?_afterKeyword_iff (h : IgnoresBlanks read?) {c : Char} (hc : isBlank c = false)
    {keyword line : Text} {found : α × Text} :
    (afterKeyword (c :: keyword) line).findSome? read? = some found ↔
      ∃ t, t.head?.any isBlank = false ∧ Follows (c :: keyword) line t ∧ read? t = some found := by
  constructor
  · intro hfound
    rw [afterKeyword] at hfound
    split at hfound
    · rename_i u hword
      rw [findSome?_afterBlanks h] at hfound
      split at hfound
      · rename_i hhead
        refine ⟨skipBlanks u, head_dropWhile isBlank u, ?_, hfound⟩
        obtain ⟨lead, hlead, hline⟩ := exists_skipBlanks line
        obtain ⟨gap, hgap, hu⟩ := exists_skipBlanks u
        have hne : gap ≠ [] := by
          intro hnil
          rw [hnil, List.nil_append] at hu
          rw [hu, skipBlanks, head_dropWhile] at hhead
          cases hhead
        exact ⟨lead, gap, hlead, hgap, hne,
          by rw [← hu, List.append_eq_of_isPrefixOf?_eq_some hword, ← hline]⟩
      · cases hfound
    · cases hfound
  · intro hfound
    obtain ⟨t, hhead, ⟨lead, gap, hlead, hgap, hne, hline⟩, hread⟩ := hfound
    have hskip : skipBlanks line = c :: keyword ++ (gap ++ t) := by
      rw [hline, skipBlanks_append hlead, List.cons_append, skipBlanks_cons hc]
    have hblank : (gap ++ t).head?.any isBlank = true := by
      cases gap with
      | nil => exact absurd rfl hne
      | cons d gap => exact hgap d List.mem_cons_self
    rw [afterKeyword, hskip, List.isPrefixOf?_eq_some_iff_append_eq.mpr rfl]
    simp only [findSome?_afterBlanks h, hblank, if_true]
    rw [skipBlanks_append hgap, skipBlanks_of_head hhead, hread]

end Keyword

section Kinds

theorem kindText_unique {k k' : Kind} {t t' : Text} (h : k.text ++ t = k'.text ++ t') : k = k' := by
  have hfirst := congrArg List.head? h
  cases k <;> cases k' <;> simp [Kind.text] at hfirst ⊢

theorem kindText_head (k : Kind) (t : Text) : (k.text ++ t).head?.any isBlank = false := by
  cases k <;> rfl

private theorem exists_of_kindFunction? {t rest : Text} {k : Kind}
    (h : kindFunction? t = some (k, rest)) :
    ∃ opening, t = k.text ++ opening ∧ definition? opening = some rest := by
  obtain ⟨k', -, hk⟩ := List.exists_of_findSome?_eq_some h
  simp only [Option.bind_eq_bind, Option.bind_eq_some_iff, Option.pure_def, Option.some.injEq,
    Prod.mk.injEq, List.isPrefixOf?_eq_some_iff_append_eq] at hk
  obtain ⟨opening, ht, rest', hdefinition, rfl, rfl⟩ := hk
  exact ⟨opening, ht.symm, hdefinition⟩

theorem kindFunction?_append {k : Kind} {opening rest : Text}
    (h : definition? opening = some rest) :
    kindFunction? (k.text ++ opening) = some (k, rest) := by
  have hread : (k.text.isPrefixOf? (k.text ++ opening)).bind (fun t =>
      (definition? t).bind fun rest => some (k, rest)) = some (k, rest) := by
    rw [List.isPrefixOf?_eq_some_iff_append_eq.mpr rfl, Option.bind_some, h, Option.bind_some]
  have hsome : (kindFunction? (k.text ++ opening)).isSome = true :=
    List.findSome?_isSome_iff.mpr ⟨k, by cases k <;> decide, by
      exact Option.isSome_iff_exists.mpr ⟨_, hread⟩⟩
  obtain ⟨⟨k', rest'⟩, hfound⟩ := Option.isSome_iff_exists.mp hsome
  obtain ⟨opening', ht, hdefinition⟩ := exists_of_kindFunction? hfound
  have hkind := kindText_unique ht
  rw [← hkind] at ht hfound
  rw [← List.append_cancel_left ht, h] at hdefinition
  rw [hfound, Option.some.inj hdefinition]

theorem kindFunction?_ignoresBlanks : IgnoresBlanks kindFunction? := by
  intro c t hc _
  cases hread : kindFunction? (c :: t) with
  | none => rfl
  | some found =>
      obtain ⟨opening, ht, -⟩ := exists_of_kindFunction? hread
      have hhead := kindText_head found.1 opening
      rw [← ht] at hhead
      simp [hc] at hhead

theorem cppDefinition?_iff {line : Text} (hn : '\n' ∉ line) {k : Kind} :
    (∃ rest, cppDefinition? line = some (k, rest)) ↔ DefinesKind line k := by
  have hvoid : isBlank 'v' = false := by decide
  have hkeyword (rest : Text) : cppDefinition? line = some (k, rest) ↔ _ :=
    findSome?_afterKeyword_iff kindFunction?_ignoresBlanks hvoid
  constructor
  · intro h
    obtain ⟨rest, hread⟩ := h
    obtain ⟨t, -, hfollows, hkind⟩ := (hkeyword rest).mp hread
    obtain ⟨opening, ht, hdefinition⟩ := exists_of_kindFunction? hkind
    have hfree : '\n' ∉ opening := by
      intro hmem
      exact hfollows.notMem hn (by rw [ht]; exact List.mem_append_right _ hmem)
    refine ⟨opening, ?_, by rwa [ht] at hfollows⟩
    rw [← isSome_definition?_iff hfree, hdefinition]
    rfl
  · intro h
    obtain ⟨opening, hopening, hfollows⟩ := h
    have hfree : '\n' ∉ opening := fun hmem =>
      hfollows.notMem hn (List.mem_append_right _ hmem)
    obtain ⟨rest, hrest⟩ :=
      Option.isSome_iff_exists.mp ((isSome_definition?_iff hfree).mpr hopening)
    exact ⟨rest, (hkeyword rest).mpr ⟨_, kindText_head k opening, hfollows,
      kindFunction?_append hrest⟩⟩

theorem DefinesKind.unique {line : Text} {k k' : Kind} (h : DefinesKind line k)
    (h' : DefinesKind line k') : k = k' := by
  obtain ⟨opening, -, hfollows⟩ := h
  obtain ⟨opening', -, hfollows'⟩ := h'
  exact kindText_unique
    (hfollows.unique (by decide) hfollows' (kindText_head k _) (kindText_head k' _))

end Kinds

section Namespaces

variable {casePrefix line : Text}

theorem caseName?_append (casePrefix t : Text) : caseName? casePrefix (casePrefix ++ t) =
    some (casePrefix ++ t.takeWhile isWord, t.dropWhile isWord) := by
  rw [caseName?, List.isPrefixOf?_eq_some_iff_append_eq.mpr rfl]
  rfl

private theorem exists_of_caseName? {t : Text} {found : Text × Text}
    (h : caseName? casePrefix t = some found) : ∃ rest, t = casePrefix ++ rest := by
  simp only [caseName?, Option.bind_eq_bind, Option.bind_eq_some_iff,
    List.isPrefixOf?_eq_some_iff_append_eq] at h
  obtain ⟨rest, ht, -⟩ := h
  exact ⟨rest, ht.symm⟩

theorem caseName?_ignoresBlanks (hblank : casePrefix.head?.any isBlank = false) :
    IgnoresBlanks (caseName? casePrefix) := by
  intro c t hc hnone
  cases casePrefix with
  | nil => cases (caseName?_append [] (skipBlanks t)).symm.trans hnone
  | cons d casePrefix =>
      cases hread : caseName? (d :: casePrefix) (c :: t) with
      | none => rfl
      | some found =>
          obtain ⟨rest, ht⟩ := exists_of_caseName? hread
          have hcd : c = d := (List.cons.inj ht).1
          simp [← hcd, hc] at hblank

theorem isSome_caseNamespace?_iff :
    (caseNamespace? casePrefix line).isSome = true ↔ OpensCase casePrefix line := by
  have hkeyword {rest : Text} : rest ∈ afterKeyword "namespace".toList line ↔
      Follows "namespace".toList line rest := mem_afterKeyword_iff (by decide)
  rw [caseNamespace?, List.findSome?_isSome_iff]
  constructor
  · intro h
    obtain ⟨t, hmem, hsome⟩ := h
    obtain ⟨found, hfound⟩ := Option.isSome_iff_exists.mp hsome
    obtain ⟨rest, ht⟩ := exists_of_caseName? hfound
    exact ⟨rest, ht ▸ hkeyword.mp hmem⟩
  · intro h
    obtain ⟨rest, hfollows⟩ := h
    exact ⟨_, hkeyword.mpr hfollows, by rw [caseName?_append]; rfl⟩

theorem names_of_caseNamespace? (hblank : casePrefix.head?.any isBlank = false)
    {qualifier rest : Text} (h : caseNamespace? casePrefix line = some (qualifier, rest)) :
    Names casePrefix line qualifier := by
  have hnamespace : isBlank 'n' = false := by decide
  obtain ⟨t, hhead, hfollows, hread⟩ :=
    (findSome?_afterKeyword_iff (caseName?_ignoresBlanks hblank) hnamespace).mp h
  obtain ⟨u, ht⟩ := exists_of_caseName? hread
  rw [ht, caseName?_append, Option.some.injEq, Prod.mk.injEq] at hread
  have hname : t = qualifier ++ u.dropWhile isWord := by
    rw [← hread.1, List.append_assoc, List.takeWhile_append_dropWhile, ht]
  rw [hname] at hhead hfollows
  exact ⟨u.takeWhile isWord, u.dropWhile isWord, hread.1.symm,
    List.all_eq_true.mp List.all_takeWhile, head_dropWhile isWord u, hhead, hfollows⟩

theorem Names.opensCase {qualifier : Text} (h : Names casePrefix line qualifier) :
    OpensCase casePrefix line := by
  obtain ⟨w, rest, hqualifier, -, -, -, hfollows⟩ := h
  refine ⟨w ++ rest, ?_⟩
  rwa [← List.append_assoc, ← hqualifier]

private theorem takeWhile_word {w rest : Text} (hw : ∀ c ∈ w, isWord c = true)
    (hrest : rest.head?.any isWord = false) : (w ++ rest).takeWhile isWord = w := by
  rw [List.takeWhile_append_of_pos hw]
  cases rest with
  | nil => simp
  | cons c rest =>
      have hc : isWord c = false := hrest
      rw [List.takeWhile_cons_of_neg (by simp [hc]), List.append_nil]

theorem Names.unique {qualifier qualifier' : Text} (h : Names casePrefix line qualifier)
    (h' : Names casePrefix line qualifier') : qualifier = qualifier' := by
  obtain ⟨w, rest, hqualifier, hw, hrest, hhead, hfollows⟩ := h
  obtain ⟨w', rest', hqualifier', hw', hrest', hhead', hfollows'⟩ := h'
  have hname := hfollows.unique (by decide) hfollows' hhead hhead'
  rw [hqualifier, hqualifier', List.append_assoc, List.append_assoc] at hname
  have hword := congrArg (List.takeWhile isWord) (List.append_cancel_left hname)
  rw [takeWhile_word hw hrest, takeWhile_word hw' hrest'] at hword
  rw [hqualifier, hqualifier', hword]

end Namespaces

section Distinct

variable {α β : Type} [BEq α] [LawfulBEq α] [BEq β] [LawfulBEq β]

theorem nodup_eraseDups (xs : List α) : xs.eraseDups.Nodup := by
  cases xs with
  | nil => simp
  | cons x xs =>
      rw [List.eraseDups_cons, List.nodup_cons, List.mem_eraseDups]
      exact ⟨by simp, nodup_eraseDups _⟩
termination_by xs.length
decreasing_by exact Nat.lt_succ_of_le (List.length_filter_le _ _)

theorem eraseDups_map {f : α → β} (hf : ∀ x y, f x = f y → x = y) (xs : List α) :
    (xs.map f).eraseDups = xs.eraseDups.map f := by
  cases xs with
  | nil => rfl
  | cons x xs =>
      have hkept : (xs.map f).filter (fun z => !z == f x) =
          (xs.filter fun y => !y == x).map f := by
        rw [List.filter_map]
        congr 1
        apply List.filter_congr
        intro y _
        have hsame : (f y == f x) = (y == x) := by
          rw [Bool.eq_iff_iff, beq_iff_eq, beq_iff_eq]
          exact ⟨hf y x, congrArg f⟩
        rw [Function.comp_apply, hsame]
      rw [List.map_cons, List.eraseDups_cons, List.eraseDups_cons, List.map_cons, hkept,
        eraseDups_map hf]
termination_by xs.length
decreasing_by exact Nat.lt_succ_of_le (List.length_filter_le _ _)

end Distinct

section Files

variable {casePrefix : Text}

/-- What a line says about an entry point of a C++ file. -/
def kindOn (line : Text) : Option Kind := (cppDefinition? line).map Prod.fst

def nameOn (casePrefix line : Text) : Option Text := (caseNamespace? casePrefix line).map Prod.fst

theorem signatures_cpp (hp : '\n' ∉ casePrefix) (t : Text) : signatures casePrefix .cpp t =
    ((lines t).findSome? (nameOn casePrefix)).elim [] fun qualifier =>
      ((lines t).filterMap kindOn).eraseDups.map (Signature.mk qualifier) := by
  have hname : ((lineStarts t).findSome? (caseNamespace? casePrefix)).map Prod.fst =
      (lines t).findSome? (nameOn casePrefix) :=
    findSome?_lineStarts (caseNamespace?_staysOnLine hp) t
  have hkinds : findAll cppDefinition? t = (lines t).filterMap kindOn :=
    findAll_eq cppDefinition?_staysOnLine t
  rw [signatures.eq_def, ← hname, ← hkinds]
  cases (lineStarts t).findSome? (caseNamespace? casePrefix) with
  | none => rfl
  | some found =>
      have hinj (k k' : Kind) (h : Signature.mk found.1 k = Signature.mk found.1 k') : k = k' :=
        congrArg Signature.kind h
      exact eraseDups_map hinj _

theorem length_eraseDups_kinds (ks : List Kind) : ks.eraseDups.length ≤ 2 := by
  have hall : ks.eraseDups ⊆ Kind.all := by
    intro k _
    cases k <;> decide
  exact ((nodup_eraseDups ks).subperm hall).length_le

theorem nameOn_eq_none_iff {line : Text} :
    nameOn casePrefix line = none ↔ ¬ OpensCase casePrefix line := by
  rw [← isSome_caseNamespace?_iff, nameOn, Option.map_eq_none_iff, Option.not_isSome_iff_eq_none]

theorem nameOn_eq_some_iff (hblank : casePrefix.head?.any isBlank = false)
    {line qualifier : Text} :
    nameOn casePrefix line = some qualifier ↔ Names casePrefix line qualifier := by
  have hnames {name : Text} (h : nameOn casePrefix line = some name) :
      Names casePrefix line name := by
    obtain ⟨found, hfound, hfst⟩ := Option.map_eq_some_iff.mp h
    rw [← hfst]
    exact names_of_caseNamespace? hblank hfound
  refine ⟨hnames, ?_⟩
  intro h
  cases hread : nameOn casePrefix line with
  | none => exact absurd h.opensCase (nameOn_eq_none_iff.mp hread)
  | some name => rw [h.unique (hnames hread)]

theorem signatures_cpp_of_first (hp : '\n' ∉ casePrefix) {t line qualifier : Text}
    {above below : List Text} (ht : lines t = above ++ line :: below)
    (habove : ∀ l ∈ above, ¬ OpensCase casePrefix l)
    (hline : nameOn casePrefix line = some qualifier) :
    signatures casePrefix .cpp t =
      ((lines t).filterMap kindOn).eraseDups.map (Signature.mk qualifier) := by
  have hnone : above.findSome? (nameOn casePrefix) = none :=
    List.findSome?_eq_none_iff.mpr fun l hl => nameOn_eq_none_iff.mpr (habove l hl)
  have hfirst : (lines t).findSome? (nameOn casePrefix) = some qualifier := by
    rw [ht, List.findSome?_append, hnone, Option.none_or, List.findSome?_cons, hline]
  rw [signatures_cpp hp, hfirst]
  rfl

theorem exists_signatures_cpp (hp : '\n' ∉ casePrefix) (t : Text) :
    ∃ (qualifier : Text) (ks : List Kind), signatures casePrefix .cpp t =
      ks.eraseDups.map (Signature.mk qualifier) := by
  rw [signatures_cpp hp]
  cases (lines t).findSome? (nameOn casePrefix) with
  | none => exact ⟨[], [], rfl⟩
  | some qualifier => exact ⟨qualifier, _, rfl⟩

end Files

/-- The entry points of a C++ file are of the kinds its lines define, each once and in the order of
first definition, and all of them are qualified by the name on the first line that opens a namespace
of the case. A file without such a line has none. -/
theorem cpp_signatures_exact {casePrefix : Text} (hp : '\n' ∉ casePrefix)
    (hblank : casePrefix.head?.any isBlank = false) :
    (∀ line k k', DefinesKind line k → DefinesKind line k' → k = k') ∧
    (∀ line q q', Names casePrefix line q → Names casePrefix line q' → q = q') ∧
    ∃ yields : Text → Option Kind,
      (∀ line, '\n' ∉ line → ∀ k, yields line = some k ↔ DefinesKind line k) ∧
      ∀ t,
        ((∀ line ∈ lines t, ¬ OpensCase casePrefix line) → signatures casePrefix .cpp t = []) ∧
        (∀ above line below, lines t = above ++ line :: below →
          (∀ l ∈ above, ¬ OpensCase casePrefix l) → OpensCase casePrefix line →
          ∃ q, Names casePrefix line q ∧ signatures casePrefix .cpp t =
            ((lines t).filterMap yields).eraseDups.map (Signature.mk q)) ∧
        (signatures casePrefix .cpp t).length ≤ 2 ∧ (signatures casePrefix .cpp t).Nodup ∧
        ∀ s ∈ signatures casePrefix .cpp t, ∀ s' ∈ signatures casePrefix .cpp t,
          s.qualifier = s'.qualifier := by
  refine ⟨fun line k k' h h' => h.unique h', fun line q q' h h' => h.unique h', kindOn, ?_, ?_⟩
  · intro line hline k
    rw [← cppDefinition?_iff hline, kindOn]
    simp
  · intro t
    obtain ⟨q, ks, hsignatures⟩ := exists_signatures_cpp hp t
    have hqualifier : ∀ s ∈ signatures casePrefix .cpp t, s.qualifier = q := by
      intro s hs
      rw [hsignatures] at hs
      obtain ⟨k, -, rfl⟩ := List.mem_map.mp hs
      rfl
    refine ⟨?_, ?_, ?_, ?_, fun s hs s' hs' => (hqualifier s hs).trans (hqualifier s' hs').symm⟩
    · intro hnone
      have hfirst : (lines t).findSome? (nameOn casePrefix) = none :=
        List.findSome?_eq_none_iff.mpr fun l hl => nameOn_eq_none_iff.mpr (hnone l hl)
      rw [signatures_cpp hp, hfirst]
      rfl
    · intro above line below ht habove hopens
      have hname : nameOn casePrefix line ≠ none := fun hnone =>
        nameOn_eq_none_iff.mp hnone hopens
      obtain ⟨q', hname⟩ := Option.ne_none_iff_exists'.mp hname
      exact ⟨q', (nameOn_eq_some_iff hblank).mp hname, signatures_cpp_of_first hp ht habove hname⟩
    · rw [hsignatures, List.length_map]
      exact length_eraseDups_kinds ks
    · rw [hsignatures]
      exact List.Pairwise.map _ (fun k k' hne heq => hne (congrArg Signature.kind heq))
        (nodup_eraseDups ks)

end SuiteMake.Extract

namespace SuiteMake.Sample

def twoWordPrefix : Text := "C W".toList

/-- Two lines open a namespace of the case, and a definition stands before both. -/
def lateLines : List Text :=
  ["void bad ()".toList, "using namespace C W9;".toList, "\tnamespace  C W1::x".toList,
    "namespace C W2".toList, "void good(void)\x7b".toList, "void bad()".toList]

def lateSource : Text := List.intercalate ['\n'] lateLines

end SuiteMake.Sample

theorem SuiteMake.Extract.cpp_signatures_exact_late :
    '\n' ∉ Sample.twoWordPrefix ∧ Sample.twoWordPrefix.head?.any Text.isBlank = false ∧
    signatures Sample.twoWordPrefix .cpp Sample.lateSource =
      [⟨"C W1".toList, .bad⟩, ⟨"C W1".toList, .good⟩] ∧
    ∃ (yields : Text → Option Kind) (q : Text),
      (∀ line, '\n' ∉ line → ∀ k, yields line = some k ↔ DefinesKind line k) ∧
      Names Sample.twoWordPrefix "\tnamespace  C W1::x".toList q ∧
      signatures Sample.twoWordPrefix .cpp Sample.lateSource =
        ((Text.lines Sample.lateSource).filterMap yields).eraseDups.map (Signature.mk q) := by
  have hp : '\n' ∉ Sample.twoWordPrefix := by decide
  have hblank : Sample.twoWordPrefix.head?.any Text.isBlank = false := rfl
  obtain ⟨yields, hyields, hall⟩ := (cpp_signatures_exact hp hblank).2.2
  have hnone : ∀ l ∈ Sample.lateLines.take 2, nameOn Sample.twoWordPrefix l = none := by decide
  have hopens : OpensCase Sample.twoWordPrefix "\tnamespace  C W1::x".toList :=
    isSome_caseNamespace?_iff.mp rfl
  obtain ⟨q, hnames, hsignatures⟩ := (hall Sample.lateSource).2.1 (Sample.lateLines.take 2)
    "\tnamespace  C W1::x".toList (Sample.lateLines.drop 3) rfl
    (fun l hl => nameOn_eq_none_iff.mp (hnone l hl)) hopens
  exact ⟨hp, hblank, rfl, yields, q, hyields, hnames, hsignatures⟩

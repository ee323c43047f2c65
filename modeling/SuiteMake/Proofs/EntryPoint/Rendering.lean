import SuiteMake.Proofs.EntryPoint.Namespace

/-!
# Reading entry points that were written

Definitions of entry points are read back as they were written. Calls and declarations are not taken
for definitions, whatever the qualifiers are.
-/

namespace SuiteMake.Extract

open Text

def definitionLines (name : Text) : List Text :=
  ["void ".toList ++ name ++ "()".toList, ['\x7b'], ['\x7d']]

def cSource (ss : List Signature) : Text :=
  (ss.flatMap fun s => definitionLines (s.qualifier ++ '_' :: s.kind.text)).flatMap (· ++ ['\n'])

def cppSource (qualifier : Text) (ks : List Kind) : Text :=
  (("namespace ".toList ++ qualifier) :: ['\x7b'] ::
    ks.flatMap fun k => definitionLines k.text).flatMap (· ++ ['\n'])

def Mentions (casePrefix line : Text) : Prop :=
  ∃ (indent ending : Text) (e : EntryPoint), Blanks indent ∧ (ending = [] ∨ ending = ['\r']) ∧
    Qualifies casePrefix e.qualifier ∧
    (line = indent ++ (e.call ++ ending) ∨ line = indent ++ (e.declaration ++ ending))

section Definitions

theorem isOpening_parentheses : IsOpening "()".toList :=
  ⟨[], [], [], [], [], [], by simp [Blanks], by simp [Blanks], by simp [Blanks], by simp [Blanks],
    Or.inl rfl, Or.inr (Or.inl rfl), rfl⟩

theorem follows_blank (keyword t : Text) : Follows keyword (keyword ++ ' ' :: t) t :=
  ⟨[], [' '], by simp [Blanks], by simp [Blanks, isBlank], by simp, rfl⟩

theorem filterMap_definitionLines {α : Type} {read : Text → Option α} {name : α → Text}
    (hopen : read ['\x7b'] = none) (hclose : read ['\x7d'] = none) {xs : List α}
    (hread : ∀ x ∈ xs, read ("void ".toList ++ name x ++ "()".toList) = some x) :
    (xs.flatMap fun x => definitionLines (name x)).filterMap read = xs := by
  induction xs with
  | nil => rfl
  | cons x xs ih =>
      have htail := ih fun y hy => hread y (List.mem_cons_of_mem x hy)
      rw [List.flatMap_cons, List.filterMap_append, htail]
      simp only [definitionLines, List.filterMap_cons, hread x List.mem_cons_self, hopen, hclose,
        List.filterMap_nil, List.singleton_append]

theorem newline_notMem_definitionLines {name : Text} (h : '\n' ∉ name) :
    ∀ line ∈ definitionLines name, '\n' ∉ line := by
  simp [definitionLines, h]

theorem newline_notMem_flatMap_definitionLines {α : Type} {name : α → Text} {xs : List α}
    (h : ∀ x ∈ xs, '\n' ∉ name x) :
    ∀ line ∈ xs.flatMap fun x => definitionLines (name x), '\n' ∉ line := by
  intro line hline
  obtain ⟨x, hx, hmem⟩ := List.mem_flatMap.mp hline
  exact newline_notMem_definitionLines (h x hx) line hmem

end Definitions

section Words

variable {casePrefix qualifier : Text} (hp : ∀ c ∈ casePrefix, isWord c = true)

include hp

theorem Qualifies.all_word (h : Qualifies casePrefix qualifier) :
    ∀ c ∈ qualifier, isWord c = true := by
  obtain ⟨word, hqualifier, hword⟩ := h
  intro c hc
  rw [hqualifier] at hc
  rcases List.mem_append.mp hc with hc | hc
  · exact hp c hc
  · exact hword c hc

theorem Qualifies.notMem (h : Qualifies casePrefix qualifier) {c : Char} (hc : isWord c = false) :
    c ∉ qualifier := by
  intro hmem
  rw [h.all_word hp c hmem] at hc
  cases hc

theorem head_word : casePrefix.head?.any isBlank = false := by
  cases casePrefix with
  | nil => rfl
  | cons c casePrefix => exact isBlank_of_isWord (hp c List.mem_cons_self)

end Words

section Sources

variable {casePrefix : Text} (hp : ∀ c ∈ casePrefix, isWord c = true)

include hp

theorem newline_notMem_word : '\n' ∉ casePrefix := by
  intro hmem
  exact absurd (hp _ hmem) (by decide)

theorem Qualifies.newline_notMem {s : Signature} (h : Qualifies casePrefix s.qualifier) :
    '\n' ∉ s.qualifier ++ '_' :: s.kind.text := by
  have hkind : '\n' ∉ '_' :: s.kind.text := by cases s.kind <;> decide
  rw [List.mem_append, not_or]
  exact ⟨h.notMem hp (by decide), hkind⟩

theorem cDefinition?_definitionLines {s : Signature} (h : Qualifies casePrefix s.qualifier) :
    (cDefinition? casePrefix ("void ".toList ++ (s.qualifier ++ '_' :: s.kind.text) ++
      "()".toList)).map Prod.fst = some s := by
  have hline := newline_notMem_definitionLines (h.newline_notMem hp) _ List.mem_cons_self
  have hdefines : Defines casePrefix
      ("void ".toList ++ (s.qualifier ++ '_' :: s.kind.text) ++ "()".toList) s := by
    refine ⟨"()".toList, h, isOpening_parentheses, ?_⟩
    rw [List.append_assoc, List.append_assoc]
    exact follows_blank "void".toList _
  obtain ⟨rest, hrest⟩ := (cDefinition?_iff hline).mpr hdefines
  rw [hrest]
  rfl

theorem signatures_cSource {ss : List Signature}
    (hss : ∀ s ∈ ss, Qualifies casePrefix s.qualifier) :
    signatures casePrefix .c (cSource ss) = ss.eraseDups := by
  have hlines := newline_notMem_flatMap_definitionLines fun s hs => (hss s hs).newline_notMem hp
  have hread := fun s hs => cDefinition?_definitionLines hp (hss s hs)
  have hwritten := lines_flatMap hlines []
  rw [List.append_nil] at hwritten
  rw [signatures, findAll_eq (cDefinition?_staysOnLine (newline_notMem_word hp)), cSource, hwritten,
    List.filterMap_append, filterMap_definitionLines rfl rfl hread]
  exact congrArg List.eraseDups (List.append_nil ss)

theorem nameOn_heading {qualifier : Text} (hq : Qualifies casePrefix qualifier) :
    nameOn casePrefix ("namespace ".toList ++ qualifier) = some qualifier := by
  have hhead := head_word (hq.all_word hp)
  obtain ⟨word, hqualifier, hword⟩ := hq
  refine (nameOn_eq_some_iff (head_word hp)).mpr ⟨word, [], hqualifier, hword, rfl, ?_, ?_⟩ <;>
    rw [List.append_nil]
  · exact hhead
  · exact follows_blank "namespace".toList qualifier

omit hp in
theorem lines_cppSource {qualifier : Text} (hq : '\n' ∉ qualifier) (ks : List Kind) :
    lines (cppSource qualifier ks) = ("namespace ".toList ++ qualifier) :: ['\x7b'] ::
      (ks.flatMap (fun k => definitionLines k.text) ++ [[]]) := by
  have hkind (k : Kind) (_ : k ∈ ks) : '\n' ∉ k.text := by cases k <;> decide
  have hlines : ∀ line ∈ ("namespace ".toList ++ qualifier) :: ['\x7b'] ::
      ks.flatMap (fun k => definitionLines k.text), '\n' ∉ line := by
    simp only [List.forall_mem_cons]
    exact ⟨by simpa using hq, by decide, newline_notMem_flatMap_definitionLines hkind⟩
  have hwritten := lines_flatMap hlines []
  rw [List.append_nil] at hwritten
  exact hwritten

theorem signatures_cppSource {qualifier : Text} (hq : Qualifies casePrefix qualifier)
    (ks : List Kind) :
    signatures casePrefix .cpp (cppSource qualifier ks) =
      ks.eraseDups.map (Signature.mk qualifier) := by
  have hlines := lines_cppSource (hq.notMem hp (by decide)) ks
  have hkinds : (lines (cppSource qualifier ks)).filterMap kindOn = ks := by
    have hheading : kindOn ("namespace ".toList ++ qualifier) = none := rfl
    have hopen : kindOn ['\x7b'] = none := rfl
    have hclose : kindOn ['\x7d'] = none := rfl
    have hend : kindOn [] = none := rfl
    have hdefinition : ∀ k ∈ ks, kindOn ("void ".toList ++ k.text ++ "()".toList) = some k := by
      intro k _
      cases k <;> rfl
    rw [hlines, List.filterMap_cons_none hheading, List.filterMap_cons_none hopen,
      List.filterMap_append, filterMap_definitionLines hopen hclose hdefinition,
      List.filterMap_cons_none hend, List.filterMap_nil, List.append_nil]
  have habove : ∀ l ∈ ([] : List Text), ¬ OpensCase casePrefix l := by simp
  rw [signatures_cpp_of_first (newline_notMem_word hp) hlines habove (nameOn_heading hp hq), hkinds]

end Sources

section Mentioned

theorem notMem_of_blanks {gap : Text} (h : Blanks gap) {c : Char} (hc : isBlank c = false) :
    c ∉ gap := by
  intro hmem
  rw [h c hmem] at hc
  cases hc

theorem IsOpening.brace_mem {t : Text} (h : IsOpening t) (hmem : ';' ∈ t) : '\x7b' ∈ t := by
  obtain ⟨a, b, c, d, void, rest, ha, hb, hc, hd, hvoid, hrest, ht⟩ := h
  have hblank : isBlank ';' = false := by decide
  rcases hrest with hbrace | hrest
  · rw [ht]
    simp [List.mem_of_mem_head? (Option.mem_def.mpr hbrace)]
  · have hend : ';' ∉ rest := by rcases hrest with rfl | rfl <;> decide
    have hword : ';' ∉ void := by rcases hvoid with rfl | rfl <;> decide
    rw [ht] at hmem
    simp [notMem_of_blanks ha hblank, notMem_of_blanks hb hblank, notMem_of_blanks hc hblank,
      notMem_of_blanks hd hblank, hend, hword] at hmem

/-- A line that opens a definition holds no semicolon before its brace. -/
theorem brace_mem_of_follows {line name opening : Text} (hname : ∀ c ∈ name, isWord c = true)
    (hopening : IsOpening opening) (h : Follows "void".toList line (name ++ opening))
    (hmem : ';' ∈ line) : '\x7b' ∈ line := by
  obtain ⟨lead, gap, hlead, hgap, -, hline⟩ := h
  have hblank : isBlank ';' = false := by decide
  have hvoid : ';' ∉ "void".toList := by decide
  have hnot : ';' ∉ name := fun hmem => absurd (hname ';' hmem) (by decide)
  rw [hline] at hmem ⊢
  simp only [List.mem_append, notMem_of_blanks hlead hblank, notMem_of_blanks hgap hblank, hvoid,
    hnot, false_or] at hmem ⊢
  simp [hopening.brace_mem hmem]

theorem Follows.head_skipBlanks {c : Char} (hc : isBlank c = false) {keyword line rest : Text}
    (h : Follows (c :: keyword) line rest) : (Text.skipBlanks line).head? = some c := by
  obtain ⟨gap, -, hline⟩ := Follows.skipBlanks hc h
  rw [hline]
  rfl

variable {casePrefix line : Text} (hp : ∀ c ∈ casePrefix, isWord c = true)

include hp

theorem Mentions.semicolon_or_namespace (h : Mentions casePrefix line) :
    ';' ∈ line ∧ '\x7b' ∉ line ∨ (skipBlanks line).head? = some 'n' := by
  obtain ⟨indent, ending, e, hindent, hending, hqualifies, hline⟩ := h
  have hbrace : '\x7b' ∉ indent := notMem_of_blanks hindent (by decide)
  have hbrace' : '\x7b' ∉ ending := by rcases hending with rfl | rfl <;> decide
  have hqualifier : '\x7b' ∉ e.qualifier := hqualifies.notMem hp (by decide)
  have hkind : '\x7b' ∉ e.kind.text := by cases e.kind <;> decide
  rcases hline with hline | hline
  · left
    rw [hline, EntryPoint.call]
    cases e.language <;> simp [hbrace, hbrace', hqualifier, hkind]
  · rw [EntryPoint.declaration] at hline
    cases hlanguage : e.language with
    | c =>
        left
        rw [hline, hlanguage]
        simp [hbrace, hbrace', hqualifier, hkind]
    | cpp =>
        right
        rw [hline, hlanguage, skipBlanks_append hindent]
        rfl

theorem Mentions.not_follows (h : Mentions casePrefix line) {name opening : Text}
    (hname : ∀ c ∈ name, isWord c = true) (hopening : IsOpening opening) :
    ¬ Follows "void".toList line (name ++ opening) := by
  intro hfollows
  rcases h.semicolon_or_namespace hp with hsemicolon | hfirst
  · exact hsemicolon.2 (brace_mem_of_follows hname hopening hfollows hsemicolon.1)
  · rw [Follows.head_skipBlanks (by decide) hfollows] at hfirst
    exact absurd hfirst (by decide)

theorem Mentions.not_defines (h : Mentions casePrefix line) (s : Signature) :
    ¬ Defines casePrefix line s := by
  intro hdefines
  obtain ⟨opening, hqualifies, hopening, hfollows⟩ := hdefines
  have hname : ∀ c ∈ s.qualifier ++ '_' :: s.kind.text, isWord c = true := by
    intro c hc
    rcases List.mem_append.mp hc with hc | hc
    · exact hqualifies.all_word hp c hc
    · exact isWord_of_mem_kind hc
  rw [← List.append_assoc] at hfollows
  exact h.not_follows hp hname hopening hfollows

theorem Mentions.not_definesKind (h : Mentions casePrefix line) (k : Kind) :
    ¬ DefinesKind line k := by
  intro hdefines
  obtain ⟨opening, hopening, hfollows⟩ := hdefines
  have hname : ∀ c ∈ k.text, isWord c = true := fun c hc =>
    isWord_of_mem_kind (List.mem_cons_of_mem '_' hc)
  exact h.not_follows hp hname hopening hfollows

theorem signatures_of_mentions {t : Text}
    (h : ∀ line ∈ lines t, line = [] ∨ Mentions casePrefix line) (l : Language) :
    signatures casePrefix l t = [] := by
  have hn : '\n' ∉ casePrefix := newline_notMem_word hp
  have hfree {line : Text} (hline : line ∈ lines t) : '\n' ∉ line :=
    (notMem_of_mem_splitOn hline).1
  cases l with
  | c =>
      have hnone : (lines t).filterMap (fun line => (cDefinition? casePrefix line).map Prod.fst) =
          [] := by
        rw [List.filterMap_eq_nil_iff]
        intro line hline
        rcases h line hline with rfl | hmentions
        · rfl
        · cases hread : cDefinition? casePrefix line with
          | none => rfl
          | some found =>
              have hdefines := (cDefinition?_iff (hfree hline)).mp ⟨found.2, hread⟩
              exact absurd hdefines (hmentions.not_defines hp found.1)
      rw [signatures, findAll_eq (cDefinition?_staysOnLine hn), hnone]
      rfl
  | cpp =>
      have hnone : (lines t).filterMap kindOn = [] := by
        rw [List.filterMap_eq_nil_iff]
        intro line hline
        rcases h line hline with rfl | hmentions
        · rfl
        · cases hread : cppDefinition? line with
          | none => rw [kindOn, hread, Option.map_none]
          | some found =>
              have hdefines := (cppDefinition?_iff (hfree hline)).mp ⟨found.2, hread⟩
              exact absurd hdefines (hmentions.not_definesKind hp found.1)
      rw [signatures_cpp hn, hnone]
      cases (lines t).findSome? (nameOn casePrefix) <;> rfl

end Mentioned

/-- Entry points are read back from their definitions, each once and in the order they were written,
and not from lines that call or declare them. -/
theorem extraction_undoes_rendering {casePrefix : Text}
    (hp : ∀ c ∈ casePrefix, isWord c = true) :
    (∀ ss : List Signature, (∀ s ∈ ss, Qualifies casePrefix s.qualifier) →
      signatures casePrefix .c (cSource ss) = ss.eraseDups) ∧
    (∀ qualifier, Qualifies casePrefix qualifier → ∀ ks : List Kind,
      signatures casePrefix .cpp (cppSource qualifier ks) =
        ks.eraseDups.map (Signature.mk qualifier)) ∧
    ∀ t, (∀ line ∈ lines t, line = [] ∨ Mentions casePrefix line) →
      ∀ l, signatures casePrefix l t = [] :=
  ⟨fun _ hss => signatures_cSource hp hss, fun _ hq ks => signatures_cppSource hp hq ks,
    fun _ h l => signatures_of_mentions hp h l⟩

end SuiteMake.Extract

namespace SuiteMake.Sample

/-- Entry points of cases that are called like a keyword. -/
def voidSignatures : List Signature :=
  [⟨"void_good".toList, .bad⟩, ⟨"void".toList, .good⟩, ⟨"void_good".toList, .bad⟩]

def voidEntry : EntryPoint where
  source := []
  language := .cpp
  qualifier := "void".toList
  kind := .good
  portable := true

/-- A call, a declaration, and a call before a carriage return. -/
def voidMentions : List Text :=
  ['\t' :: EntryPoint.call { voidEntry with language := .c }, voidEntry.declaration,
    voidEntry.call ++ ['\r'], []]

end SuiteMake.Sample

namespace SuiteMake.Extract

theorem extraction_undoes_rendering_void :
    (∀ c ∈ "void".toList, Text.isWord c = true) ∧
    (∀ s ∈ Sample.voidSignatures, Qualifies "void".toList s.qualifier) ∧
    signatures "void".toList .c (cSource Sample.voidSignatures) =
      [⟨"void_good".toList, .bad⟩, ⟨"void".toList, .good⟩] ∧
    signatures "void".toList .cpp (cppSource "void_bad".toList [.bad, .good, .bad]) =
      [⟨"void_bad".toList, .bad⟩, ⟨"void_bad".toList, .good⟩] ∧
    ∀ l, signatures "void".toList l (List.intercalate ['\n'] Sample.voidMentions) = [] := by
  have hp : ∀ c ∈ "void".toList, Text.isWord c = true := List.all_eq_true.mp rfl
  have hqualifies (w : Text) (hw : w.all Text.isWord = true) :
      Qualifies "void".toList ("void".toList ++ w) := ⟨w, rfl, List.all_eq_true.mp hw⟩
  have hss : ∀ s ∈ Sample.voidSignatures, Qualifies "void".toList s.qualifier := by
    simp only [Sample.voidSignatures, List.forall_mem_cons]
    exact ⟨hqualifies "_good".toList rfl, hqualifies [] rfl, hqualifies "_good".toList rfl,
      by simp⟩
  have hmentions : ∀ line ∈ Text.lines (List.intercalate ['\n'] Sample.voidMentions),
      line = [] ∨ Mentions "void".toList line := by
    have hlines : Text.lines (List.intercalate ['\n'] Sample.voidMentions) =
        Sample.voidMentions := rfl
    have hcase : Qualifies "void".toList Sample.voidEntry.qualifier := hqualifies [] rfl
    rw [hlines]
    simp only [Sample.voidMentions, List.forall_mem_cons]
    refine ⟨Or.inr ⟨['\t'], [], { Sample.voidEntry with language := .c }, ?_, Or.inl rfl, hcase, ?_⟩,
      Or.inr ⟨[], [], Sample.voidEntry, ?_, Or.inl rfl, hcase, ?_⟩,
      Or.inr ⟨[], ['\r'], Sample.voidEntry, ?_, Or.inr rfl, hcase, Or.inl rfl⟩, Or.inl trivial,
      by simp⟩
    · simp [Text.Blanks, Text.isBlank]
    · exact Or.inl (by simp)
    · simp [Text.Blanks]
    · exact Or.inr (by simp)
    · simp [Text.Blanks]
  have hall := extraction_undoes_rendering hp
  exact ⟨hp, hss, hall.1 _ hss, hall.2.1 _ (hqualifies "_bad".toList rfl) _, hall.2.2 _ hmentions⟩

end SuiteMake.Extract

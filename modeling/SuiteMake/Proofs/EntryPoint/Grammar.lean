import SuiteMake.Proofs.EntryPoint
import SuiteMake.Proofs.EntryPoint.Lines

/-!
# The lines that define entry points

The form of a line that opens the definition of a C entry point, with any blanks between its
words. It leaves no choice of the entry point, so the readers find just the lines of this form.
-/

namespace SuiteMake

namespace Text

def Blanks (t : Text) : Prop := ∀ c ∈ t, isBlank c = true

theorem skipBlanks_append {gap : Text} (h : Blanks gap) (t : Text) :
    skipBlanks (gap ++ t) = skipBlanks t :=
  List.dropWhile_append_of_pos h

theorem skipBlanks_cons {c : Char} (hc : isBlank c = false) (t : Text) :
    skipBlanks (c :: t) = c :: t := by
  rw [skipBlanks, List.dropWhile_cons_of_neg (by simp [hc])]

theorem exists_skipBlanks (t : Text) : ∃ gap, Blanks gap ∧ t = gap ++ skipBlanks t :=
  ⟨t.takeWhile isBlank, fun _ hc => List.all_eq_true.mp List.all_takeWhile _ hc,
    List.takeWhile_append_dropWhile.symm⟩

theorem skipBlanks_eq_cons_iff {c : Char} (hc : isBlank c = false) {t u : Text} :
    skipBlanks t = c :: u ↔ ∃ gap, Blanks gap ∧ t = gap ++ c :: u := by
  constructor
  · intro h
    obtain ⟨gap, hgap, ht⟩ := exists_skipBlanks t
    exact ⟨gap, hgap, by rw [ht, h]⟩
  · intro h
    obtain ⟨gap, hgap, ht⟩ := h
    rw [ht, skipBlanks_append hgap, skipBlanks_cons hc]

end Text

namespace Extract

open Text

/-- A line that a keyword opens, and what follows the blanks that set the keyword off. -/
def Follows (keyword line rest : Text) : Prop :=
  ∃ lead gap, Blanks lead ∧ Blanks gap ∧ gap ≠ [] ∧ line = lead ++ (keyword ++ (gap ++ rest))

/-- What follows the name of a function on the line that opens its definition: empty parentheses or
`(void)`, and then an opening brace or the end of the line. -/
def IsOpening (t : Text) : Prop :=
  ∃ a b c d void rest, Blanks a ∧ Blanks b ∧ Blanks c ∧ Blanks d ∧
    (void = [] ∨ void = "void".toList) ∧ (rest.head? = some '\x7b' ∨ rest = [] ∨ rest = ['\r']) ∧
    t = a ++ '(' :: (b ++ (void ++ (c ++ ')' :: (d ++ rest))))

def Defines (casePrefix line : Text) (s : Signature) : Prop :=
  ∃ opening, Qualifies casePrefix s.qualifier ∧ IsOpening opening ∧
    Follows "void".toList line (s.qualifier ++ ('_' :: s.kind.text ++ opening))

private theorem exists_of_mem_afterBlanks {t rest : Text} (h : rest ∈ afterBlanks t) :
    ∃ gap, Blanks gap ∧ gap ≠ [] ∧ t = gap ++ rest := by
  induction t with
  | nil => simp [afterBlanks] at h
  | cons c t ih =>
      rw [afterBlanks] at h
      split at h
      · rename_i hc
        rcases List.mem_append.mp h with h | h
        · obtain ⟨gap, hgap, -, ht⟩ := ih h
          exact ⟨c :: gap, List.forall_mem_cons.mpr ⟨hc, hgap⟩, by simp, by simp [ht]⟩
        · exact ⟨[c], by simpa [Blanks] using hc, by simp, by simp [List.mem_singleton.mp h]⟩
      · simp at h

private theorem mem_afterBlanks_append {gap : Text} (hgap : Blanks gap) (hne : gap ≠ [])
    (rest : Text) : rest ∈ afterBlanks (gap ++ rest) := by
  induction gap with
  | nil => exact absurd rfl hne
  | cons c gap ih =>
      have hc : isBlank c = true := hgap c List.mem_cons_self
      rw [List.cons_append, afterBlanks, if_pos hc]
      by_cases hnil : gap = []
      · simp [hnil]
      · have hmem := ih (fun d hd => hgap d (List.mem_cons_of_mem c hd)) hnil
        exact List.mem_append_left _ hmem

theorem mem_afterBlanks_iff {t rest : Text} :
    rest ∈ afterBlanks t ↔ ∃ gap, Blanks gap ∧ gap ≠ [] ∧ t = gap ++ rest := by
  constructor
  · exact exists_of_mem_afterBlanks
  · intro h
    obtain ⟨gap, hgap, hne, ht⟩ := h
    rw [ht]
    exact mem_afterBlanks_append hgap hne rest

private theorem mem_afterKeyword_iff_skipBlanks {keyword line rest : Text} :
    rest ∈ afterKeyword keyword line ↔
      ∃ u, skipBlanks line = keyword ++ u ∧ rest ∈ afterBlanks u := by
  rw [afterKeyword]
  cases hword : keyword.isPrefixOf? (skipBlanks line) with
  | none =>
      have hnot := isPrefixOf?_eq_none_iff.mp hword
      simp only [List.not_mem_nil, false_iff, not_exists, not_and]
      intro u hu
      exact absurd ⟨u, hu.symm⟩ hnot
  | some u =>
      have hline := (List.append_eq_of_isPrefixOf?_eq_some hword).symm
      simp only [hline, List.append_cancel_left_eq, exists_eq_left']

theorem mem_afterKeyword_iff {c : Char} (hc : isBlank c = false) {keyword line rest : Text} :
    rest ∈ afterKeyword (c :: keyword) line ↔ Follows (c :: keyword) line rest := by
  simp only [mem_afterKeyword_iff_skipBlanks, List.cons_append, skipBlanks_eq_cons_iff hc,
    mem_afterBlanks_iff]
  constructor
  · intro h
    obtain ⟨u, ⟨lead, hlead, hline⟩, gap, hgap, hne, hu⟩ := h
    exact ⟨lead, gap, hlead, hgap, hne, by rw [hline, hu, List.cons_append]⟩
  · intro h
    obtain ⟨lead, gap, hlead, hgap, hne, hline⟩ := h
    exact ⟨gap ++ rest, ⟨lead, hlead, hline⟩, gap, hgap, hne, rfl⟩

private theorem voidSkipped_iff {t rest : Text} :
    skipBlanks (("void".toList.isPrefixOf? (skipBlanks t)).getD (skipBlanks t)) = ')' :: rest ↔
      ∃ b void c, Blanks b ∧ Blanks c ∧ (void = [] ∨ void = "void".toList) ∧
        t = b ++ (void ++ (c ++ ')' :: rest)) := by
  have hclose : isBlank ')' = false := by decide
  constructor
  · intro h
    obtain ⟨b, hb, ht⟩ := exists_skipBlanks t
    cases hvoid : "void".toList.isPrefixOf? (skipBlanks t) with
    | none =>
        rw [hvoid, Option.getD_none, skipBlanks_eq_cons_iff hclose] at h
        obtain ⟨c, hc, hrest⟩ := h
        exact ⟨b, [], c, hb, hc, Or.inl rfl, by rw [List.nil_append, ← hrest, ← ht]⟩
    | some u =>
        rw [hvoid, Option.getD_some, skipBlanks_eq_cons_iff hclose] at h
        obtain ⟨c, hc, hrest⟩ := h
        have hword := List.append_eq_of_isPrefixOf?_eq_some hvoid
        exact ⟨b, "void".toList, c, hb, hc, Or.inr rfl, by rw [← hrest, hword, ← ht]⟩
  · intro h
    obtain ⟨b, void, c, hb, hc, hvoid, ht⟩ := h
    have hrest : skipBlanks (c ++ ')' :: rest) = ')' :: rest := by
      rw [skipBlanks_append hc, skipBlanks_cons hclose]
    rw [ht, skipBlanks_append hb]
    rcases hvoid with hvoid | hvoid
    · have hnone : "void".toList.isPrefixOf? (')' :: rest) = none := rfl
      rw [hvoid, List.nil_append, hrest, hnone, Option.getD_none, skipBlanks_cons hclose]
    · have hword : skipBlanks ("void".toList ++ (c ++ ')' :: rest)) =
          "void".toList ++ (c ++ ')' :: rest) := skipBlanks_cons (by decide) _
      rw [hvoid, hword, List.isPrefixOf?_eq_some_iff_append_eq.mpr rfl, Option.getD_some, hrest]

theorem parameters?_eq_some_iff {t rest : Text} : parameters? t = some rest ↔
    ∃ a b void c, Blanks a ∧ Blanks b ∧ Blanks c ∧ (void = [] ∨ void = "void".toList) ∧
      t = a ++ '(' :: (b ++ (void ++ (c ++ ')' :: rest))) := by
  have hopen : isBlank '(' = false := by decide
  simp only [parameters?, Option.bind_eq_bind, Option.bind_eq_some_iff,
    List.isPrefixOf?_eq_some_iff_append_eq, List.singleton_append, eq_comm (b := skipBlanks _),
    skipBlanks_eq_cons_iff hopen, voidSkipped_iff]
  constructor
  · intro h
    obtain ⟨inner, ⟨a, ha, ht⟩, b, void, c, hb, hc, hvoid, hinner⟩ := h
    exact ⟨a, b, void, c, ha, hb, hc, hvoid, by rw [ht, hinner]⟩
  · intro h
    obtain ⟨a, b, void, c, ha, hb, hc, hvoid, ht⟩ := h
    exact ⟨_, ⟨a, ha, ht⟩, b, void, c, hb, hc, hvoid, rfl⟩

theorem isPrefixOf?_singleton (c d : Char) (t : Text) :
    [c].isPrefixOf? (d :: t) = if c = d then some t else none := by
  split
  · rename_i h
    rw [List.isPrefixOf?_eq_some_iff_append_eq, h, List.singleton_append]
  · rename_i h
    rw [isPrefixOf?_eq_none_iff]
    intro hword
    exact h (List.cons_prefix_cons.mp hword).1

private theorem atLineEnd_iff {t : Text} (hn : '\n' ∉ t) : atLineEnd t = true ↔ t = [] := by
  cases t with
  | nil => simp [atLineEnd]
  | cons c t =>
      have hc : c ≠ '\n' := (List.ne_of_not_mem_cons hn).symm
      simp [atLineEnd, hc]

private theorem isSome_bodyStart?_iff {t : Text} (hn : '\n' ∉ t) : (bodyStart? t).isSome = true ↔
    (skipBlanks t).head? = some '\x7b' ∨ skipBlanks t = [] ∨ skipBlanks t = ['\r'] := by
  have hfree : '\n' ∉ skipBlanks t := fun hmem => hn ((List.dropWhile_suffix _).subset hmem)
  rw [bodyStart?]
  cases hu : skipBlanks t with
  | nil =>
      have hnone (c : Char) : [c].isPrefixOf? [] = none := rfl
      simp [hnone, atLineEnd]
  | cons c u =>
      rw [hu] at hfree
      have hrest : '\n' ∉ u := List.not_mem_of_not_mem_cons hfree
      simp only [isPrefixOf?_singleton]
      by_cases hbrace : c = '\x7b'
      · simp [hbrace]
      · by_cases hreturn : c = '\r'
        · simp [hreturn, atLineEnd_iff hrest]
        · simp [hbrace, hreturn, Ne.symm hbrace, Ne.symm hreturn, atLineEnd_iff hfree]

theorem isSome_bodyStart?_iff_exists {t : Text} (hn : '\n' ∉ t) :
    (bodyStart? t).isSome = true ↔ ∃ d rest, Blanks d ∧
      (rest.head? = some '\x7b' ∨ rest = [] ∨ rest = ['\r']) ∧ t = d ++ rest := by
  rw [isSome_bodyStart?_iff hn]
  constructor
  · intro h
    obtain ⟨d, hd, ht⟩ := exists_skipBlanks t
    exact ⟨d, skipBlanks t, hd, h, ht⟩
  · intro h
    obtain ⟨d, rest, hd, hrest, ht⟩ := h
    have hskip : skipBlanks t = rest := by
      rw [ht, skipBlanks_append hd]
      rcases hrest with hbrace | hnil | hreturn
      · obtain ⟨u, hu⟩ := List.head?_eq_some_iff.mp hbrace
        rw [hu, skipBlanks_cons (by decide)]
      · rw [hnil]
        rfl
      · rw [hreturn]
        rfl
    rwa [hskip]

theorem isSome_definition?_iff {t : Text} (hn : '\n' ∉ t) :
    (definition? t).isSome = true ↔ IsOpening t := by
  rw [definition?, Option.bind_eq_bind, Option.isSome_bind, Option.any_eq_true]
  constructor
  · intro h
    obtain ⟨u, hread, hbody⟩ := h
    obtain ⟨a, b, void, c, ha, hb, hc, hvoid, ht⟩ := parameters?_eq_some_iff.mp hread
    have hu : '\n' ∉ u := fun hmem => hn (by simp [ht, hmem])
    obtain ⟨d, rest, hd, hrest, hrestu⟩ := (isSome_bodyStart?_iff_exists hu).mp hbody
    exact ⟨a, b, c, d, void, rest, ha, hb, hc, hd, hvoid, hrest, by rw [ht, hrestu]⟩
  · intro h
    obtain ⟨a, b, c, d, void, rest, ha, hb, hc, hd, hvoid, hrest, ht⟩ := h
    have hu : '\n' ∉ d ++ rest := by
      intro hmem
      apply hn
      rw [ht]
      simp [List.mem_append.mp hmem]
    exact ⟨d ++ rest, parameters?_eq_some_iff.mpr ⟨a, b, void, c, ha, hb, hc, hvoid, ht⟩,
      (isSome_bodyStart?_iff_exists hu).mpr ⟨d, rest, hd, hrest, rfl⟩⟩

theorem isWord_of_isBlank {c : Char} (h : isBlank c = true) : isWord c = false := by
  rw [isBlank, Bool.or_eq_true, beq_iff_eq, beq_iff_eq] at h
  rcases h with h | h
  · rw [h]
    decide
  · rw [h]
    decide

theorem isBlank_of_isWord {c : Char} (h : isWord c = true) : isBlank c = false := by
  cases hc : isBlank c with
  | false => rfl
  | true =>
      rw [isWord_of_isBlank hc] at h
      cases h

theorem IsOpening.exists_cons {t : Text} (h : IsOpening t) :
    ∃ c u, t = c :: u ∧ isWord c = false := by
  obtain ⟨a, b, c, d, void, rest, ha, -, -, -, -, -, ht⟩ := h
  cases a with
  | nil => exact ⟨'(', _, ht, by decide⟩
  | cons e a => exact ⟨e, _, ht, isWord_of_isBlank (ha e List.mem_cons_self)⟩

theorem isWord_of_mem_kind {k : Kind} {c : Char} (h : c ∈ '_' :: k.text) : isWord c = true := by
  have hall : ('_' :: k.text).all isWord = true := by cases k <;> decide
  exact List.all_eq_true.mp hall c h

theorem kind_unique {w w' : Text} {k k' : Kind}
    (h : w ++ '_' :: k.text = w' ++ '_' :: k'.text) : w = w' ∧ k = k' := by
  have hkind : k = k' := by
    have hpenultimate := congrArg (fun t => t.reverse[1]?) h
    cases k <;> cases k' <;> simp [Kind.text] at hpenultimate ⊢
  rw [hkind] at h
  exact ⟨List.append_cancel_right h, hkind⟩

private theorem findSome?_kind (casePrefix w : Text) (k : Kind) :
    (Kind.all.findSome? fun k' => (('_' :: k'.text).isSuffixOf? (w ++ '_' :: k.text)).map
      fun v => (⟨casePrefix ++ v, k'⟩ : Signature)) = some ⟨casePrefix ++ w, k⟩ := by
  have hsuffix : ('_' :: k.text).isSuffixOf? (w ++ '_' :: k.text) = some w :=
    List.isSuffixOf?_eq_some_iff_append_eq.mpr rfl
  have hsome : (Kind.all.findSome? fun k' =>
      (('_' :: k'.text).isSuffixOf? (w ++ '_' :: k.text)).map
        fun v => (⟨casePrefix ++ v, k'⟩ : Signature)).isSome = true :=
    List.findSome?_isSome_iff.mpr ⟨k, by cases k <;> decide, by simp [hsuffix]⟩
  obtain ⟨s, hs⟩ := Option.isSome_iff_exists.mp hsome
  obtain ⟨k', -, hk⟩ := List.exists_of_findSome?_eq_some hs
  obtain ⟨v, hv, hsignature⟩ := Option.map_eq_some_iff.mp hk
  have hsame := kind_unique (List.append_eq_of_isSuffixOf?_eq_some hv).symm
  rw [hs, ← hsignature, hsame.1, hsame.2]

section Name

variable {casePrefix w opening : Text} {k : Kind}

private theorem isWord_of_mem_name (hw : ∀ c ∈ w, isWord c = true) :
    ∀ c ∈ w ++ '_' :: k.text, isWord c = true := by
  intro c hc
  rcases List.mem_append.mp hc with hc | hc
  · exact hw c hc
  · exact isWord_of_mem_kind hc

private theorem takeWhile_name (hw : ∀ c ∈ w, isWord c = true) (hopening : IsOpening opening) :
    (w ++ '_' :: k.text ++ opening).takeWhile isWord = w ++ '_' :: k.text := by
  obtain ⟨c, u, hcons, hc⟩ := hopening.exists_cons
  rw [List.takeWhile_append_of_pos (isWord_of_mem_name hw), hcons,
    List.takeWhile_cons_of_neg (by simp [hc]), List.append_nil]

private theorem dropWhile_name (hw : ∀ c ∈ w, isWord c = true) (hopening : IsOpening opening) :
    (w ++ '_' :: k.text ++ opening).dropWhile isWord = opening := by
  obtain ⟨c, u, hcons, hc⟩ := hopening.exists_cons
  rw [List.dropWhile_append_of_pos (isWord_of_mem_name hw), hcons,
    List.dropWhile_cons_of_neg (by simp [hc])]

private theorem exists_cons_name (hw : ∀ c ∈ w, isWord c = true) :
    ∃ c u, w ++ '_' :: k.text ++ opening = c :: u ∧ isBlank c = false := by
  cases w with
  | nil => exact ⟨'_', _, rfl, by decide⟩
  | cons c w => exact ⟨c, _, rfl, isBlank_of_isWord (hw c List.mem_cons_self)⟩

private theorem caseFunction?_append (hw : ∀ c ∈ w, isWord c = true)
    (hopening : IsOpening opening) :
    caseFunction? casePrefix (casePrefix ++ (w ++ '_' :: k.text ++ opening)) =
      (definition? opening).map fun rest => (⟨casePrefix ++ w, k⟩, rest) := by
  rw [caseFunction?, List.isPrefixOf?_eq_some_iff_append_eq.mpr rfl]
  simp only [Option.bind_eq_bind, Option.bind_some, takeWhile_name hw hopening,
    dropWhile_name hw hopening, findSome?_kind]
  cases definition? opening <;> rfl

end Name

theorem caseFunction?_iff {casePrefix t : Text} (hn : '\n' ∉ t) {s : Signature} :
    (∃ rest, caseFunction? casePrefix t = some (s, rest)) ↔
      ∃ opening, Qualifies casePrefix s.qualifier ∧ IsOpening opening ∧
        t = s.qualifier ++ ('_' :: s.kind.text ++ opening) := by
  constructor
  · intro h
    obtain ⟨rest, h⟩ := h
    have hqualifies := qualifies_of_caseFunction? h
    simp only [caseFunction?, Option.bind_eq_bind, Option.bind_eq_some_iff, Option.pure_def,
      Option.some.injEq, Prod.mk.injEq, List.isPrefixOf?_eq_some_iff_append_eq] at h
    obtain ⟨name, rfl, s', hfind, rest', hdefinition, rfl, -⟩ := h
    obtain ⟨k, -, hk⟩ := List.exists_of_findSome?_eq_some hfind
    obtain ⟨w, hw, rfl⟩ := Option.map_eq_some_iff.mp hk
    have hname : name = w ++ '_' :: k.text ++ name.dropWhile isWord := by
      rw [List.append_eq_of_isSuffixOf?_eq_some hw, List.takeWhile_append_dropWhile]
    have hfree : '\n' ∉ name.dropWhile isWord := by
      intro hmem
      exact hn (List.mem_append_right _ ((List.dropWhile_suffix _).subset hmem))
    refine ⟨name.dropWhile isWord, hqualifies, ?_, ?_⟩
    · rw [← isSome_definition?_iff hfree, hdefinition]
      rfl
    · rw [List.append_assoc] at hname ⊢
      rw [← hname]
  · intro h
    obtain ⟨opening, ⟨w, hqualifier, hw⟩, hopening, ht⟩ := h
    have hfree : '\n' ∉ opening := fun hmem => hn (by simp [ht, hmem])
    obtain ⟨rest, hrest⟩ := Option.isSome_iff_exists.mp ((isSome_definition?_iff hfree).mpr hopening)
    refine ⟨rest, ?_⟩
    rw [hqualifier, List.append_assoc, ← List.append_assoc w] at ht
    rw [ht, caseFunction?_append hw hopening, hrest, Option.map_some, ← hqualifier]

/-- The blanks before a name are told apart from those that open its case prefix. -/
private theorem name_unique {gap gap' casePrefix t t' : Text} (hgap : Blanks gap)
    (hgap' : Blanks gap') (ht : ∃ c u, t = c :: u ∧ isBlank c = false)
    (ht' : ∃ c u, t' = c :: u ∧ isBlank c = false)
    (h : gap ++ (casePrefix ++ t) = gap' ++ (casePrefix ++ t')) : t = t' := by
  obtain ⟨c, u, rfl, hc⟩ := ht
  obtain ⟨c', u', rfl, hc'⟩ := ht'
  have hblanks := congrArg (List.takeWhile isBlank) h
  rw [List.takeWhile_append_of_pos hgap, List.takeWhile_append_of_pos hgap',
    takeWhile_append_cons hc, takeWhile_append_cons hc'] at hblanks
  rw [List.append_cancel_right hblanks] at h
  exact List.append_cancel_left (List.append_cancel_left h)

theorem Follows.skipBlanks {c : Char} (hc : isBlank c = false) {keyword line rest : Text}
    (h : Follows (c :: keyword) line rest) :
    ∃ gap, Blanks gap ∧ Text.skipBlanks line = c :: keyword ++ (gap ++ rest) := by
  obtain ⟨lead, gap, hlead, hgap, -, hline⟩ := h
  refine ⟨gap, hgap, ?_⟩
  rw [hline, skipBlanks_append hlead, List.cons_append, skipBlanks_cons hc]

theorem Defines.unique {casePrefix line : Text} {s s' : Signature} (h : Defines casePrefix line s)
    (h' : Defines casePrefix line s') : s = s' := by
  obtain ⟨opening, ⟨w, hqualifier, hw⟩, hopening, hfollows⟩ := h
  obtain ⟨opening', ⟨w', hqualifier', hw'⟩, hopening', hfollows'⟩ := h'
  have hblank : isBlank 'v' = false := by decide
  obtain ⟨gap, hgap, hline⟩ := Follows.skipBlanks hblank hfollows
  obtain ⟨gap', hgap', hline'⟩ := Follows.skipBlanks hblank hfollows'
  have hname : w ++ '_' :: s.kind.text ++ opening = w' ++ '_' :: s'.kind.text ++ opening' := by
    apply name_unique hgap hgap' (exists_cons_name hw) (exists_cons_name hw')
    have hsame := List.append_cancel_left (hline.symm.trans hline')
    rw [hqualifier, hqualifier'] at hsame
    simpa only [List.append_assoc] using hsame
  have hword := congrArg (List.takeWhile isWord) hname
  rw [takeWhile_name hw hopening, takeWhile_name hw' hopening'] at hword
  have hsame := kind_unique hword
  rw [Signature.mk.injEq]
  exact ⟨by rw [hqualifier, hqualifier', hsame.1], hsame.2⟩

theorem Follows.notMem {keyword line rest : Text} (h : Follows keyword line rest) {c : Char}
    (hc : c ∉ line) : c ∉ rest := by
  obtain ⟨lead, gap, -, -, -, hline⟩ := h
  intro hmem
  exact hc (by simp [hline, hmem])

private theorem mem_afterVoid_iff {line rest : Text} :
    rest ∈ afterKeyword "void".toList line ↔ Follows "void".toList line rest :=
  mem_afterKeyword_iff (by decide)

private theorem defines_of_cDefinition? {casePrefix line rest : Text} (hn : '\n' ∉ line)
    {s : Signature} (h : cDefinition? casePrefix line = some (s, rest)) :
    Defines casePrefix line s := by
  obtain ⟨t, hmem, hread⟩ := List.exists_of_findSome?_eq_some h
  have hfollows := mem_afterVoid_iff.mp hmem
  obtain ⟨opening, hqualifies, hopening, ht⟩ :=
    (caseFunction?_iff (hfollows.notMem hn)).mp ⟨rest, hread⟩
  rw [ht] at hfollows
  exact ⟨opening, hqualifies, hopening, hfollows⟩

private theorem exists_cDefinition? {casePrefix line : Text} (hn : '\n' ∉ line) {s : Signature}
    (h : Defines casePrefix line s) : ∃ s' rest, cDefinition? casePrefix line = some (s', rest) := by
  obtain ⟨opening, hqualifies, hopening, hfollows⟩ := h
  obtain ⟨rest, hread⟩ := (caseFunction?_iff (hfollows.notMem hn)).mpr
    ⟨opening, hqualifies, hopening, rfl⟩
  have hsome : (cDefinition? casePrefix line).isSome = true :=
    List.findSome?_isSome_iff.mpr ⟨_, mem_afterVoid_iff.mpr hfollows, by rw [hread]; rfl⟩
  obtain ⟨found, hfound⟩ := Option.isSome_iff_exists.mp hsome
  exact ⟨found.1, found.2, hfound⟩

theorem cDefinition?_iff {casePrefix line : Text} (hn : '\n' ∉ line) {s : Signature} :
    (∃ rest, cDefinition? casePrefix line = some (s, rest)) ↔ Defines casePrefix line s := by
  constructor
  · intro h
    obtain ⟨rest, hread⟩ := h
    exact defines_of_cDefinition? hn hread
  · -- the name may be set off in several ways, but all of them give the same entry point
    intro h
    obtain ⟨s', rest, hread⟩ := exists_cDefinition? hn h
    rw [h.unique (defines_of_cDefinition? hn hread)]
    exact ⟨rest, hread⟩

/-- The entry points of a C file are those its lines define, each line at most one of them, in the
order of first definition. -/
theorem c_signatures_exact {casePrefix : Text} (hp : '\n' ∉ casePrefix) :
    (∀ line s s', Defines casePrefix line s → Defines casePrefix line s' → s = s') ∧
    ∃ yields : Text → Option Signature,
      (∀ line, '\n' ∉ line → ∀ s, yields line = some s ↔ Defines casePrefix line s) ∧
      ∀ t, signatures casePrefix .c t = ((lines t).filterMap yields).eraseDups := by
  refine ⟨fun line s s' h h' => h.unique h',
    fun line => (cDefinition? casePrefix line).map Prod.fst, ?_, ?_⟩
  · intro line hline s
    rw [← cDefinition?_iff hline]
    simp
  · intro t
    rw [signatures, findAll_eq (cDefinition?_staysOnLine hp)]

end Extract

namespace Sample

/-- A case prefix that starts with a blank and holds a parenthesis. -/
def blankPrefix : Text := " C(".toList

def blankSource : Text :=
  "void  C(_good_bad (void)\r\n\tvoid\t  C(1_good()\x7b\nvoid C(_bad()\nvoid  C(_good_bad( )".toList

end Sample

theorem Extract.c_signatures_exact_blank :
    '\n' ∉ Sample.blankPrefix ∧
    signatures Sample.blankPrefix .c Sample.blankSource =
      [⟨" C(_good".toList, .bad⟩, ⟨" C(1".toList, .good⟩] ∧
    ∃ yields : Text → Option Signature,
      (∀ line, '\n' ∉ line → ∀ s, yields line = some s ↔ Defines Sample.blankPrefix line s) ∧
      signatures Sample.blankPrefix .c Sample.blankSource =
        ((Text.lines Sample.blankSource).filterMap yields).eraseDups := by
  have hp : '\n' ∉ Sample.blankPrefix := by decide
  obtain ⟨yields, hyields, hall⟩ := (c_signatures_exact hp).2
  exact ⟨hp, rfl, yields, hyields, hall Sample.blankSource⟩

end SuiteMake

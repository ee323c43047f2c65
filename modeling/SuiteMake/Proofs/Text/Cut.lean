import Mathlib.Data.List.Basic
import SuiteMake.Text.Basic

/-!
# Where a text is cut

A cut at a pattern is determined by the text before it: the pattern follows, and no earlier
occurrence of it starts. What follows the cut does not matter. The same holds for a cut after
the last newline, which parts whole lines from the rest.
-/

namespace SuiteMake.Text

/-- No occurrence of `pat` starts inside `u` where `v` follows it. -/
def Absent (pat u v : Text) : Prop := ∀ y, y <:+ u → y ≠ [] → ¬ pat <+: y ++ v

@[simp]
theorem absent_nil (pat v : Text) : Absent pat [] v := by
  intro y hy hne
  exact absurd (List.suffix_nil.mp hy) hne

theorem absent_cons {pat u v : Text} {c : Char} :
    Absent pat (c :: u) v ↔ ¬ pat <+: c :: (u ++ v) ∧ Absent pat u v := by
  constructor
  · intro h
    refine ⟨h (c :: u) (List.suffix_refl _) (by simp), ?_⟩
    intro y hy
    exact h y (hy.trans (List.suffix_cons c u))
  · rintro ⟨hc, hu⟩ y hy hne
    rcases List.suffix_cons_iff.mp hy with rfl | hy
    · exact hc
    · exact hu y hy hne

theorem absent_append {pat u w v : Text} :
    Absent pat (u ++ w) v ↔ Absent pat u (w ++ v) ∧ Absent pat w v := by
  induction u with
  | nil => simp
  | cons c u ih =>
      simp only [List.cons_append, absent_cons, ih, List.append_assoc]
      exact and_assoc.symm

theorem absent_append_right {pat u v : Text} (hlen : pat.length ≤ v.length) (w : Text) :
    Absent pat u (v ++ w) ↔ Absent pat u v := by
  have hstart (y : Text) : pat <+: y ++ (v ++ w) ↔ pat <+: y ++ v := by
    constructor
    · intro h
      apply List.prefix_of_prefix_length_le h
      · rw [← List.append_assoc]
        exact List.prefix_append _ _
      · rw [List.length_append]
        omega
    · intro h
      rw [← List.append_assoc]
      exact h.trans (List.prefix_append _ _)
  constructor
  · intro h y hy hne hp
    exact h y hy hne ((hstart y).mpr hp)
  · intro h y hy hne hp
    exact h y hy hne ((hstart y).mp hp)

theorem absent_of_head_notMem {c : Char} {u : Text} (h : c ∉ u) (pat v : Text) :
    Absent (c :: pat) u v := by
  intro y hy hne hp
  cases y with
  | nil => exact hne rfl
  | cons d y =>
      have hcd : c = d := (List.cons_prefix_cons.mp hp).1
      exact h (hy.subset (by simp [hcd]))

theorem absent_singleton {c : Char} {u v : Text} : Absent [c] u v ↔ c ∉ u := by
  constructor
  · intro h hc
    obtain ⟨x, y, rfl⟩ := List.append_of_mem hc
    exact h (c :: y) (List.suffix_append x _) (by simp) (by simp)
  · intro h
    exact absent_of_head_notMem h [] v

theorem isPrefixOf?_eq_none_iff {α : Type} [BEq α] [LawfulBEq α] {p t : List α} :
    p.isPrefixOf? t = none ↔ ¬ p <+: t := by
  rw [← Option.not_isSome_iff_eq_none, List.isSome_isPrefixOf?_eq_isPrefixOf,
    List.isPrefixOf_iff_prefix]

theorem cut?_append_self (pat v : Text) : cut? pat (pat ++ v) = some ([], v) := by
  have hp : pat.isPrefixOf? (pat ++ v) = some v := List.isPrefixOf?_eq_some_iff_append_eq.mpr rfl
  cases h : pat ++ v with
  | nil => simp_all [cut?]
  | cons c t =>
      rw [h] at hp
      simp only [cut?, hp]

theorem cut?_append_of_absent {pat u v : Text} (h : Absent pat u v) :
    cut? pat (u ++ v) = (cut? pat v).map fun (before, after) => (u ++ before, after) := by
  induction u with
  | nil => simp
  | cons c u ih =>
      have hc := absent_cons.mp h
      have hnone : pat.isPrefixOf? (c :: (u ++ v)) = none := isPrefixOf?_eq_none_iff.mpr hc.1
      simp only [List.cons_append, cut?, hnone, ih hc.2, Option.map_map]
      rfl

theorem eq_of_cut? {pat t before after : Text} (h : cut? pat t = some (before, after)) :
    t = before ++ pat ++ after := by
  induction t generalizing before with
  | nil =>
    by_cases hp : pat = [] <;> simp_all [cut?]
  | cons c t ih =>
    rw [cut?] at h
    split at h
    · rename_i rest hr
      have := List.append_eq_of_isPrefixOf?_eq_some hr
      simp_all
    · obtain ⟨⟨b, a⟩, hb, he⟩ := Option.map_eq_some_iff.1 h
      simp only [Prod.mk.injEq] at he
      obtain ⟨rfl, rfl⟩ := he
      simp [ih hb]

theorem eq_of_cutLast? {sep : Char} {t before after : Text}
    (h : cutLast? sep t = some (before, after)) :
    t = before ++ sep :: after ∧ sep ∉ after := by
  induction t generalizing before after with
  | nil => simp [cutLast?] at h
  | cons c t ih =>
    rw [cutLast?] at h
    split at h
    · rename_i b a hb
      simp only [Option.some.injEq, Prod.mk.injEq] at h
      obtain ⟨rfl, rfl⟩ := h
      obtain ⟨h1, h2⟩ := ih hb
      exact ⟨by simp [h1], h2⟩
    · rename_i hn
      split at h
      · rename_i hc
        simp only [Option.some.injEq, Prod.mk.injEq] at h
        obtain ⟨rfl, rfl⟩ := h
        refine ⟨by simp [hc], ?_⟩
        intro hm
        have : ∀ u : Text, sep ∈ u → cutLast? sep u ≠ none := by
          intro u
          induction u with
          | nil => simp
          | cons d u ihu =>
            intro hu hnone
            rw [cutLast?] at hnone
            split at hnone
            · simp at hnone
            · rename_i hu'
              rcases List.mem_cons.1 hu with rfl | hu
              · simp at hnone
              · exact ihu hu hu'
        exact this t hm hn
      · simp at h

/-- A cut is made where the pattern stands first. -/
theorem cut?_eq_some_iff {pat t before after : Text} :
    cut? pat t = some (before, after) ↔
      t = before ++ (pat ++ after) ∧ Absent pat before pat := by
  constructor
  · intro h
    refine ⟨by rw [eq_of_cut? h, List.append_assoc], ?_⟩
    induction t generalizing before with
    | nil =>
        by_cases hp : pat = []
        · simp only [cut?, hp, if_true, Option.some.injEq, Prod.mk.injEq] at h
          simp [← h.1]
        · simp [cut?, hp] at h
    | cons c t ih =>
        rw [cut?] at h
        split at h
        · simp only [Option.some.injEq, Prod.mk.injEq] at h
          simp [← h.1]
        · rename_i hnone
          obtain ⟨⟨b, a⟩, hb, he⟩ := Option.map_eq_some_iff.mp h
          simp only [Prod.mk.injEq] at he
          obtain ⟨rfl, rfl⟩ := he
          rw [absent_cons]
          refine ⟨?_, ih hb⟩
          intro hp
          apply isPrefixOf?_eq_none_iff.mp hnone
          rw [eq_of_cut? hb, List.append_assoc, ← List.append_assoc, ← List.cons_append]
          exact hp.trans (List.prefix_append _ _)
  · rintro ⟨rfl, h⟩
    rw [cut?_append_of_absent ((absent_append_right (Nat.le_refl _) after).mpr h),
      cut?_append_self]
    simp

theorem cut?_eq_none_iff {pat t : Text} : cut? pat t = none ↔ ¬ pat <:+: t := by
  constructor
  · rintro h ⟨x, y, rfl⟩
    induction x with
    | nil => simp [cut?_append_self] at h
    | cons c x ih =>
        rw [List.cons_append, List.cons_append, cut?] at h
        split at h
        · cases h
        · exact ih (by simpa using h)
  · intro h
    cases hcut : cut? pat t with
    | none => rfl
    | some parts => exact absurd ⟨parts.1, parts.2, (eq_of_cut? hcut).symm⟩ h

/-- The text before the first occurrence of a pattern. -/
def IsBeforeFirst (pat t before : Text) : Prop :=
  before ++ pat <+: t ∧ ∀ u, u ++ pat <+: t → before.length ≤ u.length

theorem IsBeforeFirst.unique {pat t u v : Text} (hu : IsBeforeFirst pat t u)
    (hv : IsBeforeFirst pat t v) : u = v := by
  have hlen : u.length = v.length := Nat.le_antisymm (hu.2 v hv.1) (hv.2 u hu.1)
  have hut : u <+: t := (List.prefix_append u pat).trans hu.1
  have hvt : v <+: t := (List.prefix_append v pat).trans hv.1
  exact (List.prefix_of_prefix_length_le hut hvt (Nat.le_of_eq hlen)).eq_of_length hlen

theorem isBeforeFirst_iff_absent {pat before after : Text} :
    IsBeforeFirst pat (before ++ (pat ++ after)) before ↔ Absent pat before pat := by
  constructor
  · intro h y hy hne hp
    obtain ⟨u, rfl⟩ := hy
    have hearlier : u ++ pat <+: u ++ y ++ (pat ++ after) := by
      rw [List.append_assoc, List.prefix_append_right_inj, ← List.append_assoc]
      exact hp.trans (List.prefix_append _ _)
    have hle := h.2 u hearlier
    have hpos := List.length_pos_iff.mpr hne
    rw [List.length_append] at hle
    omega
  · intro h
    refine ⟨by simp, fun u hu => ?_⟩
    apply Nat.le_of_not_lt
    intro hlt
    have hbefore : before <+: before ++ (pat ++ after) := List.prefix_append _ _
    obtain ⟨y, rfl⟩ := List.prefix_of_prefix_length_le ((List.prefix_append u pat).trans hu)
      hbefore (Nat.le_of_lt hlt)
    have hne : y ≠ [] := by
      intro hnil
      simp [hnil] at hlt
    rw [List.append_assoc, List.prefix_append_right_inj] at hu
    have habsent := (absent_append_right (Nat.le_refl _) after).mpr h
    exact habsent y (List.suffix_append u y) hne hu

theorem cut?_eq_some_iff_isBeforeFirst {pat t before after : Text} :
    cut? pat t = some (before, after) ↔
      t = before ++ (pat ++ after) ∧ IsBeforeFirst pat t before := by
  rw [cut?_eq_some_iff]
  apply and_congr_right
  intro ht
  rw [ht]
  exact isBeforeFirst_iff_absent.symm

theorem cut?_singleton_eq_some_iff {c : Char} {t before after : Text} :
    cut? [c] t = some (before, after) ↔ t = before ++ c :: after ∧ c ∉ before := by
  rw [cut?_eq_some_iff, absent_singleton, List.singleton_append]

/-- Whole lines: nothing, or a text that ends with a newline. -/
def IsLines (u : Text) : Prop := u = [] ∨ ∃ x, u = x ++ ['\n']

theorem isLines_nil : IsLines [] := Or.inl rfl

theorem isLines_concat (x : Text) : IsLines (x ++ ['\n']) := Or.inr ⟨x, rfl⟩

theorem IsLines.append {u v : Text} (hu : IsLines u) (hv : IsLines v) : IsLines (u ++ v) := by
  rcases hv with rfl | ⟨y, rfl⟩
  · simpa using hu
  · exact Or.inr ⟨u ++ y, by simp⟩

/-- An occurrence of a pattern without a newline ends on the line it starts on, so whole lines
hold it or not whatever follows them. -/
theorem IsLines.absent_iff {pat u v : Text} (hu : IsLines u) (hne : pat ≠ []) (hn : '\n' ∉ pat) :
    Absent pat u v ↔ ¬ pat <:+: u := by
  rcases hu with rfl | ⟨x, rfl⟩
  · simp [hne]
  · constructor
    · intro h hp
      obtain ⟨y, hpy, hy⟩ := List.infix_iff_prefix_suffix.mp hp
      have hyne : y ≠ [] := by
        rintro rfl
        exact hne (List.prefix_nil.mp hpy)
      exact h y hy hyne (hpy.trans (List.prefix_append _ _))
    · intro h y hy hyne hp
      have hlast : y.getLast? = some '\n' := by
        obtain ⟨z, hz⟩ := hy
        have := congrArg List.getLast? hz
        cases hl : y.getLast? with
        | none => exact absurd (List.getLast?_eq_none_iff.mp hl) hyne
        | some c => simpa [hl] using this
      obtain ⟨w, rfl⟩ := List.getLast?_eq_some_iff.mp hlast
      apply h
      rw [List.append_assoc] at hp
      have hpw : pat <+: w := by
        rcases Nat.lt_or_ge w.length pat.length with hlt | hge
        · exfalso
          obtain ⟨z, hz⟩ := hp
          apply hn
          have hget := congrArg (·[w.length]?) hz
          simp only [List.getElem?_append_left hlt] at hget
          rw [List.getElem?_append_right (Nat.le_refl _)] at hget
          exact List.mem_of_getElem? (by simpa using hget)
        · exact List.prefix_of_prefix_length_le hp (List.prefix_append _ _) hge
      exact hpw.isInfix.trans ((List.prefix_append w ['\n']).isInfix.trans hy.isInfix)

theorem cutLast?_eq_none_iff {sep : Char} {t : Text} : cutLast? sep t = none ↔ sep ∉ t := by
  induction t with
  | nil => simp [cutLast?]
  | cons c t ih =>
      rw [cutLast?]
      cases h : cutLast? sep t with
      | some parts =>
          have hmem : sep ∈ t := by
            apply Decidable.of_not_not
            intro hnot
            rw [ih.mpr hnot] at h
            cases h
          simp [hmem]
      | none =>
          have hnot := ih.mp h
          by_cases hc : c = sep
          · simp [hc]
          · simp [hc, hnot, Ne.symm hc]

theorem cutLast?_append {sep : Char} {after : Text} (h : sep ∉ after) (before : Text) :
    cutLast? sep (before ++ sep :: after) = some (before, after) := by
  induction before with
  | nil => simp [cutLast?, cutLast?_eq_none_iff.mpr h]
  | cons c before ih => simp [cutLast?, ih]

theorem cutLast?_eq_some_iff {sep : Char} {t before after : Text} :
    cutLast? sep t = some (before, after) ↔ t = before ++ sep :: after ∧ sep ∉ after := by
  constructor
  · exact eq_of_cutLast?
  · rintro ⟨rfl, h⟩
    exact cutLast?_append h before

/-- Whole lines and a rest without a newline are told apart in one way only. -/
theorem splitLastLine_eq_iff {t lines rest : Text} :
    splitLastLine t = (lines, rest) ↔ t = lines ++ rest ∧ IsLines lines ∧ '\n' ∉ rest := by
  constructor
  · intro h
    rw [splitLastLine] at h
    split at h
    · rename_i before after hcut
      obtain ⟨ht, hn⟩ := eq_of_cutLast? hcut
      simp only [Prod.mk.injEq] at h
      obtain ⟨rfl, rfl⟩ := h
      exact ⟨by simp [ht], isLines_concat _, hn⟩
    · rename_i hcut
      simp only [Prod.mk.injEq] at h
      obtain ⟨rfl, rfl⟩ := h
      exact ⟨rfl, isLines_nil, cutLast?_eq_none_iff.mp hcut⟩
  · rintro ⟨rfl, rfl | ⟨x, rfl⟩, hn⟩
    · simp [splitLastLine, cutLast?_eq_none_iff.mpr hn]
    · rw [List.append_assoc, List.singleton_append, splitLastLine, cutLast?_append hn]

theorem splitLastLine_append {u : Text} (hu : IsLines u) (v : Text) :
    splitLastLine (u ++ v) = (u ++ (splitLastLine v).1, (splitLastLine v).2) := by
  have hparts : splitLastLine v = ((splitLastLine v).1, (splitLastLine v).2) := rfl
  obtain ⟨hv, hl, hn⟩ := splitLastLine_eq_iff.mp hparts
  rw [splitLastLine_eq_iff]
  exact ⟨by rw [List.append_assoc, ← hv], hu.append hl, hn⟩

end SuiteMake.Text

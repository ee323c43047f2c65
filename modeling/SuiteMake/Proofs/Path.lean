import SuiteMake.Proofs.Text.Split
import SuiteMake.SourceFile

/-!
# Components of canonical paths

A canonical path has the components it was made of, without dots. So it tells them apart, and
a file written as its directory and its name denotes the same components as its path.
-/

namespace SuiteMake

open Text

namespace Component

/-- A step that a segment between slashes spells. -/
def IsStep (x : Component) : Prop :=
  ∃ s, x.segment? = some s ∧ ofSegment? s = some x ∧ '/' ∉ s

theorem isStep_up : IsStep .up := ⟨['.', '.'], rfl, rfl, by decide⟩

theorem isStep_name {s : Text} (h : ofSegment? s = some (.name (.text s))) (hslash : '/' ∉ s) :
    IsStep (.name (.text s)) := ⟨s, rfl, h, hslash⟩

theorem isStep_of_ne {s : Text} (hempty : s ≠ []) (hdot : s ≠ ['.']) (hdots : s ≠ ['.', '.'])
    (hslash : '/' ∉ s) : IsStep (.name (.text s)) :=
  isStep_name (by simp [ofSegment?, hempty, hdot, hdots]) hslash

theorem isStep_of_ofSegment? {s : Text} {x : Component} (h : ofSegment? s = some x)
    (hslash : '/' ∉ s) : IsStep x := by
  have horiginal := h
  rw [ofSegment?] at h
  split at h
  · cases h
  · split at h
    · cases h
      exact isStep_up
    · cases h
      exact isStep_name horiginal hslash

theorem IsStep.slash_notMem {name : Text} (h : IsStep (.name (.text name))) : '/' ∉ name := by
  obtain ⟨s, hs, -, hslash⟩ := h
  obtain rfl : name = s := Option.some.inj hs
  exact hslash

theorem IsStep.pieces {name : Text} (h : IsStep (.name (.text name))) :
    (name.splitOn '/').filterMap ofSegment? = [.name (.text name)] := by
  obtain ⟨s, hs, hseg, hslash⟩ := h
  obtain rfl : name = s := Option.some.inj hs
  rw [List.splitOn_eq_singleton hslash, List.filterMap_cons_some hseg]
  rfl

theorem IsStep.exists_text {n : Name} (h : IsStep (.name n)) : ∃ name, n = .text name := by
  obtain ⟨s, -, hseg, -⟩ := h
  rw [ofSegment?] at hseg
  split at hseg
  · cases hseg
  · split at hseg
    · cases hseg
    · cases hseg
      exact ⟨s, rfl⟩

/-- Components as a path has them: after the first, all are steps. -/
structure Standard (cs : List Component) : Prop where
  head : ∀ x ∈ cs.head?, x = .root ∨ x = .here ∨ IsStep x
  tail : ∀ x ∈ cs.tail, IsStep x

theorem Standard.append {cs ds : List Component} (h : Standard cs) (hds : ∀ x ∈ ds, IsStep x) :
    Standard (cs ++ ds) := by
  cases cs with
  | nil =>
      refine ⟨?_, fun x hx => hds x (List.mem_of_mem_tail hx)⟩
      intro x hx
      exact Or.inr (Or.inr (hds x (List.mem_of_mem_head? hx)))
  | cons c cs =>
      refine ⟨h.head, ?_⟩
      intro x hx
      rcases List.mem_append.mp hx with hx | hx
      · exact h.tail x hx
      · exact hds x hx

theorem Standard.of_append {cs ds : List Component} (h : Standard (cs ++ ds)) : Standard ds := by
  cases cs with
  | nil => exact h
  | cons c cs =>
      have hds : ∀ x ∈ ds, IsStep x := fun x hx => h.tail x (List.mem_append_right cs hx)
      refine ⟨?_, fun x hx => hds x (List.mem_of_mem_tail hx)⟩
      intro x hx
      exact Or.inr (Or.inr (hds x (List.mem_of_mem_head? hx)))

theorem Standard.left {cs ds : List Component} (h : Standard (cs ++ ds)) : Standard cs := by
  cases cs with
  | nil => exact ⟨by simp, by simp⟩
  | cons c cs => exact ⟨h.head, fun x hx => h.tail x (List.mem_append_left ds hx)⟩

theorem Standard.isStep {cs : List Component} (h : Standard cs) {x : Component} (hx : x ∈ cs)
    (hroot : x ≠ .root) (hhere : x ≠ .here) : IsStep x := by
  cases cs with
  | nil => cases hx
  | cons c cs =>
      rcases List.mem_cons.mp hx with rfl | hx
      · exact ((h.head x rfl).resolve_left hroot).resolve_left hhere
      · exact h.tail x hx

theorem standard_of_steps {ds : List Component} (h : ∀ x ∈ ds, IsStep x) : Standard ds := by
  have hnil : Standard [] := ⟨by simp, by simp⟩
  exact hnil.append h

/-- Between slashes stand texts without a slash, none of them empty or a dot. -/
theorem Standard.segments {cs : List Component} (h : Standard cs) :
    ∀ s ∈ cs.filterMap segment?, '/' ∉ s ∧ s ≠ [] ∧ s ≠ ['.'] := by
  intro s hs
  obtain ⟨x, hx, hseg⟩ := List.mem_filterMap.mp hs
  have hroot : x ≠ .root := by
    intro heq
    rw [heq] at hseg
    cases hseg
  have hhere : x ≠ .here := by
    intro heq
    rw [heq] at hseg
    cases hseg
  obtain ⟨s', hseg', hread, hslash⟩ := h.isStep hx hroot hhere
  rw [Option.some.inj (hseg.symm.trans hseg')]
  refine ⟨hslash, ?_, ?_⟩ <;> intro heq <;> rw [heq] at hread <;> cases hread

theorem not_isStep_root : ¬ IsStep .root := by
  rintro ⟨s, hs, -⟩
  cases hs

private theorem filterMap_segment? {ds : List Component} (h : ∀ x ∈ ds, IsStep x) :
    (ds.filterMap segment?).filterMap ofSegment? = ds ∧ (ds.filterMap segment? = [] → ds = []) := by
  induction ds with
  | nil => simp
  | cons x ds ih =>
      obtain ⟨s, hs, hx, -⟩ := h x List.mem_cons_self
      have hback := (ih fun y hy => h y (List.mem_cons_of_mem x hy)).1
      rw [List.filterMap_cons_some hs]
      exact ⟨by rw [List.filterMap_cons_some hx, hback], by simp⟩

end Component

namespace Path

theorem components_slash_cons (v : Text) :
    components ⟨'/' :: v⟩ = .root :: (v.splitOn '/').filterMap Component.ofSegment? := by
  have hsplit : ('/' :: v).splitOn '/' = [] :: v.splitOn '/' := List.splitOn_append_cons_self [] v
  have hlast : (v.splitOn '/').isEmpty = false := by simp [List.splitOn_ne_nil]
  simp [components, hsplit, hlast, Component.ofFirstSegment?]

private theorem eq_of_splitOn_singleton {u piece : Text} (h : u.splitOn '/' = [piece]) :
    piece = u := by
  have hjoin : ['/'].intercalate (u.splitOn '/') = u := List.intercalate_splitOn '/'
  rwa [h, List.intercalate_singleton] at hjoin

theorem components_ne_nil {p : Path} (h : p.spelling ≠ []) : p.components ≠ [] := by
  obtain ⟨first, rest, hpieces⟩ := List.exists_cons_of_ne_nil (List.splitOn_ne_nil '/' p.spelling)
  have hfirst : Component.ofFirstSegment? first rest.isEmpty ≠ none := by
    by_cases hempty : first = []
    · cases rest with
      | nil => exact absurd ((eq_of_splitOn_singleton hpieces).symm.trans hempty) h
      | cons piece rest => simp [Component.ofFirstSegment?, hempty]
    · by_cases hdot : first = ['.']
      · simp [Component.ofFirstSegment?, hdot]
      · by_cases hdots : first = ['.', '.'] <;>
          simp [Component.ofFirstSegment?, Component.ofSegment?, hempty, hdot, hdots]
  simp [components, hpieces, hfirst]

theorem components_append {u : Text} (hu : u ≠ []) (v : Text) :
    components ⟨u ++ '/' :: v⟩ =
      components ⟨u⟩ ++ (v.splitOn '/').filterMap Component.ofSegment? := by
  obtain ⟨first, rest, hpieces⟩ := List.exists_cons_of_ne_nil (List.splitOn_ne_nil '/' u)
  have hsplit : (u ++ '/' :: v).splitOn '/' = first :: (rest ++ v.splitOn '/') := by
    rw [List.splitOn_append_cons_self, hpieces]
    rfl
  have hlast : (rest ++ v.splitOn '/').isEmpty = false := by simp [List.splitOn_ne_nil]
  simp only [components, hpieces, hsplit, hlast, List.filterMap_append, ← List.append_assoc]
  cases rest with
  | cons piece rest => rfl
  | nil =>
      -- a single piece is the whole text, which is not empty
      have hne : first ≠ [] := eq_of_splitOn_singleton hpieces ▸ hu
      simp [Component.ofFirstSegment?, hne]

theorem root_of_isAbsolute {q : Path} (h : q.isAbsolute = true) :
    ∃ cs, q.components = .root :: cs := by
  obtain ⟨spelling⟩ := q
  cases spelling with
  | nil => simp [isAbsolute] at h
  | cons c v =>
      obtain rfl : c = '/' := by simpa [isAbsolute] using h
      exact ⟨_, components_slash_cons v⟩

/-- The root is a component exactly if nothing stands before the first slash. -/
theorem root_mem_components_iff {p : Path} {first : Text} {rest : List Text}
    (hpieces : p.spelling.splitOn '/' = first :: rest) :
    .root ∈ p.components ↔ first = [] ∧ rest ≠ [] := by
  have htail : .root ∉ rest.filterMap Component.ofSegment? := by
    intro hmem
    obtain ⟨s, -, hs⟩ := List.mem_filterMap.mp hmem
    rw [Component.ofSegment?] at hs
    split at hs
    · cases hs
    · split at hs <;> cases hs
  simp only [components, hpieces, List.mem_append, htail, or_false]
  rw [Option.mem_toList, Component.ofFirstSegment?]
  by_cases hempty : first = []
  · cases rest <;> simp [hempty]
  · by_cases hdot : first = ['.']
    · simp [hdot]
    · by_cases hdots : first = ['.', '.'] <;> simp [hempty, hdot, hdots, Component.ofSegment?]

theorem join_of_spelling_nil {p : Path} (h : p.spelling = []) (q : Path) : p.join q = q := by
  rw [join]
  split
  · rfl
  · rw [if_pos (Or.inl h), h, List.nil_append]

theorem components_join_eq {p q : Path} (hp : p.spelling ≠ []) (h : q.isAbsolute = false) :
    (p.join q).components =
      p.components ++ (q.spelling.splitOn '/').filterMap Component.ofSegment? := by
  obtain ⟨u⟩ := p
  obtain ⟨v⟩ := q
  simp only [join, h, Bool.false_eq_true, if_false]
  split
  · rename_i hend
    obtain ⟨w, rfl⟩ := List.getLast?_eq_some_iff.mp (hend.resolve_left hp)
    rw [List.append_assoc, List.singleton_append]
    cases w with
    | nil =>
        rw [List.nil_append, List.nil_append, components_slash_cons, components_slash_cons]
        simp [Component.ofSegment?]
    | cons c w =>
        rw [components_append (by simp), components_append (by simp)]
        simp [Component.ofSegment?]
  · exact components_append hp v

theorem components_of_spelling_nil {p : Path} (h : p.spelling = []) : p.components = [] := by
  rw [components, h]
  rfl

theorem components_join {p q : Path} (h : q.isAbsolute = false) :
    p.components <+: (p.join q).components := by
  by_cases hp : p.spelling = []
  · rw [components_of_spelling_nil hp]
    exact List.nil_prefix
  · rw [components_join_eq hp h]
    exact List.prefix_append _ _

theorem afterLast_join (p q : Path) :
    Text.afterLast '/' (p.join q).spelling = Text.afterLast '/' q.spelling := by
  rw [join]
  split
  · rfl
  · split
    · rename_i hend
      rcases hend with hnil | hend
      · rw [hnil, List.nil_append]
      · obtain ⟨w, hw⟩ := List.getLast?_eq_some_iff.mp hend
        rw [hw, List.append_assoc, List.singleton_append, Text.afterLast_append_cons]
    · exact Text.afterLast_append_cons '/' _ _

theorem components_standard (p : Path) : Component.Standard p.components := by
  obtain ⟨first, rest, hpieces⟩ := List.exists_cons_of_ne_nil (List.splitOn_ne_nil '/' p.spelling)
  have hslash : ∀ s ∈ first :: rest, '/' ∉ s := by
    rw [← hpieces]
    exact fun s hs => (notMem_of_mem_splitOn hs).1
  have hrest : ∀ x ∈ rest.filterMap Component.ofSegment?, Component.IsStep x := by
    intro x hx
    obtain ⟨s, hs, hseg⟩ := List.mem_filterMap.mp hx
    exact Component.isStep_of_ofSegment? hseg (hslash s (List.mem_cons_of_mem first hs))
  simp only [components, hpieces]
  apply Component.Standard.append _ hrest
  refine ⟨?_, ?_⟩
  · intro x hx
    have hfirst : Component.ofFirstSegment? first rest.isEmpty = some x := by simpa using hx
    rw [Component.ofFirstSegment?] at hfirst
    split at hfirst
    · split at hfirst
      · cases hfirst
      · cases hfirst
        exact Or.inl rfl
    · split at hfirst
      · cases hfirst
        exact Or.inr (Or.inl rfl)
      · exact Or.inr (Or.inr
          (Component.isStep_of_ofSegment? hfirst (hslash first List.mem_cons_self)))
  · intro x hx
    cases hfirst : Component.ofFirstSegment? first rest.isEmpty <;> simp [hfirst] at hx

theorem segment_mem {p : Path} {x : Component} {s : Text} (hx : x ∈ p.components)
    (hs : x.segment? = some s) : s ∈ p.spelling.splitOn '/' := by
  have hpiece {piece : Text} (h : Component.ofSegment? piece = some x) : s = piece := by
    rw [Component.ofSegment?] at h
    split at h
    · cases h
    · split at h
      · rename_i hdots
        cases h
        exact (Option.some.inj hs).symm.trans hdots.symm
      · cases h
        exact (Option.some.inj hs).symm
  rw [components] at hx
  split at hx
  · cases hx
  · rename_i first rest hpieces
    rw [hpieces]
    rcases List.mem_append.mp hx with hx | hx
    · have hfirst : Component.ofFirstSegment? first rest.isEmpty = some x := by simpa using hx
      rw [Component.ofFirstSegment?] at hfirst
      split at hfirst
      · split at hfirst
        · cases hfirst
        · cases hfirst
          cases hs
      · split at hfirst
        · cases hfirst
          cases hs
        · exact hpiece hfirst ▸ List.mem_cons_self
    · obtain ⟨piece, hmem, hseg⟩ := List.mem_filterMap.mp hx
      exact hpiece hseg ▸ List.mem_cons_of_mem first hmem

theorem mem_canonical {p : Path} {c : Char} (h : c ∈ p.canonical) : c = '/' ∨ c ∈ p.spelling := by
  have hjoined : c = '/' ∨
      c ∈ List.intercalate ['/'] (p.components.filterMap Component.segment?) := by
    rw [canonical, Component.canonical, List.mem_append] at h
    rcases h with h | h
    · split at h
      · exact Or.inl (List.mem_singleton.mp h)
      · cases h
    · exact Or.inr h
  rcases hjoined with h | h
  · exact Or.inl h
  · rcases mem_intercalate h with h | ⟨s, hs, hc⟩
    · exact Or.inl (List.mem_singleton.mp h)
    · obtain ⟨x, hx, hseg⟩ := List.mem_filterMap.mp hs
      exact Or.inr ((notMem_of_mem_splitOn (segment_mem hx hseg)).2 c hc)

section Canonical

open Component

variable {cs ds : List Component}

private theorem pieces_intercalate (h : ∀ x ∈ ds, IsStep x) :
    ((List.intercalate ['/'] (ds.filterMap segment?)).splitOn '/').filterMap ofSegment? = ds := by
  have hall := (standard_of_steps h).segments
  obtain ⟨hback, hnil⟩ := filterMap_segment? h
  by_cases hsegs : ds.filterMap segment? = []
  · rw [hnil hsegs]
    rfl
  · rw [List.splitOn_intercalate '/' (fun s hs => (hall s hs).1) hsegs, hback]

private theorem components_intercalate (h : ∀ x ∈ ds, IsStep x) :
    components ⟨List.intercalate ['/'] (ds.filterMap segment?)⟩ = ds := by
  have hall := (standard_of_steps h).segments
  have hnil := (filterMap_segment? h).2
  cases hsegs : ds.filterMap segment? with
  | nil =>
      rw [hnil hsegs]
      rfl
  | cons s segs =>
      have hs := hall s (by simp [hsegs])
      have hsplit : (List.intercalate ['/'] (s :: segs)).splitOn '/' = s :: segs := by
        rw [← hsegs]
        exact List.splitOn_intercalate '/' (fun s hs => (hall s hs).1) (by simp [hsegs])
      have hpieces := pieces_intercalate h
      rw [hsegs, hsplit] at hpieces
      simp only [components, hsplit, ofFirstSegment?, if_neg hs.2.1, if_neg hs.2.2]
      rw [← hpieces]
      cases hseg : ofSegment? s <;> simp [hseg]

private theorem components_root_intercalate (h : ∀ x ∈ ds, IsStep x) :
    components ⟨'/' :: List.intercalate ['/'] (ds.filterMap segment?)⟩ = .root :: ds := by
  rw [components_slash_cons, pieces_intercalate h]

theorem canonical_of_steps (h : ∀ x ∈ ds, IsStep x) :
    Component.canonical ds = List.intercalate ['/'] (ds.filterMap segment?) := by
  rw [Component.canonical, if_neg, List.nil_append]
  intro hhead
  exact not_isStep_root (h .root (List.mem_of_mem_head? hhead))

theorem pieces_canonical (h : ∀ x ∈ ds, IsStep x) :
    ((Component.canonical ds).splitOn '/').filterMap ofSegment? = ds := by
  rw [canonical_of_steps h, pieces_intercalate h]

/-- The canonical text of some components keeps all but dots. -/
theorem components_canonical (h : Standard cs) :
    components ⟨Component.canonical cs⟩ = cs.filter (· ≠ .here) := by
  have hsteps {ds : List Component} (hds : ∀ x ∈ ds, IsStep x) : ds.filter (· ≠ .here) = ds := by
    rw [List.filter_eq_self]
    intro x hx
    obtain ⟨s, hs, -⟩ := hds x hx
    cases x <;> simp_all [segment?]
  cases cs with
  | nil => rfl
  | cons c cs =>
      have htail : ∀ x ∈ cs, IsStep x := h.tail
      rcases h.head c rfl with rfl | rfl | hc
      · rw [List.filter_cons_of_pos (by decide), hsteps htail]
        exact components_root_intercalate htail
      · rw [List.filter_cons_of_neg (by decide), hsteps htail]
        exact components_intercalate htail
      · have hall : ∀ x ∈ c :: cs, IsStep x := by
          intro x hx
          rcases List.mem_cons.mp hx with rfl | hx
          · exact hc
          · exact htail x hx
        rw [hsteps hall, canonical_of_steps hall, components_intercalate hall]

/-- So components with the same canonical text differ in dots only. -/
theorem filter_eq_of_canonical_eq (hcs : Standard cs) (hds : Standard ds)
    (h : Component.canonical cs = Component.canonical ds) :
    cs.filter (· ≠ .here) = ds.filter (· ≠ .here) := by
  rw [← components_canonical hcs, ← components_canonical hds, h]

private theorem segments_filter (cs : List Component) :
    (cs.filter (· ≠ .here)).filterMap segment? = cs.filterMap segment? := by
  rw [List.filterMap_filter]
  congr 1
  funext x
  cases x <;> simp [segment?]

theorem canonical_filter (h : Standard cs) :
    Component.canonical (cs.filter (· ≠ .here)) = Component.canonical cs := by
  have hhead : (cs.filter (· ≠ .here)).head? = some .root ↔ cs.head? = some .root := by
    cases cs with
    | nil => rfl
    | cons c cs =>
        by_cases hc : c = .here
        · have htail : ∀ x ∈ (cs.filter (· ≠ .here)).head?, x ≠ .root := by
            rintro x hx rfl
            exact not_isStep_root (h.tail .root (List.mem_filter.mp (List.mem_of_mem_head? hx)).1)
          subst hc
          rw [List.filter_cons_of_neg (by decide)]
          constructor
          · intro hroot
            exact absurd rfl (htail .root hroot)
          · intro hroot
            cases hroot
        · rw [List.filter_cons_of_pos (by simpa using hc)]
          rfl
  simp only [Component.canonical, segments_filter, hhead]

theorem canonical_append_congr {cs' : List Component} (hcs : Standard cs) (hcs' : Standard cs')
    (h : cs'.filter (· ≠ .here) = cs.filter (· ≠ .here)) (hds : .root ∉ ds) :
    Component.canonical (cs' ++ ds) = Component.canonical (cs ++ ds) := by
  have hhead {cs : List Component} (hcs : Standard cs) :
      (cs ++ ds).head? = some .root ↔ .root ∈ cs.filter (· ≠ .here) := by
    rw [List.mem_filter]
    cases cs with
    | nil =>
        constructor
        · intro hroot
          exact absurd (List.mem_of_mem_head? hroot) hds
        · intro hroot
          cases hroot.1
    | cons x xs =>
        have hxs : .root ∉ xs := fun hmem => not_isStep_root (hcs.tail .root hmem)
        simp [hxs, eq_comm]
  have hsegs : cs'.filterMap segment? = cs.filterMap segment? := by
    rw [← segments_filter, h, segments_filter]
  simp only [Component.canonical, List.filterMap_append, hsegs, hhead hcs, hhead hcs', h]

private theorem getLast?_intercalate {segs : List Text} (hne : segs ≠ [])
    (hall : ∀ s ∈ segs, '/' ∉ s ∧ s ≠ [] ∧ s ≠ ['.']) :
    ∃ c, (List.intercalate ['/'] segs).getLast? = some c ∧ c ≠ '/' := by
  obtain ⟨front, s, rfl⟩ : ∃ front s, segs = front ++ [s] :=
    ⟨_, _, (List.dropLast_concat_getLast hne).symm⟩
  have hs := hall s (by simp)
  have hend := List.getLast?_eq_some_getLast hs.2.1
  refine ⟨s.getLast hs.2.1, ?_, ?_⟩
  · by_cases hnil : front = []
    · rw [hnil, List.nil_append, List.intercalate_singleton, hend]
    · rw [intercalate_concat hnil, ← List.append_assoc, List.getLast?_append, hend, Option.some_or]
  · intro heq
    exact hs.1 (heq ▸ List.getLast_mem hs.2.1)

/-- A canonical text ends with a slash only if it is nothing but that. -/
theorem canonical_of_slash_last (h : Standard cs)
    (hslash : (Component.canonical cs).getLast? = some '/') : Component.canonical cs = ['/'] := by
  rw [Component.canonical] at hslash ⊢
  by_cases hnil : cs.filterMap segment? = []
  · rw [hnil, List.intercalate_nil, List.append_nil] at hslash ⊢
    split at hslash
    · exact if_pos (by assumption)
    · cases hslash
  · obtain ⟨c, hlast, hne⟩ := getLast?_intercalate hnil h.segments
    rw [List.getLast?_append, hlast, Option.some_or, Option.some.injEq] at hslash
    exact absurd hslash hne

theorem canonical_ne_dot (h : Standard cs) : Component.canonical cs ≠ ['.'] := by
  intro heq
  have hdot : components ⟨['.']⟩ = [.here] := rfl
  have hkept := components_canonical h
  rw [heq, hdot] at hkept
  have hmem : Component.here ∈ cs.filter (· ≠ .here) := hkept ▸ List.mem_singleton_self _
  simp at hmem

/-- A name is set off by a slash from what stands before it, unless that is nothing or a slash. -/
theorem canonical_concat (h : Standard cs) (name : Text) :
    Component.canonical (cs ++ [.name (.text name)]) =
      if Component.canonical cs = [] then name
      else if Component.canonical cs = ['/'] then '/' :: name
      else Component.canonical cs ++ '/' :: name := by
  have hsegs : (cs ++ [Component.name (.text name)]).filterMap segment? =
      cs.filterMap segment? ++ [name] := by
    rw [List.filterMap_append]
    rfl
  have hhead : (cs ++ [Component.name (.text name)]).head? = some .root ↔ cs.head? = some .root := by
    cases cs <;> simp
  by_cases hnil : cs.filterMap segment? = []
  · simp only [Component.canonical, hsegs, hhead, hnil, List.nil_append, List.intercalate_singleton,
      List.intercalate_nil, List.append_nil]
    by_cases hroot : cs.head? = some .root <;> simp [hroot]
  · obtain ⟨c, hlast, hne⟩ := getLast?_intercalate hnil h.segments
    have hend : (Component.canonical cs).getLast? = some c := by
      rw [Component.canonical, List.getLast?_append, hlast, Option.some_or]
    have hslash : Component.canonical cs ≠ ['/'] := by
      intro heq
      rw [heq] at hend
      exact hne (Option.some.inj hend).symm
    have hempty : Component.canonical cs ≠ [] := by
      intro heq
      rw [heq] at hend
      cases hend
    rw [if_neg hempty, if_neg hslash]
    simp only [Component.canonical, hsegs, hhead, intercalate_concat hnil, List.append_assoc,
      List.singleton_append]

end Canonical
end Path
end SuiteMake

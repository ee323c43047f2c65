import SuiteMake.Proofs.Path

/-!
# The canonical form of a path

But for a dot that may open it, a path and its canonical text have the same components. So paths
have the same canonical text exactly if they have the same components without dots, and joining a
relative path to another puts its components behind those of the other.
-/

namespace SuiteMake

open Component

namespace Path

variable {p p' q q' : Path}

/-- The components without the dot that may open a path. -/
def plain (p : Path) : List Component := p.components.filter (· ≠ .here)

theorem plain_congr (h : p'.canonical = p.canonical) : p'.plain = p.plain :=
  filter_eq_of_canonical_eq p'.components_standard p.components_standard h

theorem plain_ne_nil (h : p.canonical ≠ []) : p.plain ≠ [] := by
  intro hnil
  apply h
  rw [canonical, ← canonical_filter p.components_standard]
  rw [plain] at hnil
  rw [hnil]
  rfl

theorem root_mem_plain_iff : .root ∈ p.plain ↔ .root ∈ p.components := by
  rw [plain, List.mem_filter]
  exact and_iff_left rfl

theorem isAbsolute_iff : p.isAbsolute = true ↔ .root ∈ p.plain := by
  rw [root_mem_plain_iff]
  constructor
  · intro h
    obtain ⟨cs, hcs⟩ := root_of_isAbsolute h
    rw [hcs]
    exact List.mem_cons_self
  · intro h
    have hjoin : ['/'].intercalate (p.spelling.splitOn '/') = p.spelling :=
      List.intercalate_splitOn '/'
    obtain ⟨first, rest, hpieces⟩ := List.exists_cons_of_ne_nil (List.splitOn_ne_nil '/' p.spelling)
    obtain ⟨hfirst, hrest⟩ := (root_mem_components_iff hpieces).mp h
    obtain ⟨second, rest, rfl⟩ := List.exists_cons_of_ne_nil hrest
    rw [hpieces, hfirst] at hjoin
    rw [isAbsolute, ← hjoin]
    simp [List.intercalate]

theorem isAbsolute_congr (h : p'.plain = p.plain) : p'.isAbsolute = p.isAbsolute := by
  rw [Bool.eq_iff_iff, isAbsolute_iff, isAbsolute_iff, h]

private theorem ne_here_of_ofSegment? {s : Text} {x : Component} (h : ofSegment? s = some x) :
    x ≠ .here := by
  rintro rfl
  rw [ofSegment?] at h
  split at h
  · cases h
  · split at h <;> cases h

private theorem plain_first {first : Text} {last : Bool}
    (h : ofFirstSegment? first last ≠ some .root) :
    (ofFirstSegment? first last).toList.filter (· ≠ .here) = (ofSegment? first).toList := by
  by_cases hempty : first = []
  · cases last with
    | true => simp [hempty, ofFirstSegment?, ofSegment?]
    | false => simp [hempty, ofFirstSegment?] at h
  · by_cases hdot : first = ['.']
    · simp [hdot, ofFirstSegment?, ofSegment?]
    · rw [ofFirstSegment?, if_neg hempty, if_neg hdot, List.filter_eq_self]
      intro x hx
      exact decide_eq_true (ne_here_of_ofSegment? (Option.mem_toList.mp hx))

theorem pieces_of_relative (h : q.isAbsolute = false) :
    (q.spelling.splitOn '/').filterMap ofSegment? = q.plain := by
  have hroot : .root ∉ q.components := by
    rw [← root_mem_plain_iff, ← isAbsolute_iff, h]
    exact Bool.false_ne_true
  obtain ⟨first, rest, hpieces⟩ := List.exists_cons_of_ne_nil (List.splitOn_ne_nil '/' q.spelling)
  simp only [components, hpieces, List.mem_append, not_or, Option.mem_toList] at hroot
  have hrest : (rest.filterMap ofSegment?).filter (· ≠ .here) = rest.filterMap ofSegment? := by
    rw [List.filter_eq_self]
    intro x hx
    obtain ⟨s, -, hs⟩ := List.mem_filterMap.mp hx
    exact decide_eq_true (ne_here_of_ofSegment? hs)
  simp only [plain, components, hpieces]
  rw [List.filter_append, plain_first hroot.1, hrest, ← List.singleton_append,
    List.filterMap_append]
  rfl

theorem plain_join (p q : Path) :
    (p.join q).plain = if q.isAbsolute then q.plain else p.plain ++ q.plain := by
  cases h : q.isAbsolute with
  | true => rw [join, if_pos h, if_pos rfl]
  | false =>
      rw [if_neg Bool.false_ne_true]
      by_cases hp : p.spelling = []
      · have hnil : p.plain = [] := by
          rw [plain, components_of_spelling_nil hp]
          rfl
        rw [join_of_spelling_nil hp, hnil, List.nil_append]
      · rw [plain, components_join_eq hp h, List.filter_append, pieces_of_relative h, plain, plain,
          List.filter_filter]
        simp

theorem plain_join_congr (hp : p'.plain = p.plain) (hq : q'.plain = q.plain) :
    (p'.join q').plain = (p.join q).plain := by
  rw [plain_join, plain_join, isAbsolute_congr hq, hp, hq]

theorem plain_join_ne_nil (hq : q.plain ≠ []) : (p.join q).plain ≠ [] := by
  rw [plain_join]
  split
  · exact hq
  · intro hnil
    exact hq (List.append_eq_nil_iff.mp hnil).2

theorem plain_of_absolute (h : p.isAbsolute = true) : p.plain = p.components := by
  obtain ⟨cs, hcs⟩ := root_of_isAbsolute h
  have hsteps := p.components_standard.tail
  rw [plain, List.filter_eq_self, hcs]
  rw [hcs, List.tail_cons] at hsteps
  intro x hx
  apply decide_eq_true
  rintro rfl
  rcases List.mem_cons.mp hx with hx | hx
  · cases hx
  · obtain ⟨s, hs, -⟩ := hsteps .here hx
    cases hs

/-- Joined to a path that is not empty, a spelling leaves no trace in the components. -/
theorem components_join_congr (hp : p.spelling ≠ []) (hq : q'.plain = q.plain) :
    (p.join q').components = (p.join q).components := by
  have habsolute := isAbsolute_congr hq
  cases h : q.isAbsolute with
  | true =>
      rw [h] at habsolute
      rw [join, if_pos habsolute, join, if_pos h, ← plain_of_absolute habsolute, hq,
        plain_of_absolute h]
  | false =>
      rw [h] at habsolute
      rw [components_join_eq hp habsolute, components_join_eq hp h, pieces_of_relative habsolute,
        pieces_of_relative h, hq]

theorem components_of_canonical (p : Path) : components ⟨p.canonical⟩ = p.plain :=
  components_canonical p.components_standard

theorem plain_of_canonical (p : Path) : plain ⟨p.canonical⟩ = p.plain := by
  rw [plain, components_of_canonical, plain, List.filter_filter]
  simp

theorem canonical_eq_iff : p.canonical = q.canonical ↔ p.plain = q.plain := by
  constructor
  · exact plain_congr
  · intro h
    rw [plain, plain] at h
    rw [canonical, canonical, ← canonical_filter p.components_standard, h,
      canonical_filter q.components_standard]

/-- A canonical text is its own canonical text. It tells the components of a path, dots apart, and
nothing else. The components of a relative path follow those of the path it is joined to. -/
theorem canonical_is_normal_form (p q : Path) :
    canonical ⟨p.canonical⟩ = p.canonical ∧
    (p.canonical = q.canonical ↔ p.plain = q.plain) ∧
    (q.isAbsolute = false → components ⟨(p.join q).canonical⟩ =
      components ⟨p.canonical⟩ ++ components ⟨q.canonical⟩) := by
  refine ⟨canonical_eq_iff.mpr (plain_of_canonical p), canonical_eq_iff, ?_⟩
  intro h
  rw [components_of_canonical, components_of_canonical, components_of_canonical, plain_join, h,
    if_neg Bool.false_ne_true]

namespace Sample

def slashed : Path := ⟨"//a/.//b/".toList⟩
def dotted : Path := ⟨".//..//./c".toList⟩

end Sample

theorem canonical_is_normal_form_dotted :
    Sample.dotted.isAbsolute = false ∧
    (Sample.slashed.join Sample.dotted).canonical = "/a/b/../c".toList ∧
    components ⟨(Sample.slashed.join Sample.dotted).canonical⟩ =
      components ⟨Sample.slashed.canonical⟩ ++ components ⟨Sample.dotted.canonical⟩ :=
  ⟨rfl, by decide, (canonical_is_normal_form Sample.slashed Sample.dotted).2.2 rfl⟩

end Path
end SuiteMake

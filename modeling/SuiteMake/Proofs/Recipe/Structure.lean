import SuiteMake.CommandLine.Settings
import SuiteMake.Proofs.Recipe.Glob

/-!
# The structure of source globs

Markers are checked before they are pasted into globs, and the case prefix is not. The globs keep
their structure under just those case prefixes that hold neither a star nor a character that ends a
glob.
-/

namespace SuiteMake

/-- The markers that are left of those given; the standard ones if none is given. -/
def Settings.keptMarkers (s : Settings) : List Text :=
  if s.exclude = [] then ["w32".toList, "wchar_t".toList] else s.exclude.filter (· ≠ [])

theorem Variants.markers_ofMarkers {markers : List Text} {v : Variants}
    (h : ofMarkers markers = .ok v) : v.markers = markers.filter (· ≠ []) := by
  rw [ofMarkers] at h
  split at h
  · cases h
  · rw [← Except.ok.inj h]

theorem Settings.markers_config {s : Settings} {c : Config} (h : s.config = .ok c) :
    c.variants.markers = s.keptMarkers := by
  obtain ⟨v, hv, hc⟩ := bind_eq_ok_iff.mp h
  have hvariants : c.variants = v := by rw [← Except.ok.inj hc]
  rw [hvariants, keptMarkers]
  rw [variants] at hv
  split at hv
  · rename_i hexclude
    rw [if_pos hexclude, ← Except.ok.inj hv]
    rfl
  · rename_i hexclude
    rw [if_neg hexclude]
    exact Variants.markers_ofMarkers hv

namespace Recipe

open Text

/-- The characters at which a glob or a list of globs ends, and those that open a call. -/
def separates (x : Char) : Bool := isSpace x || ",$()".toList.contains x

/-- The globs of an expression are those of the markers, in their order, and that of all case files.
None of them holds more stars than were put into it, and none holds a separator. -/
structure Structured (markers : List Text) (c : Config) (dir ext : Text) : Prop where
  globs : wildcards (selection c ext dir) =
    markers.map (variantPattern c dir ext) ++ [casePattern c dir ext]
  variants : ∀ m ∈ markers, (variantPattern c dir ext m).count '*' = 2
  every : (casePattern c dir ext).count '*' = 1
  unseparated : ∀ glob ∈ wildcards (selection c ext dir), ∀ x ∈ glob, separates x = false

theorem separates_breaksGlob {x : Char} (h : separates x = true) :
    Variants.breaksGlob x = true ∧ x ≠ '/' ∧ x ≠ '*' := by
  rw [separates, Bool.or_eq_true] at h
  rcases h with h | h
  · refine ⟨by rw [Variants.breaksGlob, h, Bool.true_or], ?_, ?_⟩
    · rintro rfl
      exact absurd h (by decide)
    · rintro rfl
      exact absurd h (by decide)
  · have hmem : x ∈ [',', '$', '(', ')'] := List.contains_iff_mem.mp h
    simp only [List.mem_cons, List.not_mem_nil, or_false] at hmem
    rcases hmem with rfl | rfl | rfl | rfl <;> decide

section Patterns

variable {c : Config} {dir m : Text} (hdir : Plain dir) (l : Language)

include hdir

theorem mem_opening_iff {x : Char} (hx : separates x = true) :
    x ∈ dir ++ '/' :: c.casePrefix ↔ x ∈ c.casePrefix := by
  have hbreaks := separates_breaksGlob hx
  have hnot : x ∉ dir := hdir.notMem hbreaks.1 hbreaks.2.1
  simp [hnot, hbreaks.2.1]

theorem count_opening :
    (dir ++ '/' :: c.casePrefix).count '*' = c.casePrefix.count '*' := by
  have hnot : dir.count '*' = 0 := List.count_eq_zero.mpr (hdir.notMem (by decide) (by decide))
  rw [List.count_append, hnot, List.count_cons_of_ne (by decide), Nat.zero_add]

theorem mem_casePattern_iff {x : Char} (hx : separates x = true) :
    x ∈ casePattern c dir l.extension ↔ x ∈ c.casePrefix := by
  have hbreaks := separates_breaksGlob hx
  have hext := notMem_extension l hbreaks.1
  rw [casePattern_eq, List.mem_append, mem_opening_iff hdir hx, List.mem_cons]
  simp only [hbreaks.2.2, hext, or_false]

theorem mem_variantPattern_iff (hm : m ∈ c.variants.markers) {x : Char}
    (hx : separates x = true) :
    x ∈ variantPattern c dir l.extension m ↔ x ∈ c.casePrefix := by
  have hbreaks := separates_breaksGlob hx
  have hext := notMem_extension l hbreaks.1
  have hmarker : x ∉ m :=
    (plain_of_pastable (c.variants.pastable m hm).2).1.notMem hbreaks.1 hbreaks.2.1
  rw [variantPattern_eq, List.mem_append, mem_opening_iff hdir hx, List.mem_cons, List.mem_append,
    List.mem_cons]
  simp only [hbreaks.2.2, hmarker, hext, or_false]

theorem count_casePattern :
    (casePattern c dir l.extension).count '*' = c.casePrefix.count '*' + 1 := by
  have hext : ('.' :: l.extension).count '*' = 0 :=
    List.count_eq_zero.mpr (notMem_extension l (by decide))
  rw [casePattern_eq, List.count_append, count_opening hdir, List.count_cons_self, hext]

theorem count_variantPattern (hm : m ∈ c.variants.markers) :
    (variantPattern c dir l.extension m).count '*' = c.casePrefix.count '*' + 2 := by
  have hmarker : m.count '*' = 0 := List.count_eq_zero.mpr
    ((plain_of_pastable (c.variants.pastable m hm).2).1.notMem (by decide) (by decide))
  have hext : ('.' :: l.extension).count '*' = 0 :=
    List.count_eq_zero.mpr (notMem_extension l (by decide))
  rw [variantPattern_eq, List.count_append, count_opening hdir, List.count_cons_self,
    List.count_append, hmarker, List.count_cons_self, hext]

end Patterns

section Structure

variable {c : Config} {dir : Text} (hdir : Plain dir) (l : Language)

include hdir

theorem Structured.casePrefix_unseparated
    (h : Structured c.variants.markers c dir l.extension) :
    ∀ x ∈ c.casePrefix, x ≠ '*' ∧ separates x = false := by
  intro x hx
  refine ⟨?_, ?_⟩
  · rintro rfl
    have hcount := h.every
    rw [count_casePattern hdir] at hcount
    exact List.count_eq_zero.mp (Nat.succ.inj hcount) hx
  · have hevery : casePattern c dir l.extension ∈ wildcards (selection c l.extension dir) := by
      rw [h.globs]
      simp
    rw [← Bool.not_eq_true]
    intro hseparates
    have hmem := (mem_casePattern_iff hdir l hseparates).mpr hx
    rw [h.unseparated _ hevery x hmem] at hseparates
    cases hseparates

theorem structured_of_unseparated
    (h : ∀ x ∈ c.casePrefix, x ≠ '*' ∧ separates x = false) :
    Structured c.variants.markers c dir l.extension := by
  have hseparates {x : Char} (hx : separates x = true) : x ∉ c.casePrefix := by
    intro hmem
    rw [(h x hmem).2] at hx
    cases hx
  have hstars : c.casePrefix.count '*' = 0 :=
    List.count_eq_zero.mpr fun hmem => (h '*' hmem).1 rfl
  have hcase {x : Char} (hx : separates x = true) : x ∉ casePattern c dir l.extension := by
    rw [mem_casePattern_iff hdir l hx]
    exact hseparates hx
  have hvariant {x : Char} (hx : separates x = true) :
      ∀ m ∈ c.variants.markers, x ∉ variantPattern c dir l.extension m := by
    intro m hm
    rw [mem_variantPattern_iff hdir l hm hx]
    exact hseparates hx
  have hclosing : separates ')' = true := by decide
  have hglobs := wildcards_selection (hcase hclosing) (hvariant hclosing)
  refine ⟨hglobs, ?_, ?_, ?_⟩
  · intro m hm
    rw [count_variantPattern hdir l hm, hstars]
  · rw [count_casePattern hdir, hstars]
  · intro glob hglob x hx
    rw [← Bool.not_eq_true]
    intro hsep
    rw [hglobs, List.mem_append, List.mem_map, List.mem_singleton] at hglob
    rcases hglob with ⟨m, hm, rfl⟩ | rfl
    · exact hvariant hsep m hm hx
    · exact hcase hsep hx

end Structure

/-- Of settings that are accepted, the case prefix alone decides whether the globs keep their
structure: it must hold no star and no separator. -/
theorem glob_structure_iff {s : Settings} {c : Config} (h : s.config = .ok c) {dir : Text}
    (hdir : Plain dir) (l : Language) :
    Structured s.keptMarkers c dir l.extension ↔
      ∀ x ∈ c.casePrefix, x ≠ '*' ∧ separates x = false := by
  rw [← s.markers_config h]
  exact ⟨Structured.casePrefix_unseparated hdir l, structured_of_unseparated hdir l⟩

end Recipe

namespace Sample

def bracketedSettings : Settings where
  exclude := ["v1.2".toList, [], "a".toList]
  casePrefix := some "C[/".toList

def bracketedConfig : Config where
  casePrefix := "C[/".toList
  variants := ⟨["v1.2".toList, "a".toList], by decide⟩

/-- A case prefix that a glob would read as a pattern. -/
def starredSettings : Settings where
  casePrefix := some "C*".toList

def starredConfig : Config where
  casePrefix := "C*".toList

end Sample

namespace Recipe

theorem glob_structure_bracketed :
    Sample.bracketedSettings.config = .ok Sample.bracketedConfig ∧
    Plain Sample.dottedDirectory ∧
    (∀ x ∈ Sample.bracketedConfig.casePrefix, x ≠ '*' ∧ separates x = false) ∧
    Structured ["v1.2".toList, "a".toList] Sample.bracketedConfig Sample.dottedDirectory
      Language.cpp.extension := by
  have hconfig : Sample.bracketedSettings.config = .ok Sample.bracketedConfig := rfl
  have hdir : Plain Sample.dottedDirectory := by decide
  have hunseparated : ∀ x ∈ Sample.bracketedConfig.casePrefix, x ≠ '*' ∧ separates x = false := by
    have hall : Sample.bracketedConfig.casePrefix.all (fun x => x != '*' && !separates x) = true :=
      rfl
    intro x hx
    simpa using List.all_eq_true.mp hall x hx
  have hkept : Sample.bracketedSettings.keptMarkers = ["v1.2".toList, "a".toList] := rfl
  have hstructured := (glob_structure_iff hconfig hdir .cpp).mpr hunseparated
  rw [hkept] at hstructured
  exact ⟨hconfig, hdir, hunseparated, hstructured⟩

/-- Settings with a star in the case prefix are accepted, and the glob of all case files gets a star
too many. -/
theorem glob_structure_fails_starred :
    Sample.starredSettings.config = .ok Sample.starredConfig ∧ Plain Sample.dottedDirectory ∧
    ¬ Structured Sample.starredSettings.keptMarkers Sample.starredConfig Sample.dottedDirectory
      Language.c.extension := by
  refine ⟨rfl, by decide, ?_⟩
  intro h
  exact absurd h.every (by decide)

end Recipe
end SuiteMake

import SuiteMake.CaseName
import SuiteMake.Failure
import SuiteMake.Text.Space

/-!
# Platform variants

A case file whose name holds one of the variant markers is a variant: it is declared but
neither built nor called. Markers are pasted into globs of the recipe, so they hold no
character that would change the structure of a glob.
-/

namespace SuiteMake

/-- White space and the characters with a meaning in globs and recipes. -/
def Variants.breaksGlob (c : Char) : Bool :=
  Text.isSpace c || "$(),*?[]%\\/#:;\"'".toList.contains c

/-- The variants of a suite, told by the markers in their names. A marker can be pasted into a
glob. -/
structure Variants where
  markers : List Text
  pastable : ∀ m ∈ markers, m ≠ [] ∧ m.any Variants.breaksGlob = false
deriving DecidableEq

namespace Variants

def empty : Variants := ⟨[], by simp⟩

def standard : Variants := ⟨["w32".toList, "wchar_t".toList], by decide⟩

/-- The variants with given markers. Empty ones are dropped; the first that cannot be pasted into
a glob is refused. -/
def ofMarkers (markers : List Text) : Except Failure Variants :=
  let kept := markers.filter (· ≠ [])
  match h : kept.find? (·.any breaksGlob) with
  | some marker => .error (.invalidMarker marker)
  | none => .ok ⟨kept, fun m hm => ⟨by simpa using (List.mem_filter.mp hm).2,
      by simpa using List.find?_eq_none.mp h m hm⟩⟩

def excludes (v : Variants) (casePrefix name : Text) : Bool :=
  v.markers.any fun m => Text.occursIn m (CaseName.core casePrefix name)

def isPortable (v : Variants) (casePrefix name : Text) : Bool :=
  !v.excludes casePrefix name

end Variants
end SuiteMake

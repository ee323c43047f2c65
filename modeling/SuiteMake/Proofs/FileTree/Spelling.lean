import SuiteMake.Proofs.FileTree.Below
import SuiteMake.Proofs.Path

/-!
# Spellings of a route

Dots and slashes stay where they are met. So a walk to a name depends on its moves only, which
are those of the components of the path it is spelled with.
-/

namespace SuiteMake

def Step.moves : Step → Bool
  | .up | .down _ => true
  | .here | .slash => false

/-- The last step, if there is one, is a move. -/
def EndsInMove (steps : List Step) : Prop := ∀ s ∈ steps.getLast?, s.moves = true

namespace EndsInMove

variable {first rest : List Step} {s : Step}

theorem eq_nil (h : EndsInMove rest) (hstill : rest.filter Step.moves = []) : rest = [] := by
  cases hlast : rest.getLast? with
  | none => exact List.getLast?_eq_none_iff.mp hlast
  | some s =>
      have hmem := List.mem_of_mem_getLast? hlast
      exact absurd (h s hlast) (List.filter_eq_nil_iff.mp hstill s hmem)

theorem of_append_cons (h : EndsInMove (first ++ s :: rest)) : EndsInMove rest := by
  intro s' hs'
  apply h s'
  rw [Option.mem_def] at hs'
  simp [List.getLast?_append, List.getLast?_cons, hs']

theorem concat (first : List Step) (hs : s.moves = true) : EndsInMove (first ++ [s]) := by
  intro s' hs'
  rw [List.getLast?_concat, Option.mem_def, Option.some.injEq] at hs'
  rwa [← hs']

theorem append (h : EndsInMove rest) (hne : rest ≠ []) : EndsInMove (first ++ rest) := by
  intro s hs
  apply h s
  rw [List.getLast?_append] at hs
  cases hlast : rest.getLast? with
  | none => exact absurd (List.getLast?_eq_none_iff.mp hlast) hne
  | some s' => simpa [hlast] using hs

end EndsInMove

namespace FileTree

variable {t : FileTree} {links : Nat} {l m : Location} {steps steps' : List Step}

theorem Reaches.eq_of_still (h : Reaches t .look links l steps m)
    (hstill : ∀ s ∈ steps, s.moves = false) : m = l := by
  induction h with
  | done => rfl
  | stay _ _ _ ih => exact ih fun s hmem => hstill s (List.mem_cons_of_mem _ hmem)
  | up _ _ _ => cases hstill .up List.mem_cons_self
  | down _ _ _ _ _ => cases hstill _ List.mem_cons_self
  | link _ _ _ _ => cases hstill _ List.mem_cons_self
  | fresh _ hcreate _ => cases hcreate

theorem Reaches.stay_all (hdir : t.get? l = some .directory) {still : List Step}
    (hstill : ∀ s ∈ still, s.moves = false) (h : Reaches t .look links l steps m) :
    Reaches t .look links l (still ++ steps) m := by
  induction still with
  | nil => exact h
  | cons s still ih =>
      have hs : s = .here ∨ s = .slash := by
        have hmoves := hstill s List.mem_cons_self
        cases s <;> simp_all [Step.moves]
      exact .stay hdir hs (ih fun s hmem => hstill s (List.mem_cons_of_mem _ hmem))

/-- Before the first move of some steps they stay, and the other moves come after it. -/
private theorem exists_of_filter_eq_cons {s : Step} {moves : List Step}
    (h : steps.filter Step.moves = s :: moves) :
    ∃ still rest, steps = still ++ s :: rest ∧ (∀ s ∈ still, s.moves = false) ∧
      rest.filter Step.moves = moves := by
  obtain ⟨still, rest, rfl, hstill, -, hrest⟩ := List.filter_eq_cons_iff.mp h
  exact ⟨still, rest, rfl, fun s hs => by simpa using hstill s hs, hrest⟩

/-- A walk leads to the same place along other steps with the same moves, if the last of them is
a move. -/
theorem Reaches.respell (h : Reaches t .look links l steps m)
    (hsame : steps'.filter Step.moves = steps.filter Step.moves) (hend : EndsInMove steps') :
    Reaches t .look links l steps' m := by
  induction h generalizing steps' with
  | done =>
      rw [hend.eq_nil hsame]
      exact .done
  | stay _ hs _ ih =>
      apply ih _ hend
      rw [hsame]
      rcases hs with rfl | rfl <;> rfl
  | up hdir _ ih =>
      obtain ⟨still, rest', rfl, hstill, hrest⟩ := exists_of_filter_eq_cons hsame
      exact .stay_all hdir hstill (.up hdir (ih hrest hend.of_append_cons))
  | down hpass hget hnode _ ih =>
      obtain ⟨still, rest', rfl, hstill, hrest⟩ := exists_of_filter_eq_cons hsame
      exact .stay_all hpass.directory hstill
        (.down ⟨hpass.directory, by simp, hpass.fits⟩ hget hnode (ih hrest hend.of_append_cons))
  | @link links l n rest m target hpass hget hwalk ih =>
      obtain ⟨still, rest', rfl, hstill, hrest⟩ := exists_of_filter_eq_cons hsame
      refine .stay_all hpass.directory hstill
        (.link ⟨hpass.directory, by simp, hpass.fits⟩ hget ?_)
      by_cases hnil : rest' = []
      · -- nothing but dots and slashes stood after the link, and its target leads to the end
        subst hnil
        obtain ⟨used, left, k, hsum, htarget, hstays⟩ := hwalk.split
        obtain rfl : m = k := by
          apply hstays.eq_of_still
          intro s hs
          simpa using List.filter_eq_nil_iff.mp hrest.symm s hs
        rw [List.append_nil]
        exact htarget.mono (by omega)
      · apply ih _ (hend.of_append_cons.append hnil)
        rw [List.filter_append, List.filter_append, hrest]
  | fresh _ hcreate _ => cases hcreate

end FileTree

namespace Component

def move? : Component → Option Step
  | .up => some .up
  | .name n => some (.down n)
  | .root | .here => none

theorem filterMap_move?_filter (cs : List Component) :
    (cs.filter (· ≠ .here)).filterMap move? = cs.filterMap move? := by
  rw [List.filterMap_filter]
  congr 1
  funext x
  cases x <;> simp [move?]

end Component

namespace Route

private theorem filter_step? (segment : Text) :
    (step? (.text segment)).filter Step.moves =
      (Component.ofSegment? segment).bind Component.move? := by
  simp only [step?, Component.ofSegment?, Name.text.injEq]
  by_cases hempty : segment = []
  · simp [hempty]
  · by_cases hdot : segment = ['.']
    · simp [hdot, Step.moves]
    · by_cases hdots : segment = ['.', '.']
      · simp [hdots, Step.moves, Component.move?]
      · simp [hempty, hdot, hdots, Step.moves, Component.move?]

private theorem moves_segments (pieces : List Text) :
    ((pieces.map Name.text).filterMap step?).filter Step.moves =
      (pieces.filterMap Component.ofSegment?).filterMap Component.move? := by
  rw [List.filterMap_map, List.filter_filterMap, List.filterMap_filterMap]
  congr 1
  funext segment
  exact filter_step? segment

private theorem moves_first (segment : Text) (last : Bool) :
    (Component.ofFirstSegment? segment last).bind Component.move? =
      (Component.ofSegment? segment).bind Component.move? := by
  rw [Component.ofFirstSegment?]
  by_cases hempty : segment = []
  · cases last <;> simp [hempty, Component.ofSegment?, Component.move?]
  · by_cases hdot : segment = ['.']
    · simp [hdot, Component.ofSegment?, Component.move?]
    · simp [hempty, hdot]

theorem moves_path (p : Path) :
    ((segments p).filterMap step?).filter Step.moves = p.components.filterMap Component.move? := by
  obtain ⟨first, rest, hpieces⟩ := List.exists_cons_of_ne_nil (List.splitOn_ne_nil '/' p.spelling)
  have hfirst (o : Option Component) : o.toList.filterMap Component.move? =
      (o.bind Component.move?).toList := by cases o <;> rfl
  rw [segments, moves_segments]
  simp only [Path.components, hpieces, List.filterMap_append, hfirst, moves_first]
  rw [← List.singleton_append, List.filterMap_append, List.filterMap_append]
  congr 1
  cases hseg : Component.ofSegment? first with
  | none => simp [hseg]
  | some x => cases hmove : x.move? <;> simp [hseg, hmove]

theorem moves_ofPath (p : Path) :
    (ofPath p).steps.filter Step.moves = p.components.filterMap Component.move? := by
  rw [← moves_path]
  rcases ofPath_steps p with hsteps | hsteps
  · rw [hsteps]
  · rw [hsteps, List.filter_append]
    simp [Step.moves]

theorem fromRoot_iff (p : Path) : (ofPath p).fromRoot = true ↔ .root ∈ p.components := by
  obtain ⟨first, rest, hpieces⟩ := List.exists_cons_of_ne_nil (List.splitOn_ne_nil '/' p.spelling)
  rw [Path.root_mem_components_iff hpieces]
  simp [ofPath, ofSegments, segments, hpieces, List.length_pos_iff]

theorem getLast?_segments (p : Path) :
    (segments p).getLast? = some (.text (Text.afterLast '/' p.spelling)) := by
  rw [segments, List.getLast?_map, Text.getLast?_splitOn]
  rfl

theorem ofPath_ends {p : Path} {name : Text} {s : Step}
    (hlast : Text.afterLast '/' p.spelling = name) (hstep : step? (.text name) = some s) :
    ∃ front, (ofPath p).steps = front ++ [s] := by
  have hsegments := getLast?_segments p
  rw [hlast] at hsegments
  have hne : name ≠ [] := by
    intro hnil
    simp [step?, hnil] at hstep
  obtain ⟨above, habove⟩ := List.getLast?_eq_some_iff.mp hsegments
  refine ⟨above.filterMap step?, ?_⟩
  simp only [ofPath, ofSegments]
  rw [if_neg, habove, List.filterMap_append, List.filterMap_cons_some hstep]
  · rfl
  · intro hslash
    rw [hsegments, Option.some.injEq, Name.text.injEq] at hslash
    exact hne hslash.2

/-- A second route to a name starts where the first one does and makes the same moves. -/
structure SameWay (r r' : Route) : Prop where
  fromRoot : r'.fromRoot = r.fromRoot
  moves : r'.steps.filter Step.moves = r.steps.filter Step.moves
  ends : ∃ front n, r'.steps = front ++ [.down n]

private theorem any_hasNull_moves (steps : List Step) :
    (steps.filter Step.moves).any Step.hasNull = steps.any Step.hasNull := by
  rw [List.any_filter]
  congr 1
  funext s
  cases s <;> rfl

/-- A route with the start and the moves of another one denotes the same, if its steps lead to the
same place. -/
theorem locateRoute_of_moves {t : FileTree} {r r' : Route} {m : Location}
    (hroot : r'.fromRoot = r.fromRoot)
    (hmoves : r'.steps.filter Step.moves = r.steps.filter Step.moves)
    (hlength : r'.length ≤ maxLength) (hne : ¬(r'.fromRoot = false ∧ r'.steps = []))
    (hreach : ∀ links l, FileTree.Reaches t .look links l r.steps m →
      FileTree.Reaches t .look links l r'.steps m)
    (hm : t.locateRoute .look r = .ok m) : t.locateRoute .look r' = .ok m := by
  obtain ⟨hfault, -, hwalk⟩ := FileTree.locateRoute_eq_ok_iff.mp hm
  have hnull : r'.steps.any Step.hasNull = false := by
    rw [← any_hasNull_moves, hmoves, any_hasNull_moves]
    exact (fault?_eq_none_iff.mp hfault).1
  have horigin : t.origin r' = t.origin r := by
    rw [FileTree.origin, FileTree.origin, hroot]
  refine FileTree.locateRoute_eq_ok_iff.mpr ⟨fault?_eq_none_iff.mpr ⟨hnull, hlength⟩, hne, ?_⟩
  rw [horigin]
  exact hreach _ _ hwalk

theorem SameWay.locateRoute {t : FileTree} {r r' : Route} {m : Location} (h : r.SameWay r')
    (hlength : r'.length ≤ maxLength) (hm : t.locateRoute .look r = .ok m) :
    t.locateRoute .look r' = .ok m := by
  obtain ⟨front, n, hends⟩ := h.ends
  have hend : EndsInMove r'.steps := by
    rw [hends]
    exact .concat front rfl
  exact locateRoute_of_moves h.fromRoot h.moves hlength (by simp [hends])
    (fun _ _ hwalk => hwalk.respell h.moves hend) hm

end Route

namespace FileTree

variable {t : FileTree} {p : Path}

/-- Nothing is read at a path that ends in a slash, nor at the empty path. -/
theorem WellFormed.not_read_of_slash (ht : t.WellFormed)
    (hlast : Text.afterLast '/' p.spelling = []) {content : Bytes} :
    t.readBytes p ≠ .ok content := by
  intro hread
  obtain ⟨l, hl, hget⟩ := readRoute_eq_ok_iff.mp hread
  obtain ⟨-, -, hreach⟩ := locateRoute_eq_ok_iff.mp hl
  have hsegments := Route.getLast?_segments p
  rw [hlast] at hsegments
  have hdir : t.get? l = some .directory := by
    by_cases hnil : (Route.segments p).filterMap Route.step? = []
    · have hsteps : (Route.ofPath p).steps = [] := by
        simp [Route.ofPath, Route.ofSegments, hnil]
      rw [hsteps] at hreach
      cases hreach
      exact ht.origin_directory _
    · have hsteps : (Route.ofPath p).steps =
          (Route.segments p).filterMap Route.step? ++ [.slash] := by
        simp only [Route.ofPath, Route.ofSegments]
        rw [if_pos ⟨hnil, hsegments⟩]
      rw [hsteps] at hreach
      exact hreach.directory_of_slash
  rw [hdir] at hget
  cases hget

end FileTree
end SuiteMake

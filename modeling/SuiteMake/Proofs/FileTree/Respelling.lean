import SuiteMake.Proofs.FileTree.Descent
import SuiteMake.Proofs.FileTree.Spelling
import SuiteMake.Proofs.Path.Canonical

/-!
# Paths that differ in spelling

Paths with the same canonical text have the same components, but for a dot that opens them. They
denote the same directory, whatever they are joined to, and the same file is read below them. All
that tells them apart is their length.
-/

namespace SuiteMake

open Component

theorem exists_endsInMove (steps : List Step) : ∃ front still, steps = front ++ still ∧
    EndsInMove front ∧ ∀ s ∈ still, s.moves = false := by
  induction steps with
  | nil => exact ⟨[], [], rfl, by simp [EndsInMove], by simp⟩
  | cons s rest ih =>
      obtain ⟨front, still, rfl, hend, hstill⟩ := ih
      by_cases hnil : front = []
      · subst hnil
        cases hs : s.moves with
        | true => exact ⟨[s], still, rfl, .concat [] hs, hstill⟩
        | false =>
            refine ⟨[], s :: still, rfl, hend, ?_⟩
            intro s' hs'
            rcases List.mem_cons.mp hs' with rfl | hs'
            · exact hs
            · exact hstill s' hs'
      · have hfront : EndsInMove ([s] ++ front) := hend.append hnil
        exact ⟨s :: front, still, rfl, hfront, hstill⟩

namespace Route

def fits (r : Route) : Bool := r.length ≤ maxLength

theorem fits_of_locateRoute {t : FileTree} {r : Route} {m : Location}
    (h : t.locateRoute .look r = .ok m) : r.fits = true :=
  decide_eq_true (fault?_eq_none_iff.mp (FileTree.locateRoute_eq_ok_iff.mp h).1).2

theorem moves_plain (p : Path) :
    (ofPath p).steps.filter Step.moves = p.plain.filterMap Component.move? := by
  rw [moves_ofPath, Path.plain, filterMap_move?_filter]

theorem fromRoot_congr {p p' : Path} (h : p'.plain = p.plain) :
    (ofPath p').fromRoot = (ofPath p).fromRoot := by
  rw [Bool.eq_iff_iff, fromRoot_iff, fromRoot_iff, ← Path.root_mem_plain_iff, h,
    Path.root_mem_plain_iff]

theorem not_empty_of_plain {p : Path} (h : p.plain ≠ []) :
    ¬((ofPath p).fromRoot = false ∧ (ofPath p).steps = []) := by
  intro hempty
  have hmoves := moves_plain p
  rw [hempty.2] at hmoves
  cases hplain : p.plain with
  | nil => exact h hplain
  | cons x xs =>
      have hx : x ∈ p.plain := by simp [hplain]
      have hmove := List.filterMap_eq_nil_iff.mp hmoves.symm x hx
      cases x with
      | root =>
          have hroot := (fromRoot_iff p).mpr (Path.root_mem_plain_iff.mp hx)
          rw [hempty.1] at hroot
          cases hroot
      | here => simp [Path.plain] at hx
      | up => cases hmove
      | name n => cases hmove

end Route

namespace FileTree

variable {t : FileTree} {links : Nat} {l m : Location} {steps steps' : List Step} {p p' : Path}

theorem Reaches.respell_directory (h : Reaches t .look links l steps m)
    (hsame : steps'.filter Step.moves = steps.filter Step.moves)
    (hdir : t.get? m = some .directory) : Reaches t .look links l steps' m := by
  obtain ⟨front, still, rfl, hend, hstill⟩ := exists_endsInMove steps'
  have hnone : still.filter Step.moves = [] := by
    rw [List.filter_eq_nil_iff]
    intro s hs
    simp [hstill s hs]
  have hfront : front.filter Step.moves = steps.filter Step.moves := by
    rw [← hsame, List.filter_append, hnone, List.append_nil]
  have hstay : Reaches t .look 0 m (still ++ []) m := .stay_all hdir hstill .done
  have hall := (h.respell hfront hend).append hstay
  rwa [List.append_nil] at hall

theorem Reaches.directory_of_still {s : Step} (h : Reaches t .look links l (steps ++ [s]) m)
    (hs : s.moves = false) : t.get? m = some .directory := by
  obtain ⟨used, left, k, -, -, hlast⟩ := h.split
  cases hlast with
  | stay hdir _ hdone =>
      cases hdone
      exact hdir
  | up _ _ => cases hs
  | down _ _ _ _ => cases hs
  | link _ _ _ => cases hs
  | fresh _ _ _ => cases hs

/-- A directory is denoted by every spelling of its path that is not too long. -/
theorem locate_respell (hplain : p'.plain = p.plain) (hne : p.plain ≠ [])
    (hfits : (Route.ofPath p').fits = true) (h : t.locate .look p = .ok l)
    (hdir : t.get? l = some .directory) : t.locate .look p' = .ok l := by
  have hmoves : (Route.ofPath p').steps.filter Step.moves =
      (Route.ofPath p).steps.filter Step.moves := by
    rw [Route.moves_plain, hplain, Route.moves_plain]
  exact Route.locateRoute_of_moves (Route.fromRoot_congr hplain) hmoves (of_decide_eq_true hfits)
    (Route.not_empty_of_plain (hplain ▸ hne)) (fun _ _ hwalk => hwalk.respell_directory hmoves hdir) h

theorem locate_directory_congr (hplain : p'.plain = p.plain) (hne : p.plain ≠ [])
    (hfits : (Route.ofPath p').fits = (Route.ofPath p).fits) (hdir : t.get? l = some .directory) :
    t.locate .look p' = .ok l ↔ t.locate .look p = .ok l := by
  constructor
  · intro h
    exact locate_respell hplain.symm (hplain ▸ hne) (hfits ▸ Route.fits_of_locateRoute h) h hdir
  · intro h
    exact locate_respell hplain hne (hfits.trans (Route.fits_of_locateRoute h)) h hdir

/-- A file is read at every spelling of its path that is not too long and ends in the same part. -/
theorem WellFormed.readBytes_respell (ht : t.WellFormed) (hplain : p'.plain = p.plain)
    (hlast : Text.afterLast '/' p'.spelling = Text.afterLast '/' p.spelling)
    (hfits : (Route.ofPath p').fits = true) {content : Bytes} (h : t.readBytes p = .ok content) :
    t.readBytes p' = .ok content := by
  obtain ⟨m, hm, hget⟩ := readRoute_eq_ok_iff.mp h
  have hmoves : (Route.ofPath p').steps.filter Step.moves =
      (Route.ofPath p).steps.filter Step.moves := by
    rw [Route.moves_plain, hplain, Route.moves_plain]
  cases hstep : Route.step? (.text (Text.afterLast '/' p.spelling)) with
  | none =>
      -- the path ends in a slash, and no file is read at such a path
      have hnil : Text.afterLast '/' p.spelling = [] := by
        simp only [Route.step?] at hstep
        grind
      exact absurd h (ht.not_read_of_slash hnil)
  | some s =>
      obtain ⟨front, hends⟩ := Route.ofPath_ends rfl hstep
      obtain ⟨front', hends'⟩ := Route.ofPath_ends hlast hstep
      obtain ⟨-, -, hreach⟩ := locateRoute_eq_ok_iff.mp hm
      have hs : s.moves = true := by
        cases hstill : s.moves with
        | true => rfl
        | false =>
            rw [hends] at hreach
            rw [hreach.directory_of_still hstill] at hget
            cases hget
      have hend : EndsInMove (Route.ofPath p').steps := by
        rw [hends']
        exact .concat front' hs
      have hm' := Route.locateRoute_of_moves (Route.fromRoot_congr hplain) hmoves
        (of_decide_eq_true hfits) (by simp [hends']) (fun _ _ hwalk => hwalk.respell hmoves hend) hm
      exact readRoute_eq_ok_iff.mpr ⟨m, hm', hget⟩

theorem fits_of_readBytes {content : Bytes} (h : t.readBytes p = .ok content) :
    (Route.ofPath p).fits = true := by
  obtain ⟨m, hm, -⟩ := readRoute_eq_ok_iff.mp h
  exact Route.fits_of_locateRoute hm

theorem WellFormed.readText_congr (ht : t.WellFormed) (hplain : p'.plain = p.plain)
    (hlast : Text.afterLast '/' p'.spelling = Text.afterLast '/' p.spelling)
    (hfits : (Route.ofPath p').fits = (Route.ofPath p).fits) {text : Text} :
    t.readText p' = .ok text ↔ t.readText p = .ok text := by
  rw [readText_eq_ok_iff, readText_eq_ok_iff]
  constructor
  · intro h
    exact ht.readBytes_respell hplain.symm hlast.symm (hfits ▸ fits_of_readBytes h) h
  · intro h
    exact ht.readBytes_respell hplain hlast (hfits.trans (fits_of_readBytes h)) h

section Below

variable {names : Location}

private theorem sameWay_below (hroot : t.locate .look p = .ok l) (hroot' : t.locate .look p' = .ok l)
    (hplain : p'.plain = p.plain) (hne : names ≠ [])
    (hdown : ∀ n ∈ names, Route.step? n = some (.down n)) :
    (Route.below p names).SameWay (.below p' names) := by
  have hempty := (locateRoute_eq_ok_iff.mp hroot).2.1
  have hempty' := (locateRoute_eq_ok_iff.mp hroot').2.1
  refine ⟨?_, ?_, ?_⟩
  · rw [Route.below_fromRoot hne hempty, Route.below_fromRoot hne hempty',
      Route.fromRoot_congr hplain]
  · rw [Route.below_steps p hne hdown, Route.below_steps p' hne hdown, List.filter_append,
      List.filter_append, Route.moves_path, Route.moves_path, ← filterMap_move?_filter,
      ← filterMap_move?_filter p.components]
    exact congrArg (· ++ _) (congrArg _ hplain)
  · obtain ⟨front, last, rfl⟩ : ∃ front last, names = front ++ [last] :=
      ⟨_, _, (List.dropLast_concat_getLast hne).symm⟩
    rw [Route.below_steps p' hne hdown, List.map_append, ← List.append_assoc]
    exact ⟨_, last, rfl⟩

theorem isFile_below_congr (hroot : t.locate .look p = .ok l) (hroot' : t.locate .look p' = .ok l)
    (hplain : p'.plain = p.plain) (hne : names ≠ [])
    (hdown : ∀ n ∈ names, Route.step? n = some (.down n))
    (hfits : (Route.below p' names).fits = (Route.below p names).fits) :
    t.isFile (.below p' names) = t.isFile (.below p names) := by
  rw [Bool.eq_iff_iff, isFile_iff, isFile_iff]
  constructor
  · intro ⟨m, content, hm, hget⟩
    have hlength := of_decide_eq_true (hfits ▸ Route.fits_of_locateRoute hm)
    have hway := sameWay_below hroot' hroot hplain.symm hne hdown
    exact ⟨m, content, hway.locateRoute hlength hm, hget⟩
  · intro ⟨m, content, hm, hget⟩
    have hlength := of_decide_eq_true (hfits.trans (Route.fits_of_locateRoute hm))
    have hway := sameWay_below hroot hroot' hplain hne hdown
    exact ⟨m, content, hway.locateRoute hlength hm, hget⟩

end Below

end FileTree

section Slashes

theorem Path.splitOn_slashes (n : Nat) :
    (List.replicate n '/').splitOn '/' = List.replicate (n + 1) [] := by
  induction n with
  | zero => rfl
  | succ n ih =>
      have hsplit : ('/' :: List.replicate n '/').splitOn '/' =
          [] :: (List.replicate n '/').splitOn '/' := List.splitOn_append_cons_self [] _
      rw [List.replicate_succ, List.replicate_succ, hsplit, ih]

theorem Path.components_slashes {u : Text} (hu : u ≠ []) (n : Nat) :
    Path.components ⟨u ++ List.replicate n '/'⟩ = Path.components ⟨u⟩ := by
  cases n with
  | zero => simp
  | succ n =>
      have hnone : (List.replicate (n + 1) ([] : Text)).filterMap ofSegment? = [] := by
        rw [List.filterMap_eq_nil_iff]
        intro s hs
        rw [List.eq_of_mem_replicate hs]
        rfl
      rw [List.replicate_succ, Path.components_append hu, Path.splitOn_slashes, hnone,
        List.append_nil]

namespace Route

theorem segments_slashes (u : Text) (n : Nat) :
    segments ⟨u ++ List.replicate n '/'⟩ = segments ⟨u⟩ ++ List.replicate n (.text []) := by
  cases n with
  | zero => simp
  | succ n =>
      rw [segments, segments, List.replicate_succ, List.splitOn_append_cons_self,
        Path.splitOn_slashes, List.map_append, List.map_replicate]

private theorem foldr_length (segments : List Name) (total : Nat) :
    segments.foldr (fun n total => n.bytes.length + total) total =
      segments.foldr (fun n total => n.bytes.length + total) 0 + total := by
  induction segments with
  | nil => simp
  | cons n segments ih => rw [List.foldr_cons, List.foldr_cons, ih, Nat.add_assoc]

/-- An empty segment counts for the slash beside it. -/
theorem ofSegments_length_blank {above : List Name} (hne : above ≠ []) (n : Nat)
    (names : List Name) : (ofSegments (above ++ List.replicate n (.text []) ++ names)).length =
      (ofSegments (above ++ names)).length + n := by
  have hblank (total : Nat) : (List.replicate n (Name.text [])).foldr
      (fun n total => n.bytes.length + total) total = total := by
    induction n with
    | zero => rfl
    | succ n ih =>
        rw [List.replicate_succ, List.foldr_cons, ih]
        exact Nat.zero_add total
  have hpos := List.length_pos_iff.mpr hne
  simp only [ofSegments, List.foldr_append, hblank, List.length_append, List.length_replicate]
  rw [foldr_length above, foldr_length names, foldr_length above (names.foldr _ _),
    foldr_length names (above.length + names.length - 1)]
  omega

theorem length_slashes (u : Text) (n : Nat) :
    (ofPath ⟨u ++ List.replicate n '/'⟩).length = (ofPath ⟨u⟩).length + n := by
  have hne : segments ⟨u⟩ ≠ [] := by simp [segments, List.splitOn_ne_nil]
  have hlength := ofSegments_length_blank hne n []
  rwa [List.append_nil, List.append_nil, ← segments_slashes] at hlength

/-- Of the slashes between a path and what is below it, all but one make the whole longer. -/
theorem length_below_slashes {u : Text} (hu : (segments ⟨u⟩).getLast? ≠ some (.text [])) (n : Nat)
    (names : Location) : (below ⟨u ++ List.replicate (n + 1) '/'⟩ names).length =
      (below ⟨u⟩ names).length + n := by
  have hne : segments ⟨u⟩ ≠ [] := by simp [segments, List.splitOn_ne_nil]
  have hlast : (segments ⟨u⟩ ++ List.replicate (n + 1) (Name.text [])).getLast? =
      some (.text []) := by
    rw [List.replicate_succ', ← List.append_assoc, List.getLast?_concat]
  rw [below, below, segments_slashes, if_pos hlast, if_neg hu, List.replicate_succ',
    ← List.append_assoc, List.dropLast_concat]
  exact ofSegments_length_blank hne n names

end Route

end Slashes

end SuiteMake

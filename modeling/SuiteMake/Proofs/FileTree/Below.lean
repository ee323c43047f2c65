import SuiteMake.Proofs.FileTree.Write

/-!
# Routes below a path

A route that goes on below a path walks to what the path denotes, and down from there. If it
meets no link on its way down, it ends where its names say.
-/

namespace SuiteMake

namespace Route

theorem fault?_eq_none_iff {r : Route} :
    r.fault? = none ↔ r.steps.any Step.hasNull = false ∧ r.length ≤ maxLength := by
  rw [fault?]
  cases r.steps.any Step.hasNull with
  | true => simp
  | false =>
      by_cases hlength : maxLength < r.length
      · simp [hlength]
      · simp [hlength, Nat.le_of_not_lt hlength]

theorem ofPath_steps (p : Path) : (ofPath p).steps = (segments p).filterMap step? ∨
    (ofPath p).steps = (segments p).filterMap step? ++ [.slash] := by
  simp only [ofPath, ofSegments]
  split
  · exact Or.inr rfl
  · exact Or.inl rfl

theorem filterMap_step?_eq_map {names : List Name} (h : ∀ n ∈ names, step? n = some (.down n)) :
    names.filterMap step? = names.map .down := by
  induction names with
  | nil => rfl
  | cons n names ih =>
      rw [List.filterMap_cons_some (h n List.mem_cons_self),
        ih fun n hn => h n (List.mem_cons_of_mem _ hn), List.map_cons]

/-- The segments above the names of a route, without the one after a closing slash. -/
private theorem filterMap_trimmed (above : List Name) :
    (if above.getLast? = some (.text []) then above.dropLast else above).filterMap step? =
      above.filterMap step? := by
  split
  · rename_i hlast
    obtain ⟨front, rfl⟩ := List.getLast?_eq_some_iff.mp hlast
    simp [step?]
  · rfl

theorem below_steps (p : Path) {names : Location} (hne : names ≠ [])
    (h : ∀ n ∈ names, step? n = some (.down n)) :
    (below p names).steps = (segments p).filterMap step? ++ names.map .down := by
  obtain ⟨front, last, rfl⟩ : ∃ front last, names = front ++ [last] :=
    ⟨_, _, (List.dropLast_concat_getLast hne).symm⟩
  have hlast : last ≠ .text [] := by
    rintro rfl
    have hstep := h _ (List.mem_append_right front List.mem_cons_self)
    simp [step?] at hstep
  simp only [below, ofSegments]
  rw [if_neg, List.filterMap_append, filterMap_trimmed, filterMap_step?_eq_map h]
  rintro ⟨-, hslash⟩
  rw [← List.append_assoc, List.getLast?_concat, Option.some.injEq] at hslash
  exact hlast hslash

theorem below_fromRoot {p : Path} {names : Location} (hne : names ≠ [])
    (hp : ¬((ofPath p).fromRoot = false ∧ (ofPath p).steps = [])) :
    (below p names).fromRoot = (ofPath p).fromRoot := by
  have hsegments : segments p ≠ [.text []] := by
    intro hp'
    exact hp (by simp [ofPath, ofSegments, hp', step?])
  simp only [below, ofPath, ofSegments]
  cases hs : segments p with
  | nil => simp [segments] at hs
  | cons first rest =>
      cases rest with
      | nil =>
          have hfirst : first ≠ .text [] := by
            rintro rfl
            exact hsegments hs
          simp [hfirst]
      | cons second rest =>
          have hlength : 1 < names.length + 1 := by
            have := List.length_pos_iff.mpr hne
            omega
          split
          · simp
            omega
          · simp

end Route

namespace FileTree

variable {t : FileTree}

/-- A walk passes through the end of each of its beginnings, and the links it leads through are
those of both parts. -/
theorem Reaches.split {links : Nat} {l m : Location} {first second : List Step}
    (h : Reaches t .look links l (first ++ second) m) :
    ∃ used left k, used + left = links ∧ Reaches t .look used l first k ∧
      Reaches t .look left k second m := by
  generalize hall : first ++ second = all at h
  induction h generalizing first with
  | @done links l =>
      obtain ⟨rfl, rfl⟩ := List.append_eq_nil_iff.mp hall
      exact ⟨0, links, l, Nat.zero_add links, .done, .done⟩
  | @stay links l s rest m hdir hs hrest ih =>
      cases first with
      | nil =>
          subst hall
          exact ⟨0, links, l, Nat.zero_add links, .done, .stay hdir hs hrest⟩
      | cons s' first =>
          obtain ⟨rfl, htail⟩ := List.cons.inj hall
          obtain ⟨used, left, k, hsum, hfirst, hsecond⟩ := ih htail
          exact ⟨used, left, k, hsum, .stay hdir hs hfirst, hsecond⟩
  | @up links l rest m hdir hrest ih =>
      cases first with
      | nil =>
          subst hall
          exact ⟨0, links, l, Nat.zero_add links, .done, .up hdir hrest⟩
      | cons s' first =>
          obtain ⟨rfl, htail⟩ := List.cons.inj hall
          obtain ⟨used, left, k, hsum, hfirst, hsecond⟩ := ih htail
          exact ⟨used, left, k, hsum, .up hdir hfirst, hsecond⟩
  | @down links l n rest m node hpass hget hnode hrest ih =>
      cases first with
      | nil =>
          subst hall
          exact ⟨0, links, l, Nat.zero_add links, .done, .down hpass hget hnode hrest⟩
      | cons s' first =>
          obtain ⟨rfl, htail⟩ := List.cons.inj hall
          obtain ⟨used, left, k, hsum, hfirst, hsecond⟩ := ih htail
          exact ⟨used, left, k, hsum, .down ⟨hpass.directory, by simp, hpass.fits⟩ hget hnode hfirst,
            hsecond⟩
  | @link links l n rest m target hpass hget hrest ih =>
      cases first with
      | nil =>
          subst hall
          exact ⟨0, links + 1, l, Nat.zero_add _, .done, .link hpass hget hrest⟩
      | cons s' first =>
          obtain ⟨rfl, rfl⟩ := List.cons.inj hall
          -- the steps of the target take the place of the link in the first part
          obtain ⟨used, left, k, hsum, hfirst, hsecond⟩ := ih (List.append_assoc _ first second)
          exact ⟨used + 1, left, k, by omega,
            .link ⟨hpass.directory, by simp, hpass.fits⟩ hget hfirst, hsecond⟩
  | fresh _ hcreate _ => cases hcreate

theorem Reaches.append {links links' : Nat} {l k m : Location} {first second : List Step}
    (h : Reaches t .look links l first k) (h' : Reaches t .look links' k second m) :
    Reaches t .look (links + links') l (first ++ second) m := by
  induction h with
  | done => exact h'.mono (Nat.le_add_left _ _)
  | stay hdir hs _ ih => exact .stay hdir hs (ih h')
  | up hdir _ ih => exact .up hdir (ih h')
  | down hpass hget hnode _ ih =>
      exact .down ⟨hpass.directory, by simp, hpass.fits⟩ hget hnode (ih h')
  | link hpass hget _ ih =>
      have hrest := ih h'
      rw [List.append_assoc] at hrest
      rw [Nat.succ_add]
      exact .link ⟨hpass.directory, by simp, hpass.fits⟩ hget hrest
  | fresh _ hcreate _ => cases hcreate

theorem Reaches.down_names {links : Nat} {l m : Location} {names : List Name}
    (h : Reaches t .look links l (names.map .down) m)
    (hlinks : ∀ front, front ≠ [] → front <+: names → ∀ target,
      t.get? (l ++ front) ≠ some (.link target)) : m = l ++ names := by
  induction names generalizing l links with
  | nil =>
      cases h
      simp
  | cons n names ih =>
      rw [List.map_cons] at h
      generalize hrest : names.map Step.down = rest at h
      cases h with
      | stay _ hs _ => rcases hs with hs | hs <;> cases hs
      | down _ _ _ h =>
          subst hrest
          have hbelow : ∀ front, front ≠ [] → front <+: names → ∀ target,
              t.get? (l ++ [n] ++ front) ≠ some (.link target) := by
            intro front _ hfront target
            rw [List.append_assoc]
            exact hlinks (n :: front) (by simp) (List.cons_prefix_cons.mpr ⟨rfl, hfront⟩) target
          rw [ih h hbelow, List.append_assoc, List.singleton_append]
      | link _ hget _ => exact absurd hget (hlinks [n] (by simp) (by simp) _)
      | fresh _ hcreate _ => cases hcreate

/-- A closing slash stays where the steps before it lead. -/
theorem reaches_segments {links : Nat} {o l : Location} {root : Path}
    (h : Reaches t .look links o (Route.ofPath root).steps l) :
    Reaches t .look links o ((Route.segments root).filterMap Route.step?) l := by
  rcases Route.ofPath_steps root with hsteps | hsteps
  · rwa [hsteps] at h
  · rw [hsteps] at h
    obtain ⟨used, left, k, hsum, hfirst, hslash⟩ := h.split
    cases hslash with
    | stay _ _ hdone =>
        cases hdone
        exact hfirst.mono (by omega)

theorem reaches_path {links : Nat} {o l : Location} {root : Path}
    (h : Reaches t .look links o ((Route.segments root).filterMap Route.step?) l)
    (hdir : t.get? l = some .directory) :
    Reaches t .look links o (Route.ofPath root).steps l := by
  rcases Route.ofPath_steps root with hsteps | hsteps
  · rwa [hsteps]
  · have hslash : Reaches t .look 0 l [.slash] l := .stay hdir (Or.inr rfl) .done
    rw [hsteps]
    exact h.append hslash

theorem origin_below {root : Path} {names l : Location} (h : t.locate .look root = .ok l)
    (hne : names ≠ []) : t.origin (.below root names) = t.origin (.ofPath root) := by
  obtain ⟨-, hempty, -⟩ := locateRoute_eq_ok_iff.mp h
  rw [origin, origin, Route.below_fromRoot hne hempty]

theorem locateRoute_below_eq {root : Path} {names l k : Location}
    (hroot : t.locate .look root = .ok l) (h : t.locateRoute .look (.below root names) = .ok k)
    (hne : names ≠ []) (hnames : ∀ n ∈ names, Route.step? n = some (.down n))
    (hlinks : ∀ front, front ≠ [] → front <+: names → ∀ target,
      t.get? (l ++ front) ≠ some (.link target)) : k = l ++ names := by
  obtain ⟨-, -, hbelow⟩ := locateRoute_eq_ok_iff.mp h
  obtain ⟨-, -, habove⟩ := locateRoute_eq_ok_iff.mp hroot
  rw [origin_below hroot hne, Route.below_steps root hne hnames] at hbelow
  obtain ⟨used, left, l', -, hfirst, hsecond⟩ := hbelow.split
  obtain rfl : l' = l := hfirst.functional (reaches_segments habove)
  exact hsecond.down_names hlinks

theorem WellFormed.dropLast_of_reaches (ht : t.WellFormed) {p : Purpose} {links : Nat}
    {l m : Location} {steps : List Step} (h : Reaches t p links l steps m) (hl : t.get? l ≠ none)
    (hm : t.get? m = none) : t.get? m.dropLast = some .directory := by
  induction h with
  | done => exact absurd hm hl
  | stay _ _ _ ih => exact ih hl hm
  | up _ _ ih =>
      apply ih _ hm
      simp [ht.parent_directory hl]
  | down _ hget _ _ ih => exact ih (by simp [hget]) hm
  | link hpass _ _ ih =>
      apply ih _ hm
      split
      · simp [get?]
      · simp [hpass.directory]
  | fresh hpass _ _ =>
      rw [List.dropLast_concat]
      exact hpass.directory

theorem WellFormed.created_in_directory (ht : t.WellFormed) {p : Path} {l : Location}
    (h : t.locate .create p = .ok l) (hl : t.get? l = none) :
    t.get? l.dropLast = some .directory := by
  have horigin : t.get? (t.origin (.ofPath p)) ≠ none := by simp [ht.origin_directory]
  exact ht.dropLast_of_reaches (locateRoute_eq_ok_iff.mp h).2.2 horigin hl

end FileTree
end SuiteMake

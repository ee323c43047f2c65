import SuiteMake.FileTree.Access

/-!
# Where walks lead

A walk that succeeds is a finite derivation: one rule for each way to take a step. Frame
properties follow by induction on it. Putting a file where none or another file stands loses no
walk, and gains only those that end at that file.
-/

namespace SuiteMake.FileTree

/-- What a step down to a name takes, besides the name. -/
structure Passable (t : FileTree) (p : Purpose) (l : Location) (n : Name) (rest : List Step) :
    Prop where
  directory : t.get? l = some .directory
  noSlash : ¬(p = .create ∧ rest = [.slash])
  fits : n.isTooLong = false

/-- Steps lead from one location to another through at most a number of links. -/
inductive Reaches (t : FileTree) (p : Purpose) : Nat → Location → List Step → Location → Prop
  | done {links l} : Reaches t p links l [] l
  | stay {links l s rest m} : t.get? l = some .directory → s = .here ∨ s = .slash →
      Reaches t p links l rest m → Reaches t p links l (s :: rest) m
  | up {links l rest m} : t.get? l = some .directory →
      Reaches t p links l.dropLast rest m → Reaches t p links l (.up :: rest) m
  | down {links l n rest m node} : Passable t p l n rest → t.get? (l ++ [n]) = some node →
      (∀ target, node ≠ .link target) → Reaches t p links (l ++ [n]) rest m →
      Reaches t p links l (.down n :: rest) m
  | link {links l n rest m target} : Passable t p l n rest →
      t.get? (l ++ [n]) = some (.link target) →
      Reaches t p links (if (Route.ofPath target).fromRoot then [] else l)
        ((Route.ofPath target).steps ++ rest) m →
      Reaches t p (links + 1) l (.down n :: rest) m
  | fresh {links l n} : Passable t p l n [] → p = .create → t.get? (l ++ [n]) = none →
      Reaches t p links l [.down n] (l ++ [n])

section Step

variable {t : FileTree} {p : Purpose} {l m : Location} {rest : List Step}
  {onLink : Location → Path → List Step → Except FileError Location}

private theorem directory_of_follow {s : Step} (h : t.follow p onLink l (s :: rest) = .ok m) :
    t.get? l = some .directory := by
  rw [follow.eq_def] at h
  dsimp only at h
  split at h
  · assumption
  · cases h
  · cases h

/-- A step down leads through a link, to a node that is none, or to where a file is created. -/
private theorem follow_down_eq_ok_iff {n : Name} :
    t.follow p onLink l (.down n :: rest) = .ok m ↔ Passable t p l n rest ∧
      ((∃ target, t.get? (l ++ [n]) = some (.link target) ∧ onLink l target rest = .ok m) ∨
      (∃ node, t.get? (l ++ [n]) = some node ∧ (∀ target, node ≠ .link target) ∧
        t.follow p onLink (l ++ [n]) rest = .ok m) ∨
      (t.get? (l ++ [n]) = none ∧ (p = .create ∧ rest = []) ∧ l ++ [n] = m)) := by
  constructor
  · intro h
    have hdir := directory_of_follow h
    simp only [follow, hdir] at h
    split at h
    · cases h
    rename_i hslash
    split at h
    · cases h
    rename_i hlong
    refine ⟨⟨hdir, hslash, by simpa using hlong⟩, ?_⟩
    split at h
    · rename_i target hget
      exact Or.inl ⟨target, hget, h⟩
    · rename_i node hnode hget
      exact Or.inr (Or.inl ⟨node, hget, hnode, h⟩)
    · rename_i hget
      split at h
      · rename_i hcreate
        exact Or.inr (Or.inr ⟨hget, hcreate, Except.ok.inj h⟩)
      · cases h
  · intro h
    obtain ⟨hpass, h⟩ := h
    simp only [follow, hpass.directory, if_neg hpass.noSlash, hpass.fits, Bool.false_eq_true,
      if_false]
    rcases h with ⟨target, hget, h⟩ | ⟨node, hget, hnode, h⟩ | ⟨hget, hcreate, hm⟩
    · simpa only [hget] using h
    · cases node with
      | link target => exact absurd rfl (hnode target)
      | file content => simpa only [hget] using h
      | directory => simpa only [hget] using h
    · rw [← hm]
      simp only [hget, if_pos hcreate]

private theorem follow_eq_ok_iff {links : Nat}
    (hlink : ∀ l target rest m, onLink l target rest = .ok m ↔ ∃ k, links = k + 1 ∧
      Reaches t p k (if (Route.ofPath target).fromRoot then [] else l)
        ((Route.ofPath target).steps ++ rest) m)
    {steps : List Step} :
    t.follow p onLink l steps = .ok m ↔ Reaches t p links l steps m := by
  induction steps generalizing l with
  | nil =>
      rw [follow, Except.ok.injEq]
      constructor
      · intro h
        rw [h]
        exact .done
      · intro h
        cases h
        rfl
  | cons s rest ih =>
      constructor
      · intro h
        have hdir := directory_of_follow h
        cases s with
        | here =>
            simp only [follow, hdir] at h
            exact .stay hdir (Or.inl rfl) (ih.mp h)
        | slash =>
            simp only [follow, hdir] at h
            exact .stay hdir (Or.inr rfl) (ih.mp h)
        | up =>
            simp only [follow, hdir] at h
            exact .up hdir (ih.mp h)
        | down n =>
            obtain ⟨hpass, h⟩ := follow_down_eq_ok_iff.mp h
            rcases h with ⟨target, hget, h⟩ | ⟨node, hget, hnode, h⟩ | ⟨hget, ⟨hcreate, rfl⟩, rfl⟩
            · obtain ⟨k, rfl, hk⟩ := (hlink _ _ _ _).mp h
              exact .link hpass hget hk
            · exact .down hpass hget hnode (ih.mp h)
            · exact .fresh hpass hcreate hget
      · intro h
        cases h with
        | stay hdir hs hrest =>
            rcases hs with rfl | rfl <;> simp only [follow, hdir] <;> exact ih.mpr hrest
        | up hdir hrest =>
            simp only [follow, hdir]
            exact ih.mpr hrest
        | down hpass hget hnode hrest =>
            exact follow_down_eq_ok_iff.mpr
              ⟨hpass, Or.inr (Or.inl ⟨_, hget, hnode, ih.mpr hrest⟩)⟩
        | link hpass hget hrest =>
            exact follow_down_eq_ok_iff.mpr
              ⟨hpass, Or.inl ⟨_, hget, (hlink _ _ _ _).mpr ⟨_, rfl, hrest⟩⟩⟩
        | fresh hpass hcreate hget =>
            exact follow_down_eq_ok_iff.mpr
              ⟨hpass, Or.inr (Or.inr ⟨hget, ⟨hcreate, rfl⟩, rfl⟩)⟩

end Step

theorem walk_eq_ok_iff {t : FileTree} {p : Purpose} {links : Nat} {l m : Location}
    {steps : List Step} :
    t.walk p links l steps = .ok m ↔ Reaches t p links l steps m := by
  induction links generalizing l m steps with
  | zero =>
      rw [walk]
      apply follow_eq_ok_iff
      simp
  | succ links ih =>
      rw [walk]
      apply follow_eq_ok_iff
      intro l target rest m
      rw [ih]
      simp

theorem Reaches.mono {t : FileTree} {p : Purpose} {links links' : Nat} {l m : Location}
    {steps : List Step} (h : Reaches t p links l steps m) (hle : links ≤ links') :
    Reaches t p links' l steps m := by
  induction h generalizing links' with
  | done => exact .done
  | stay hdir hs _ ih => exact .stay hdir hs (ih hle)
  | up hdir _ ih => exact .up hdir (ih hle)
  | down hpass hget hnode _ ih => exact .down hpass hget hnode (ih hle)
  | link hpass hget _ ih =>
      cases links' with
      | zero => exact absurd hle (Nat.not_succ_le_zero _)
      | succ links' => exact .link hpass hget (ih (Nat.le_of_succ_le_succ hle))
  | fresh hpass hcreate hget => exact .fresh hpass hcreate hget

theorem Reaches.functional {t : FileTree} {p : Purpose} {links links' : Nat} {l m m' : Location}
    {steps : List Step} (h : Reaches t p links l steps m) (h' : Reaches t p links' l steps m') :
    m = m' := by
  have hboth := h.mono (Nat.le_max_left links links')
  have hboth' := h'.mono (Nat.le_max_right links links')
  rw [← walk_eq_ok_iff] at hboth hboth'
  exact Except.ok.inj (hboth.symm.trans hboth')

theorem Reaches.eq_of_file {t : FileTree} {p : Purpose} {links : Nat} {l m : Location}
    {steps : List Step} {content : Bytes} (h : Reaches t p links l steps m)
    (hl : t.get? l = some (.file content)) : m = l := by
  have hdirectory : t.get? l ≠ some .directory := by simp [hl]
  cases h with
  | done => rfl
  | stay hdir _ _ => exact absurd hdir hdirectory
  | up hdir _ => exact absurd hdir hdirectory
  | down hpass _ _ _ => exact absurd hpass.directory hdirectory
  | link hpass _ _ => exact absurd hpass.directory hdirectory
  | fresh hpass _ _ => exact absurd hpass.directory hdirectory

/-- A location where a file may be put: nothing or a file stands there. -/
def Writable (t : FileTree) (l : Location) : Prop :=
  t.get? l = none ∨ ∃ content, t.get? l = some (.file content)

section Put

variable {t : FileTree} {k : Location} {content : Bytes}

theorem Writable.ne_nil (hk : t.Writable k) : k ≠ [] := by
  rintro rfl
  rcases hk with h | ⟨c, h⟩ <;> simp [get?] at h

theorem Writable.ne_of_directory (hk : t.Writable k) {l : Location}
    (h : t.get? l = some .directory) : l ≠ k := by
  rintro rfl
  rcases hk with hk | ⟨c, hk⟩ <;> simp [hk] at h

theorem Writable.ne_of_link (hk : t.Writable k) {l : Location} {target : Path}
    (h : t.get? l = some (.link target)) : l ≠ k := by
  rintro rfl
  rcases hk with hk | ⟨c, hk⟩ <;> simp [hk] at h

theorem Writable.put_directory (hk : t.Writable k) {l : Location}
    (h : t.get? l = some .directory) :
    (t.put k (.file content)).get? l = some .directory := by
  rw [get?_put_of_ne t _ (hk.ne_of_directory h)]
  exact h

private theorem Passable.put (hk : t.Writable k) {p : Purpose} {l : Location} {n : Name}
    {rest : List Step} (h : Passable t p l n rest) :
    Passable (t.put k (.file content)) p l n rest :=
  ⟨hk.put_directory h.directory, h.noSlash, h.fits⟩

/-- Putting a file loses no walk. -/
theorem Reaches.put (hk : t.Writable k) {p : Purpose} {links : Nat} {l m : Location}
    {steps : List Step} (h : Reaches t p links l steps m) :
    Reaches (t.put k (.file content)) p links l steps m := by
  have hput := get?_put_self t k (.file content) hk.ne_nil
  induction h with
  | done => exact .done
  | stay hdir hs _ ih => exact .stay (hk.put_directory hdir) hs ih
  | up hdir _ ih => exact .up (hk.put_directory hdir) ih
  | @down links l n rest m node hpass hget hnode _ ih =>
      by_cases he : l ++ [n] = k
      · have hnew : (t.put k (.file content)).get? (l ++ [n]) = some (.file content) := by
          rw [he, hput]
        exact .down (hpass.put hk) hnew (by simp) ih
      · exact .down (hpass.put hk) (by rw [get?_put_of_ne t _ he, hget]) hnode ih
  | link hpass hget _ ih =>
      exact .link (hpass.put hk) (by rw [get?_put_of_ne t _ (hk.ne_of_link hget), hget]) ih
  | @fresh links l n hpass hcreate hget =>
      by_cases he : l ++ [n] = k
      · -- what would have been created is there now
        have hnew : (t.put k (.file content)).get? (l ++ [n]) = some (.file content) := by
          rw [he, hput]
        exact .down (hpass.put hk) hnew (by simp) .done
      · exact .fresh (hpass.put hk) hcreate (by rw [get?_put_of_ne t _ he, hget])

/-- A walk gained by putting a file ends at that file. -/
theorem Reaches.of_put (hk : t.Writable k) {p : Purpose} {links : Nat} {l m : Location}
    {steps : List Step} (h : Reaches (t.put k (.file content)) p links l steps m) (hm : m ≠ k) :
    Reaches t p links l steps m := by
  have hput := get?_put_self t k (.file content) hk.ne_nil
  have hdirectory {l : Location} (hl : (t.put k (.file content)).get? l = some .directory) :
      t.get? l = some .directory := by
    have hne : l ≠ k := by
      rintro rfl
      simp [hput] at hl
    rwa [get?_put_of_ne t _ hne] at hl
  have hpassable {l : Location} {n : Name} {rest : List Step}
      (hpass : Passable (t.put k (.file content)) p l n rest) : Passable t p l n rest :=
    ⟨hdirectory hpass.directory, hpass.noSlash, hpass.fits⟩
  induction h with
  | done => exact .done
  | stay hdir hs _ ih => exact .stay (hdirectory hdir) hs (ih hm)
  | up hdir _ ih => exact .up (hdirectory hdir) (ih hm)
  | @down links l n rest m node hpass hget hnode hrest ih =>
      -- a walk cannot go on from a file, so one that comes to the new file ends there
      have hne : l ++ [n] ≠ k := by
        intro he
        rw [he] at hrest
        exact hm (hrest.eq_of_file hput)
      rw [get?_put_of_ne t _ hne] at hget
      exact .down (hpassable hpass) hget hnode (ih hm)
  | @link links l n rest m target hpass hget _ ih =>
      have hne : l ++ [n] ≠ k := by
        intro he
        simp [he, hput] at hget
      rw [get?_put_of_ne t _ hne] at hget
      exact .link (hpassable hpass) hget (ih hm)
  | fresh hpass hcreate hget =>
      rw [get?_put_of_ne t _ hm] at hget
      exact .fresh (hpassable hpass) hcreate hget

end Put

theorem Reaches.directory_of_slash {t : FileTree} {p : Purpose} {links : Nat} {l m : Location}
    {steps : List Step} (h : Reaches t p links l (steps ++ [.slash]) m) :
    t.get? m = some .directory := by
  generalize hall : steps ++ [.slash] = all at h
  induction h generalizing steps with
  | done => simp at hall
  | stay hdir _ hrest ih =>
      cases steps with
      | nil =>
          simp only [List.nil_append, List.cons.injEq] at hall
          obtain ⟨-, rfl⟩ := hall
          cases hrest
          exact hdir
      | cons s steps => exact ih (by simpa using (List.cons.inj hall).2)
  | up _ _ ih =>
      cases steps with
      | nil => simp at hall
      | cons s steps => exact ih (List.cons.inj hall).2
  | down _ _ _ _ ih =>
      cases steps with
      | nil => simp at hall
      | cons s steps => exact ih (List.cons.inj hall).2
  | @link links l n rest m target _ _ _ ih =>
      cases steps with
      | nil => simp at hall
      | cons s steps =>
          have hrest : steps ++ [.slash] = rest := (List.cons.inj hall).2
          apply ih
          rw [← hrest, List.append_assoc]
  | fresh _ _ _ =>
      cases steps with
      | nil => simp at hall
      | cons s steps => simp at hall

theorem Reaches.create_of_look {t : FileTree} {links : Nat} {l m : Location} {steps : List Step}
    (h : Reaches t .look links l steps m) {content : Bytes}
    (hm : t.get? m = some (.file content)) : Reaches t .create links l steps m := by
  induction h with
  | done => exact .done
  | stay hdir hs _ ih => exact .stay hdir hs (ih hm)
  | up hdir _ ih => exact .up hdir (ih hm)
  | down hpass hget hnode hrest ih =>
      refine .down ⟨hpass.directory, ?_, hpass.fits⟩ hget hnode (ih hm)
      rintro ⟨-, rfl⟩
      rw [← List.nil_append [Step.slash]] at hrest
      have hdir := hrest.directory_of_slash
      simp [hm] at hdir
  | link hpass hget hrest ih =>
      refine .link ⟨hpass.directory, ?_, hpass.fits⟩ hget (ih hm)
      rintro ⟨-, rfl⟩
      have hdir := hrest.directory_of_slash
      simp [hm] at hdir
  | fresh _ hcreate _ => cases hcreate

theorem Reaches.look_of_create {t : FileTree} {links : Nat} {l m : Location} {steps : List Step}
    (h : Reaches t .create links l steps m) (hm : t.get? m ≠ none) :
    Reaches t .look links l steps m := by
  induction h with
  | done => exact .done
  | stay hdir hs _ ih => exact .stay hdir hs (ih hm)
  | up hdir _ ih => exact .up hdir (ih hm)
  | down hpass hget hnode _ ih =>
      exact .down ⟨hpass.directory, by simp, hpass.fits⟩ hget hnode (ih hm)
  | link hpass hget _ ih => exact .link ⟨hpass.directory, by simp, hpass.fits⟩ hget (ih hm)
  | fresh _ _ hget => exact absurd hget hm

end SuiteMake.FileTree

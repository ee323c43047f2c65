import Mathlib.Data.List.Basic
import SuiteMake.Proofs.FileTree.Below

/-!
# What stands below a directory

The locations below a directory are those to which a descent leads that enters directories and
never a link. A file at the end of a descent is read there. In which order a tree lists its nodes
makes no difference to what is where.
-/

namespace SuiteMake.FileTree

theorem mem_namesBelow_iff {t : FileTree} {l names : Location} :
    names ∈ t.namesBelow l ↔ l ++ names ∈ t.nodes.map Prod.fst := by
  rw [namesBelow, List.mem_filterMap, List.mem_map]
  constructor
  · rintro ⟨e, he, hnames⟩
    exact ⟨e, he, (List.append_eq_of_isPrefixOf?_eq_some hnames).symm⟩
  · rintro ⟨e, he, hkey⟩
    exact ⟨e, he, List.isPrefixOf?_eq_some_iff_append_eq.mpr hkey.symm⟩

theorem mem_directoriesBelow_iff_mem {t : FileTree} {l names : Location} :
    names ∈ t.directoriesBelow l ↔ names ≠ [] ∧ (l ++ names, Node.directory) ∈ t.nodes := by
  rw [directoriesBelow, List.mem_filter, List.mem_filterMap, decide_eq_true_eq, and_comm]
  apply and_congr_right
  intro _
  constructor
  · rintro ⟨⟨k, node⟩, hmem, hsome⟩
    dsimp only at hsome
    split at hsome
    · rename_i hnode
      rwa [List.append_eq_of_isPrefixOf?_eq_some hsome, ← hnode]
    · cases hsome
  · intro hmem
    exact ⟨_, hmem, (if_pos rfl).trans (List.isPrefixOf?_eq_some_iff_append_eq.mpr rfl)⟩

theorem Rewritten.mem_directoriesBelow {t t' : FileTree} {ls : List Location}
    (h : Rewritten t ls t') {l names : Location} (hnames : names ∈ t'.directoriesBelow l) :
    names ∈ t.directoriesBelow l := by
  obtain ⟨hne, hmem⟩ := mem_directoriesBelow_iff_mem.mp hnames
  exact mem_directoriesBelow_iff_mem.mpr ⟨hne, h.directory_mem hmem⟩

namespace WellFormed

variable {t : FileTree}

theorem above_directory (ht : t.WellFormed) {l below : Location} (hbelow : below ≠ [])
    (h : t.get? (l ++ below) ≠ none) : t.get? l = some .directory := by
  induction hlen : below.length generalizing below with
  | zero => exact absurd (List.length_eq_zero_iff.mp hlen) hbelow
  | succ n ih =>
      have hparent := ht.parent_directory h
      rw [List.dropLast_append_of_ne_nil hbelow] at hparent
      by_cases hnil : below.dropLast = []
      · rwa [hnil, List.append_nil] at hparent
      · exact ih hnil (by simp [hparent]) (by simp [hlen])

theorem isEntryName_of_get? (ht : t.WellFormed) {l : Location} {n : Name}
    (h : t.get? (l ++ [n]) ≠ none) : isEntryName n = true := by
  obtain ⟨e, he, hkey⟩ := List.mem_map.mp ((mem_keys_iff (by simp)).mpr h)
  obtain ⟨above, name, hname, hentry, -⟩ := ht.entry e he
  obtain ⟨-, hlast⟩ := List.append_inj' (hkey.symm.trans hname) rfl
  cases hlast
  exact hentry

theorem isEntryName_of_mem (ht : t.WellFormed) {l below : Location} (h : t.get? (l ++ below) ≠ none)
    {n : Name} (hn : n ∈ below) : isEntryName n = true := by
  obtain ⟨before, after, rfl⟩ := List.append_of_mem hn
  apply ht.isEntryName_of_get? (l := l ++ before)
  cases after with
  | nil => rwa [List.append_assoc]
  | cons m after =>
      have hbelow : t.get? (l ++ before ++ [n] ++ m :: after) ≠ none := by simpa using h
      rw [ht.above_directory (by simp) hbelow]
      simp

theorem isEntryName_of_mem_namesBelow (ht : t.WellFormed) {l names : Location}
    (h : names ∈ t.namesBelow l) {n : Name} (hn : n ∈ names) : isEntryName n = true := by
  have hne : l ++ names ≠ [] := by
    intro hnil
    rw [(List.append_eq_nil_iff.mp hnil).2] at hn
    simp at hn
  exact ht.isEntryName_of_mem ((mem_keys_iff hne).mp (mem_namesBelow_iff.mp h)) hn

theorem namesBelow_nodup (ht : t.WellFormed) (l : Location) : (t.namesBelow l).Nodup := by
  have hkeys : t.nodes.Pairwise fun e e' => e.1 ≠ e'.1 := List.pairwise_map.mp ht.distinct
  rw [namesBelow, List.Nodup, List.pairwise_filterMap]
  apply hkeys.imp
  intro e e' hne names hnames names' hnames' heq
  apply hne
  rw [← List.append_eq_of_isPrefixOf?_eq_some hnames, ← List.append_eq_of_isPrefixOf?_eq_some hnames', heq]

end WellFormed

theorem slash_notMem_of_isEntryName {name : Text} (h : isEntryName (.text name) = true) :
    '/' ∉ name := by
  intro hmem
  have hbyte : (0x2F : UInt8) ∈ Utf8.encode name :=
    List.mem_flatMap.mpr ⟨'/', hmem, by decide⟩
  simp [isEntryName, Name.bytes, hbyte] at h

theorem step?_of_isEntryName {n : Name} (h : isEntryName n = true) :
    Route.step? n = some (.down n) := by
  simp only [isEntryName, Bool.and_eq_true, decide_eq_true_eq] at h
  simp [Route.step?, h]

/-- Names lead down from a location. Each but the last is that of a directory, which is entered. -/
inductive Descends (t : FileTree) : Location → List Name → Prop
  | entry {l n} : t.get? l = some .directory → t.get? (l ++ [n]) ≠ none → Descends t l [n]
  | enter {l n names} : t.get? l = some .directory → Descends t (l ++ [n]) names →
      Descends t l (n :: names)

section Descent

variable {t : FileTree} {l : Location} {names : List Name} {content : Bytes}

theorem Descends.from_directory (h : t.Descends l names) : t.get? l = some .directory := by
  cases h with
  | entry hdir _ => exact hdir
  | enter hdir _ => exact hdir

theorem Descends.ne_nil (h : t.Descends l names) : names ≠ [] := by
  cases h <;> simp

theorem Descends.taken (h : t.Descends l names) : t.get? (l ++ names) ≠ none := by
  induction h with
  | entry _ hget => exact hget
  | enter _ _ ih => rwa [List.append_assoc] at ih

theorem WellFormed.descends_iff (ht : t.WellFormed) :
    t.Descends l names ↔ names ≠ [] ∧ names ∈ t.namesBelow l := by
  constructor
  · intro h
    refine ⟨h.ne_nil, mem_namesBelow_iff.mpr ((mem_keys_iff ?_).mpr h.taken)⟩
    simp [h.ne_nil]
  · intro h
    obtain ⟨hne, hmem⟩ := h
    have htaken : t.get? (l ++ names) ≠ none :=
      (mem_keys_iff (by simp [hne])).mp (mem_namesBelow_iff.mp hmem)
    clear hmem
    induction names generalizing l with
    | nil => exact absurd rfl hne
    | cons n names ih =>
        have hdir : t.get? l = some .directory := ht.above_directory hne htaken
        by_cases hnil : names = []
        · subst hnil
          exact .entry hdir htaken
        · refine .enter hdir (ih hnil ?_)
          rwa [List.append_assoc]

theorem Descends.isEntryName (ht : t.WellFormed) (h : t.Descends l names) {n : Name}
    (hn : n ∈ names) : isEntryName n = true :=
  ht.isEntryName_of_mem h.taken hn

/-- A descent that does not end at a link leads where its names say. -/
theorem Descends.reaches (ht : t.WellFormed) (h : t.Descends l names)
    (hlink : ∀ target, t.get? (l ++ names) ≠ some (.link target)) (links : Nat) :
    Reaches t .look links l (names.map .down) (l ++ names) := by
  have hpass {l : Location} {n : Name} {rest : List Step} (hdir : t.get? l = some .directory)
      (htaken : t.get? (l ++ [n]) ≠ none) : Passable t .look l n rest := by
    refine ⟨hdir, by simp, ?_⟩
    have hentry := ht.isEntryName_of_get? htaken
    simp only [FileTree.isEntryName, Bool.and_eq_true, Bool.not_eq_true'] at hentry
    exact hentry.2
  induction h with
  | @entry l n hdir htaken =>
      obtain ⟨node, hnode⟩ := Option.ne_none_iff_exists'.mp htaken
      exact .down (hpass hdir htaken) hnode (fun target heq => hlink target (heq ▸ hnode)) .done
  | @enter l n names hdir hbelow ih =>
      rw [List.append_cons] at hlink ⊢
      have hnext : t.get? (l ++ [n]) = some .directory := hbelow.from_directory
      exact .down (hpass hdir (by simp [hnext])) hnext (by simp) (ih hlink)

/-- Names lead down from a location to a file, through at most a number of links. -/
def EndsInFile (t : FileTree) (links : Nat) (l : Location) (names : List Name) : Prop :=
  ∃ k content, Reaches t .look links l (names.map .down) k ∧ t.get? k = some (.file content)

theorem Descends.endsInFile_iff (ht : t.WellFormed) (h : t.Descends l names)
    (hlink : ∀ target, t.get? (l ++ names) ≠ some (.link target)) {links : Nat} :
    t.EndsInFile links l names ↔ ∃ content, t.get? (l ++ names) = some (.file content) := by
  constructor
  · rintro ⟨k, content, hk, hget⟩
    rw [hk.functional (h.reaches ht hlink links)] at hget
    exact ⟨content, hget⟩
  · rintro ⟨content, hget⟩
    exact ⟨l ++ names, content, h.reaches ht hlink links, hget⟩

section Path

variable {root : Path}

theorem Descends.below_steps (ht : t.WellFormed) (h : t.Descends l names) :
    (Route.below root names).steps =
      (Route.segments root).filterMap Route.step? ++ names.map .down :=
  Route.below_steps root h.ne_nil fun _ hn => step?_of_isEntryName (h.isEntryName ht hn)

/-- All that can be wrong with the path of an entry is its length. -/
theorem Descends.fault?_below (ht : t.WellFormed) (h : t.Descends l names)
    (hroot : t.locate .look root = .ok l) : (Route.below root names).fault? =
      if Route.maxLength < (Route.below root names).length then some .nameTooLong else none := by
  have hnull : (Route.below root names).steps.any Step.hasNull = false := by
    obtain ⟨hfault, -, -⟩ := locateRoute_eq_ok_iff.mp hroot
    have habove : ((Route.segments root).filterMap Route.step?).any Step.hasNull = false := by
      obtain ⟨hpath, -⟩ := Route.fault?_eq_none_iff.mp hfault
      rcases Route.ofPath_steps root with hroute | hroute
      · rwa [hroute] at hpath
      · rw [hroute, List.any_append, Bool.or_eq_false_iff] at hpath
        exact hpath.1
    rw [h.below_steps ht, List.any_append, habove, Bool.false_or, List.any_eq_false]
    intro s hs
    obtain ⟨n, hn, rfl⟩ := List.mem_map.mp hs
    have hname := h.isEntryName ht hn
    simp only [FileTree.isEntryName, Bool.and_eq_true, Bool.not_eq_true'] at hname
    simp [Step.hasNull, hname.1.2]
  rw [Route.fault?, hnull]
  rfl

theorem Descends.locateRoute_below_iff (ht : t.WellFormed) (h : t.Descends l names)
    (hroot : t.locate .look root = .ok l) {k : Location} :
    t.locateRoute .look (.below root names) = .ok k ↔
      (Route.below root names).length ≤ Route.maxLength ∧
      Reaches t .look maxLinks (t.origin (.ofPath root))
        ((Route.segments root).filterMap Route.step? ++ names.map .down) k := by
  have hfault : (Route.below root names).fault? = none ↔
      (Route.below root names).length ≤ Route.maxLength := by
    rw [h.fault?_below ht hroot]
    split <;> simp <;> omega
  rw [locateRoute_eq_ok_iff, hfault, origin_below hroot h.ne_nil, h.below_steps ht]
  simp [h.ne_nil]

/-- A directory below what a path denotes is opened by that path and the names below it, unless
the path is at fault. -/
theorem Descends.openDirectory_below (ht : t.WellFormed) (h : t.Descends l names)
    (hroot : t.locate .look root = .ok l) (hdir : t.get? (l ++ names) = some .directory) :
    t.openDirectory (.below root names) =
      match (Route.below root names).fault? with
      | some cause => .error cause
      | none => .ok (l ++ names) := by
  cases hfault : (Route.below root names).fault? with
  | some cause => simp [openDirectory, locateRoute, hfault, bind, Except.bind]
  | none =>
      have hlocate : t.locateRoute .look (.below root names) = .ok (l ++ names) := by
        obtain ⟨-, -, hreach⟩ := locateRoute_eq_ok_iff.mp hroot
        refine (h.locateRoute_below_iff ht hroot).mpr ⟨(Route.fault?_eq_none_iff.mp hfault).2, ?_⟩
        exact (reaches_segments hreach).append (h.reaches ht (by simp [hdir]) 0)
      simp [openDirectory, hlocate, hdir, bind, Except.bind]

/-- A file below what a path denotes is found by that path and the names below it, unless these are
too long or lead through too many links. -/
theorem Descends.isFile_below_iff (ht : t.WellFormed) (h : t.Descends l names)
    (hroot : t.locate .look root = .ok l) :
    t.isFile (.below root names) = true ↔
      (Route.below root names).length ≤ Route.maxLength ∧ ∃ used left, used + left ≤ maxLinks ∧
        Reaches t .look used (t.origin (.ofPath root)) (Route.ofPath root).steps l ∧
        t.EndsInFile left l names := by
  obtain ⟨-, -, hreach⟩ := locateRoute_eq_ok_iff.mp hroot
  rw [isFile_iff]
  constructor
  · rintro ⟨k, content, hk, hget⟩
    obtain ⟨hlength, hall⟩ := (h.locateRoute_below_iff ht hroot).mp hk
    obtain ⟨used, left, m, hsum, hfirst, hsecond⟩ := hall.split
    obtain rfl : m = l := hfirst.functional (reaches_segments hreach)
    exact ⟨hlength, used, left, Nat.le_of_eq hsum, reaches_path hfirst h.from_directory,
      k, content, hsecond, hget⟩
  · rintro ⟨hlength, used, left, hsum, hfirst, k, content, hsecond, hget⟩
    refine ⟨k, content, (h.locateRoute_below_iff ht hroot).mpr ⟨hlength, ?_⟩, hget⟩
    exact ((reaches_segments hfirst).append hsecond).mono hsum

end Path

end Descent

section Agreement

variable {t t' : FileTree}

theorem Reaches.congr (h : ∀ l, t'.get? l = t.get? l) {p : Purpose} {links : Nat} {l m : Location}
    {steps : List Step} (hreaches : Reaches t p links l steps m) :
    Reaches t' p links l steps m := by
  have hpass {l : Location} {n : Name} {rest : List Step} (hpass : Passable t p l n rest) :
      Passable t' p l n rest := ⟨by rw [h, hpass.directory], hpass.noSlash, hpass.fits⟩
  induction hreaches with
  | done => exact .done
  | stay hdir hs _ ih => exact .stay (by rw [h, hdir]) hs ih
  | up hdir _ ih => exact .up (by rw [h, hdir]) ih
  | down hp hget hnode _ ih => exact .down (hpass hp) (by rw [h, hget]) hnode ih
  | link hp hget _ ih => exact .link (hpass hp) (by rw [h, hget]) ih
  | fresh hp hcreate hget => exact .fresh (hpass hp) hcreate (by rw [h, hget])

private theorem AgreesOutside.reach (h : t.AgreesOutside t' []) {p : Purpose} {r : Route}
    {m : Location} (hm : t.locateRoute p r = .ok m) : t'.locateRoute p r = .ok m := by
  rw [locateRoute_eq_ok_iff] at hm ⊢
  have horigin : t'.origin r = t.origin r := by rw [origin, origin, h.cwd]
  refine ⟨hm.1, hm.2.1, ?_⟩
  rw [horigin]
  exact hm.2.2.congr fun l => h.get? l (by simp)

theorem AgreesOutside.locateRoute (h : t.AgreesOutside t' []) {p : Purpose} {r : Route}
    {m : Location} : t'.locateRoute p r = .ok m ↔ t.locateRoute p r = .ok m :=
  ⟨h.symm.reach, h.reach⟩

theorem AgreesOutside.isFile (h : t.AgreesOutside t' []) (r : Route) : t'.isFile r = t.isFile r := by
  rw [Bool.eq_iff_iff, isFile_iff, isFile_iff]
  simp only [h.locateRoute, h.get? _ List.not_mem_nil]

private theorem lookup_eq_some_iff_mem {nodes : List (Location × Node)}
    (hdistinct : (nodes.map Prod.fst).Nodup) {l : Location} {n : Node} :
    nodes.lookup l = some n ↔ (l, n) ∈ nodes := by
  induction nodes with
  | nil => simp
  | cons e nodes ih =>
      obtain ⟨k, m⟩ := e
      obtain ⟨hk, hrest⟩ := List.nodup_cons.mp hdistinct
      by_cases hl : l = k
      · subst hl
        have hnew : (l, n) ∉ nodes := fun hmem => hk (List.mem_map.mpr ⟨_, hmem, rfl⟩)
        simp [hnew, eq_comm]
      · have hbeq : (l == k) = false := by simpa using hl
        simp [List.lookup_cons, hbeq, ih hrest, hl]

theorem WellFormed.mem_directoriesBelow_iff (ht : t.WellFormed) {l names : Location} :
    names ∈ t.directoriesBelow l ↔
      t.Descends l names ∧ t.get? (l ++ names) = some .directory := by
  rw [mem_directoriesBelow_iff_mem, ht.descends_iff, mem_namesBelow_iff, and_assoc]
  apply and_congr_right
  intro hne
  rw [FileTree.get?, if_neg (by simp [hne]), lookup_eq_some_iff_mem ht.distinct]
  exact ⟨fun hmem => ⟨List.mem_map.mpr ⟨_, hmem, rfl⟩, hmem⟩, fun hmem => hmem.2⟩

theorem WellFormed.agreesOutside_of_perm (ht : t.WellFormed) (hnodes : t'.nodes.Perm t.nodes)
    (hcwd : t'.cwd = t.cwd) : t.AgreesOutside t' [] := by
  refine ⟨hcwd, ?_⟩
  intro l _
  have hdistinct : (t'.nodes.map Prod.fst).Nodup :=
    (hnodes.map Prod.fst).nodup_iff.mpr ht.distinct
  rw [FileTree.get?, FileTree.get?]
  split
  · rfl
  · ext n
    rw [lookup_eq_some_iff_mem hdistinct, lookup_eq_some_iff_mem ht.distinct, hnodes.mem_iff]

end Agreement

end SuiteMake.FileTree

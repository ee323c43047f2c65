import SuiteMake.FileTree.Edit
import SuiteMake.Proofs.FileTree.Walk
import SuiteMake.Proofs.Text.Decoding

/-!
# What writing changes

Writing a file puts it at the location its path denotes. A path denotes the same location
before and after, and is read there afterwards; the content of every other location stays.
-/

namespace SuiteMake.FileTree

theorem locateRoute_eq_ok_iff {t : FileTree} {p : Purpose} {r : Route} {m : Location} :
    t.locateRoute p r = .ok m ↔ r.fault? = none ∧ ¬(r.fromRoot = false ∧ r.steps = []) ∧
      Reaches t p maxLinks (t.origin r) r.steps m := by
  rw [locateRoute]
  cases hf : r.fault? with
  | some e => simp
  | none =>
      by_cases he : r.fromRoot = false ∧ r.steps = []
      · simp [he]
      · rw [← walk_eq_ok_iff]
        simp [he]

theorem openDirectory_eq_ok_iff {t : FileTree} {r : Route} {l : Location} :
    t.openDirectory r = .ok l ↔ t.locateRoute .look r = .ok l ∧ t.get? l = some .directory := by
  rw [openDirectory]
  cases t.locateRoute .look r with
  | error e => simp [bind, Except.bind]
  | ok k =>
      simp only [bind, Except.bind, Except.ok.injEq]
      split
      · rename_i hdir
        constructor
        · rintro ⟨⟩
          exact ⟨rfl, hdir⟩
        · rintro ⟨rfl, -⟩
          rfl
      · rename_i hdir
        constructor
        · intro h
          cases h
        · rintro ⟨rfl, h⟩
          exact absurd h hdir

theorem readRoute_eq_ok_iff {t : FileTree} {r : Route} {content : Bytes} :
    t.readRoute r = .ok content ↔
      ∃ l, t.locateRoute .look r = .ok l ∧ t.get? l = some (.file content) := by
  rw [readRoute]
  cases t.locateRoute .look r with
  | error e => simp [bind, Except.bind]
  | ok l =>
      simp only [bind, Except.bind, contentAt, Except.ok.injEq, exists_eq_left']
      cases t.get? l with
      | none => simp
      | some node => cases node <;> simp

theorem isFile_iff {t : FileTree} {r : Route} :
    t.isFile r = true ↔ ∃ l content, t.locateRoute .look r = .ok l ∧
      t.get? l = some (.file content) := by
  have hok : t.isFile r = true ↔ ∃ content, t.readRoute r = .ok content := by
    rw [isFile]
    cases t.readRoute r <;> simp [Except.isOk, Except.toBool]
  rw [hok]
  constructor
  · rintro ⟨content, h⟩
    obtain ⟨l, hl, hget⟩ := readRoute_eq_ok_iff.mp h
    exact ⟨l, content, hl, hget⟩
  · rintro ⟨l, content, hl, hget⟩
    exact ⟨content, readRoute_eq_ok_iff.mpr ⟨l, hl, hget⟩⟩

/-- Text is read from a path exactly where its encoding stands. -/
theorem readText_eq_ok_iff {t : FileTree} {p : Path} {text : Text} :
    t.readText p = .ok text ↔ t.readBytes p = .ok (Utf8.encode text) := by
  rw [readText]
  cases t.readBytes p with
  | error e => simp [bind, Except.bind]
  | ok content =>
      simp only [bind, Except.bind, Except.ok.injEq]
      rw [← Utf8.decode?_eq_some_iff_encode]
      cases Utf8.decode? content <;> simp

theorem put_eq_self {t : FileTree} {l : Location} {n : Node} (h : t.get? l = some n)
    (hl : l ≠ []) : t.put l n = t := by
  have hnodes (nodes : List (Location × Node)) (h : nodes.lookup l = some n) :
      putNode l n nodes = nodes := by
    induction nodes with
    | nil => simp at h
    | cons e nodes ih =>
        obtain ⟨k, m⟩ := e
        by_cases hk : k = l
        · subst hk
          simp only [List.lookup_cons, beq_self_eq_true, Option.some.injEq] at h
          simp [putNode, h]
        · have hbeq : (l == k) = false := by simpa using Ne.symm hk
          rw [List.lookup_cons, hbeq] at h
          rw [putNode, if_neg hk, ih h]
  have hlookup : t.nodes.lookup l = some n := by simpa [get?, hl] using h
  rw [put, hnodes t.nodes hlookup]

theorem put_put (t : FileTree) (l : Location) (m n : Node) :
    (t.put l m).put l n = t.put l n := by
  have hnodes (nodes : List (Location × Node)) :
      putNode l n (putNode l m nodes) = putNode l n nodes := by
    induction nodes with
    | nil => simp [putNode]
    | cons e nodes ih =>
        obtain ⟨k, node⟩ := e
        by_cases hk : k = l
        · simp [putNode, hk]
        · simp [putNode, hk, ih]
  simp [put, hnodes]

theorem mem_keys_iff {t : FileTree} {l : Location} (hl : l ≠ []) :
    l ∈ t.nodes.map Prod.fst ↔ t.get? l ≠ none := by
  rw [get?, if_neg hl]
  induction t.nodes with
  | nil => simp
  | cons e nodes ih =>
      obtain ⟨k, m⟩ := e
      by_cases hk : l = k
      · simp [hk]
      · have hbeq : (l == k) = false := by simpa using hk
        simp only [List.map_cons, List.mem_cons, hk, false_or, List.lookup_cons, hbeq]
        exact ih

theorem keys_put (t : FileTree) (l : Location) (n : Node) :
    (t.put l n).nodes.map Prod.fst =
      t.nodes.map Prod.fst ++ if l ∈ t.nodes.map Prod.fst then [] else [l] := by
  change (putNode l n t.nodes).map Prod.fst = _
  induction t.nodes with
  | nil => simp [putNode]
  | cons e nodes ih =>
      obtain ⟨k, m⟩ := e
      by_cases hk : k = l
      · simp [putNode, hk]
      · have hmem : l ∈ k :: nodes.map Prod.fst ↔ l ∈ nodes.map Prod.fst := by
          simp only [List.mem_cons, Ne.symm hk, false_or]
        simp only [putNode, if_neg hk, List.map_cons, ih, List.cons_append, hmem]

/-- A path denotes a location at which a file may be put. -/
structure Located (t : FileTree) (p : Path) (l : Location) : Prop where
  denotes : t.locate .create p = .ok l
  writable : t.Writable l

theorem Writable.put {t : FileTree} {k l : Location} {content : Bytes} (hk : t.Writable k)
    (hl : t.Writable l) : (t.put k (.file content)).Writable l := by
  by_cases h : l = k
  · subst h
    exact Or.inr ⟨content, get?_put_self t l _ hk.ne_nil⟩
  · rw [Writable, get?_put_of_ne t _ h]
    exact hl

theorem locateRoute_put {t : FileTree} {k : Location} {content : Bytes} (hk : t.Writable k)
    {p : Purpose} {r : Route} {m : Location} (h : t.locateRoute p r = .ok m) :
    (t.put k (.file content)).locateRoute p r = .ok m := by
  rw [locateRoute_eq_ok_iff] at h ⊢
  exact ⟨h.1, h.2.1, h.2.2.put hk⟩

theorem locateRoute_of_put {t : FileTree} {k : Location} {content : Bytes} (hk : t.Writable k)
    {p : Purpose} {r : Route} {m : Location}
    (h : (t.put k (.file content)).locateRoute p r = .ok m) (hm : m ≠ k) :
    t.locateRoute p r = .ok m := by
  rw [locateRoute_eq_ok_iff] at h ⊢
  exact ⟨h.1, h.2.1, h.2.2.of_put hk hm⟩

theorem locateRoute_put_file {t : FileTree} {k : Location} {old new : Bytes}
    (hk : t.get? k = some (.file old)) {p : Purpose} {r : Route} {m : Location} :
    (t.put k (.file new)).locateRoute p r = .ok m ↔ t.locateRoute p r = .ok m := by
  have hwritable : t.Writable k := Or.inr ⟨old, hk⟩
  constructor
  · intro h
    have hback : ((t.put k (.file new)).put k (.file old)).locateRoute p r = .ok m :=
      locateRoute_put (hwritable.put hwritable) h
    rwa [put_put, put_eq_self hk hwritable.ne_nil] at hback
  · exact locateRoute_put hwritable

theorem Located.of_read {t : FileTree} {p : Path} {content : Bytes}
    (h : t.readBytes p = .ok content) :
    ∃ l, t.Located p l ∧ t.get? l = some (.file content) := by
  obtain ⟨l, hl, hget⟩ := readRoute_eq_ok_iff.mp h
  rw [locateRoute_eq_ok_iff] at hl
  refine ⟨l, ⟨?_, Or.inr ⟨content, hget⟩⟩, hget⟩
  exact locateRoute_eq_ok_iff.mpr ⟨hl.1, hl.2.1, hl.2.2.create_of_look hget⟩

theorem Located.read {t : FileTree} {p : Path} {l : Location} (h : t.Located p l)
    {content : Bytes} : t.readBytes p = .ok content ↔ t.get? l = some (.file content) := by
  constructor
  · intro hread
    obtain ⟨k, hk, hget⟩ := Located.of_read hread
    cases h.denotes.symm.trans hk.denotes
    exact hget
  · intro hget
    have hl := locateRoute_eq_ok_iff.mp h.denotes
    apply readRoute_eq_ok_iff.mpr
    refine ⟨l, ?_, hget⟩
    exact locateRoute_eq_ok_iff.mpr ⟨hl.1, hl.2.1, hl.2.2.look_of_create (by simp [hget])⟩

theorem Located.write {t : FileTree} {p : Path} {l : Location} (h : t.Located p l) (text : Text) :
    t.writeText p text = .ok (t.put l (.file (Utf8.encode text))) := by
  have hdirectory : t.get? l ≠ some .directory := by
    intro hl
    exact h.writable.ne_of_directory hl rfl
  simp [writeText, writeBytes, h.denotes, bind, Except.bind, writeAt, hdirectory]

theorem writeText_eq_ok_iff {t t' : FileTree} {p : Path} {text : Text} :
    t.writeText p text = .ok t' ↔ ∃ l, t.locate .create p = .ok l ∧
      t.get? l ≠ some .directory ∧ t' = t.put l (.file (Utf8.encode text)) := by
  rw [writeText, writeBytes]
  cases t.locate .create p with
  | error e => simp [bind, Except.bind]
  | ok l =>
      simp only [bind, Except.bind, writeAt, Except.ok.injEq, exists_eq_left']
      by_cases hdir : t.get? l = some .directory
      · simp [hdir]
      · simp [hdir, eq_comm]

theorem writeText_eq_error {t : FileTree} {p : Path} {text : Text} {failure : Failure}
    (h : t.writeText p text = .error failure) : ∃ cause, failure = .file p cause := by
  rw [writeText] at h
  split at h
  · cases h
  · cases h
    exact ⟨_, rfl⟩

theorem writeAll_cons {t t' : FileTree} {o : Path × Text} {os : List (Path × Text)}
    (h : t.writeAll (o :: os) = (.ok (), t')) :
    ∃ t₁, t.writeText o.1 o.2 = .ok t₁ ∧ t₁.writeAll os = (.ok (), t') := by
  obtain ⟨p, text⟩ := o
  rw [writeAll] at h
  split at h
  · rename_i t₁ h₁
    exact ⟨t₁, h₁, h⟩
  · cases h

def isEntryAt (t : FileTree) (l : Location) : Bool :=
  match l.getLast? with
  | some name => isEntryName name && t.get? l.dropLast == some .directory
  | none => false

theorem isEntryAt_iff {t : FileTree} {l : Location} : t.isEntryAt l = true ↔
    ∃ above name, l = above ++ [name] ∧ isEntryName name = true ∧
      t.get? above = some .directory := by
  rw [isEntryAt]
  constructor
  · intro h
    split at h
    · rename_i name hlast
      obtain ⟨above, rfl⟩ := List.getLast?_eq_some_iff.mp hlast
      exact ⟨above, name, rfl, by simpa using h⟩
    · cases h
  · rintro ⟨above, name, rfl, hname, habove⟩
    simp [hname, habove]

instance (t : FileTree) : Decidable t.WellFormed :=
  decidable_of_iff ((t.nodes.map Prod.fst).Nodup ∧ (∀ node ∈ t.nodes, t.isEntryAt node.1 = true) ∧
      t.get? t.cwd = some .directory)
    ⟨fun h => ⟨h.1, fun node hnode => isEntryAt_iff.mp (h.2.1 node hnode), h.2.2⟩,
      fun h => ⟨h.distinct, fun node hnode => isEntryAt_iff.mpr (h.entry node hnode),
        h.cwd_directory⟩⟩

namespace WellFormed

variable {t : FileTree}

theorem parent_directory (ht : t.WellFormed) {l : Location} (h : t.get? l ≠ none) :
    t.get? l.dropLast = some .directory := by
  by_cases hl : l = []
  · simp [hl, get?]
  · obtain ⟨e, he, rfl⟩ := List.mem_map.mp ((mem_keys_iff hl).mpr h)
    obtain ⟨above, name, hname, -, habove⟩ := ht.entry e he
    rw [hname, List.dropLast_concat]
    exact habove

theorem origin_directory (ht : t.WellFormed) (r : Route) :
    t.get? (t.origin r) = some .directory := by
  rw [origin]
  split
  · simp [get?]
  · exact ht.cwd_directory

theorem not_link (ht : t.WellFormed) {p : Purpose} {links : Nat} {l m : Location}
    {steps : List Step} (h : Reaches t p links l steps m)
    (hl : ∀ target, t.get? l ≠ some (.link target)) (target : Path) :
    t.get? m ≠ some (.link target) := by
  induction h with
  | done => exact hl target
  | stay _ _ _ ih => exact ih hl
  | @up links l rest m hdir _ ih =>
      have hparent : t.get? l.dropLast = some .directory := ht.parent_directory (by simp [hdir])
      apply ih
      simp [hparent]
  | down _ hget hnode _ ih =>
      apply ih
      intro target hlink
      exact hnode target (Option.some.inj (hget.symm.trans hlink))
  | link hpass _ _ ih =>
      apply ih
      intro target
      split
      · simp [get?]
      · simp [hpass.directory]
  | fresh _ _ hget => simp [hget]

theorem located (ht : t.WellFormed) {p : Path} {l : Location} (h : t.locate .create p = .ok l)
    (hl : t.get? l ≠ some .directory) : t.Located p l := by
  refine ⟨h, ?_⟩
  have hlink := ht.not_link (locateRoute_eq_ok_iff.mp h).2.2 (by simp [ht.origin_directory])
  cases hget : t.get? l with
  | none => exact Or.inl hget
  | some node =>
      cases node with
      | file content => exact Or.inr ⟨content, hget⟩
      | directory => exact absurd hget hl
      | link target => exact absurd hget (hlink target)

end WellFormed

/-- One tree is another in which files were put at some of the given locations. -/
inductive Rewritten (t : FileTree) (ls : List Location) : FileTree → Prop
  | refl : Rewritten t ls t
  | put {t' k content} : Rewritten t ls t' → t.Writable k → k ∈ ls →
      Rewritten t ls (t'.put k (.file content))

namespace Rewritten

variable {t t' : FileTree} {ls : List Location}

theorem writable (h : Rewritten t ls t') {l : Location} (hl : t.Writable l) : t'.Writable l := by
  induction h generalizing l with
  | refl => exact hl
  | put _ hk _ ih => exact (ih hk).put (ih hl)

theorem get?_of_notMem (h : Rewritten t ls t') {l : Location} (hl : l ∉ ls) :
    t'.get? l = t.get? l := by
  induction h with
  | refl => rfl
  | put _ _ hmem ih =>
      rw [get?_put_of_ne _ _ (ne_of_mem_of_not_mem hmem hl).symm, ih]

theorem get?_directory (h : Rewritten t ls t') {l : Location} (hl : t.get? l = some .directory) :
    t'.get? l = some .directory := by
  induction h with
  | refl => exact hl
  | put h hk _ ih => exact (h.writable hk).put_directory ih

theorem get?_file (h : Rewritten t ls t') {l : Location} {content : Bytes}
    (hl : t.get? l = some (.file content)) : ∃ content', t'.get? l = some (.file content') := by
  induction h with
  | refl => exact ⟨content, hl⟩
  | @put t' k content' _ hk _ ih =>
      by_cases he : l = k
      · exact ⟨content', by rw [he, get?_put_self _ _ _ hk.ne_nil]⟩
      · rw [get?_put_of_ne _ _ he]
        exact ih

theorem locateRoute (h : Rewritten t ls t') {p : Purpose} {r : Route} {m : Location}
    (hr : t.locateRoute p r = .ok m) : t'.locateRoute p r = .ok m := by
  induction h with
  | refl => exact hr
  | put h hk _ ih => exact locateRoute_put (h.writable hk) ih

/-- A route that leads to none of the given locations led there before. -/
theorem locateRoute_of_notMem (h : Rewritten t ls t') {p : Purpose} {r : Route} {m : Location}
    (hr : t'.locateRoute p r = .ok m) (hm : m ∉ ls) : t.locateRoute p r = .ok m := by
  induction h with
  | refl => exact hr
  | put h hk hmem ih =>
      exact ih (locateRoute_of_put (h.writable hk) hr (ne_of_mem_of_not_mem hmem hm).symm)

theorem located (h : Rewritten t ls t') {p : Path} {l : Location} (hp : t.Located p l) :
    t'.Located p l :=
  ⟨h.locateRoute hp.denotes, h.writable hp.writable⟩

private theorem mem_of_mem_putNode {l : Location} {n : Node} {nodes : List (Location × Node)}
    {e : Location × Node} (h : e ∈ putNode l n nodes) : e = (l, n) ∨ e ∈ nodes := by
  induction nodes with
  | nil => exact Or.inl (List.mem_singleton.mp h)
  | cons d nodes ih =>
      obtain ⟨k, m⟩ := d
      rw [putNode] at h
      split at h
      · rcases List.mem_cons.mp h with h | h
        · exact Or.inl h
        · exact Or.inr (List.mem_cons_of_mem _ h)
      · rcases List.mem_cons.mp h with h | h
        · exact Or.inr (h ▸ List.mem_cons_self)
        · exact (ih h).imp_right (List.mem_cons_of_mem _)

theorem directory_mem (h : Rewritten t ls t') {k : Location}
    (hk : (k, Node.directory) ∈ t'.nodes) : (k, Node.directory) ∈ t.nodes := by
  induction h with
  | refl => exact hk
  | put _ _ _ ih =>
      rcases mem_of_mem_putNode hk with hnew | hold
      · cases (Prod.mk.inj hnew).2
      · exact ih hold

/-- The taken locations stay as they are; those of new files follow. -/
theorem keys (h : Rewritten t ls t') :
    ∃ new, t'.nodes.map Prod.fst = t.nodes.map Prod.fst ++ new ∧
      ∀ l ∈ new, l ∈ ls ∧ l ∉ t.nodes.map Prod.fst := by
  induction h with
  | refl => exact ⟨[], by simp⟩
  | @put t' k content h hk hls ih =>
      obtain ⟨new, hnew, hold⟩ := ih
      rw [keys_put]
      by_cases hmem : k ∈ t'.nodes.map Prod.fst
      · exact ⟨new, by rw [if_pos hmem, List.append_nil, hnew], hold⟩
      · refine ⟨new ++ [k], by rw [if_neg hmem, hnew, List.append_assoc], ?_⟩
        intro l hl
        rcases List.mem_append.mp hl with hl | hl
        · exact hold l hl
        · obtain rfl := List.mem_singleton.mp hl
          rw [hnew, List.mem_append, not_or] at hmem
          exact ⟨hls, hmem.1⟩

end Rewritten

/-- Two trees are seen from the same directory and hold the same outside some locations. -/
structure AgreesOutside (t t' : FileTree) (ls : List Location) : Prop where
  cwd : t'.cwd = t.cwd
  get? : ∀ l, l ∉ ls → t'.get? l = t.get? l

namespace AgreesOutside

variable {t t' : FileTree} {ls : List Location}

theorem refl (t : FileTree) (ls : List Location) : t.AgreesOutside t ls := ⟨rfl, fun _ _ => rfl⟩

theorem symm (h : t.AgreesOutside t' ls) : t'.AgreesOutside t ls :=
  ⟨h.cwd.symm, fun l hl => (h.get? l hl).symm⟩

theorem mono (h : t.AgreesOutside t' ls) {ls' : List Location} (hls : ls ⊆ ls') :
    t.AgreesOutside t' ls' :=
  ⟨h.cwd, fun l hl => h.get? l fun hmem => hl (hls hmem)⟩

theorem put (h : t.AgreesOutside t' ls) {k : Location} (hk : k ∈ ls) (content : Bytes) :
    t.AgreesOutside (t'.put k (.file content)) ls := by
  refine ⟨h.cwd, ?_⟩
  intro l hl
  have hne : l ≠ k := fun heq => hl (heq ▸ hk)
  rw [get?_put_of_ne t' _ hne, h.get? l hl]

end AgreesOutside

/-- Texts written at different locations are all there in the end. -/
theorem writeAll_located {t t₀ : FileTree} {ls : List Location} (h₀ : Rewritten t ls t₀)
    (plan : List (Location × Path × Text)) (hplan : ∀ e ∈ plan, t.Located e.2.1 e.1 ∧ e.1 ∈ ls)
    (hdistinct : (plan.map Prod.fst).Nodup) :
    ∃ t', t₀.writeAll (plan.map Prod.snd) = (.ok (), t') ∧ Rewritten t ls t' ∧
      (∀ e ∈ plan, t'.get? e.1 = some (.file (Utf8.encode e.2.2))) ∧
      ∀ l, l ∉ plan.map Prod.fst → t'.get? l = t₀.get? l := by
  induction plan generalizing t₀ with
  | nil => exact ⟨t₀, rfl, h₀, by simp, by simp⟩
  | cons e plan ih =>
      obtain ⟨k, p, text⟩ := e
      obtain ⟨hlocated, hk⟩ := hplan _ List.mem_cons_self
      rw [List.map_cons, List.nodup_cons] at hdistinct
      have hput : Rewritten t ls (t₀.put k (.file (Utf8.encode text))) :=
        h₀.put hlocated.writable hk
      obtain ⟨t', hwrite, hrewritten, htexts, hothers⟩ :=
        ih hput (fun e he => hplan e (List.mem_cons_of_mem _ he)) hdistinct.2
      refine ⟨t', ?_, hrewritten, ?_, ?_⟩
      · rw [List.map_cons, writeAll, (h₀.located hlocated).write text]
        exact hwrite
      · intro e he
        rcases List.mem_cons.mp he with rfl | he
        · rw [hothers k hdistinct.1, get?_put_self _ _ _ hlocated.writable.ne_nil]
        · exact htexts e he
      · intro l hl
        rw [List.map_cons, List.mem_cons, not_or] at hl
        rw [hothers l hl.2, get?_put_of_ne _ _ hl.1]

theorem writeAll_of_read {t : FileTree} {outputs : List (Path × Text)}
    (h : ∀ o ∈ outputs, t.readText o.1 = .ok o.2) : t.writeAll outputs = (.ok (), t) := by
  induction outputs with
  | nil => rfl
  | cons o outputs ih =>
      obtain ⟨p, text⟩ := o
      obtain ⟨l, hl, hget⟩ := Located.of_read (readText_eq_ok_iff.mp (h _ List.mem_cons_self))
      rw [writeAll, hl.write text, put_eq_self hget hl.writable.ne_nil]
      exact ih fun o ho => h o (List.mem_cons_of_mem _ ho)

end SuiteMake.FileTree

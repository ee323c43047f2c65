import Mathlib.Data.List.Basic
import SuiteMake.EntryPoint.Index
import SuiteMake.Proofs.Except

/-!
# The lines of entry points

Every entry point of a source file is qualified by the case prefix and word characters. Its
call and its declaration add no slash to those of the qualifier.
-/

namespace SuiteMake

namespace Extract

private theorem exists_of_mem_findFrom {α : Type} {read? : Text → Option (α × Text)} {limit : Nat}
    {lines : List Text} {x : α} (h : x ∈ findFrom read? limit lines) :
    ∃ line rest, read? line = some (x, rest) := by
  induction lines generalizing limit with
  | nil => simp [findFrom] at h
  | cons line lines ih =>
      rw [findFrom] at h
      split at h
      · split at h
        · rename_i found rest hread
          rcases List.mem_cons.mp h with rfl | h
          · exact ⟨line, rest, hread⟩
          · exact ih h
        · exact ih h
      · exact ih h

theorem exists_of_mem_findAll {α : Type} {read? : Text → Option (α × Text)} {t : Text} {x : α}
    (h : x ∈ findAll read? t) : ∃ line rest, read? line = some (x, rest) :=
  exists_of_mem_findFrom h

/-- A name that the case prefix opens and word characters complete. -/
def Qualifies (casePrefix qualifier : Text) : Prop :=
  ∃ word, qualifier = casePrefix ++ word ∧ ∀ c ∈ word, Text.isWord c = true

private theorem isWord_of_mem_takeWhile {t : Text} {c : Char}
    (h : c ∈ t.takeWhile Text.isWord) : Text.isWord c = true :=
  List.all_eq_true.mp List.all_takeWhile c h

theorem qualifies_of_caseFunction? {casePrefix t rest : Text} {s : Signature}
    (h : caseFunction? casePrefix t = some (s, rest)) : Qualifies casePrefix s.qualifier := by
  simp only [caseFunction?, Option.bind_eq_bind, Option.bind_eq_some_iff, Option.pure_def,
    Option.some.injEq, Prod.mk.injEq] at h
  obtain ⟨t', -, s', hfind, -, -, rfl, -⟩ := h
  obtain ⟨k, -, hk⟩ := List.exists_of_findSome?_eq_some hfind
  obtain ⟨w, hw, rfl⟩ := Option.map_eq_some_iff.mp hk
  refine ⟨w, rfl, ?_⟩
  intro c hc
  obtain ⟨u, hu, rfl⟩ := Option.map_eq_some_iff.mp hw
  have hword := congrArg List.reverse (List.append_eq_of_isPrefixOf?_eq_some hu).symm
  rw [List.reverse_reverse] at hword
  apply isWord_of_mem_takeWhile (t := t')
  rw [hword]
  simp [List.mem_reverse.mp hc]

theorem qualifies_of_caseName? {casePrefix t name rest : Text}
    (h : caseName? casePrefix t = some (name, rest)) : Qualifies casePrefix name := by
  simp only [caseName?, Option.bind_eq_bind, Option.bind_eq_some_iff, Option.pure_def,
    Option.some.injEq, Prod.mk.injEq] at h
  obtain ⟨t', -, rfl, -⟩ := h
  exact ⟨_, rfl, fun c hc => isWord_of_mem_takeWhile hc⟩

theorem qualifies_of_mem_signatures {casePrefix : Text} {l : Language} {t : Text} {s : Signature}
    (h : s ∈ signatures casePrefix l t) : Qualifies casePrefix s.qualifier := by
  cases l with
  | c =>
      obtain ⟨line, rest, hread⟩ := exists_of_mem_findAll (List.mem_eraseDups.mp h)
      obtain ⟨u, -, hu⟩ := List.exists_of_findSome?_eq_some hread
      exact qualifies_of_caseFunction? hu
  | cpp =>
      rw [signatures.eq_def] at h
      dsimp only at h
      split at h
      · rename_i qualifier rest hname
        obtain ⟨k, -, rfl⟩ := List.mem_map.mp (List.mem_eraseDups.mp h)
        obtain ⟨line, -, hline⟩ := List.exists_of_findSome?_eq_some hname
        obtain ⟨u, -, hu⟩ := List.exists_of_findSome?_eq_some hline
        exact qualifies_of_caseName? hu
      · simp at h

/-- A character that is no part of a word is in a qualifier only if the common start holds it. -/
theorem Qualifies.lacks {casePrefix qualifier : Text} (h : Qualifies casePrefix qualifier)
    {c : Char} (hstart : c ∉ casePrefix) (hc : Text.isWord c = false) : c ∉ qualifier := by
  obtain ⟨word, rfl, hword⟩ := h
  intro hmem
  rcases List.mem_append.mp hmem with hmem | hmem
  · exact hstart hmem
  · rw [hword c hmem] at hc
    cases hc

end Extract

namespace EntryPoint

theorem notMem_call {e : EntryPoint} {c : Char} (h : c ∉ e.qualifier) (hkind : c ∉ e.kind.text)
    (hc : c ∉ ['_', ':', '(', ')', ';']) : c ∉ e.call := by
  simp only [List.mem_cons, not_or] at hc
  rw [call]
  cases e.language <;> simp [h, hkind, hc]

theorem slash_notMem_call {e : EntryPoint} (h : '/' ∉ e.qualifier) : '/' ∉ e.call :=
  notMem_call h (by cases e.kind <;> decide) (by decide)

theorem slash_notMem_declaration {e : EntryPoint} (h : '/' ∉ e.qualifier) :
    '/' ∉ e.declaration := by
  have hkind : '/' ∉ e.kind.text := by cases e.kind <;> decide
  rw [declaration]
  cases e.language <;> simp [h, hkind]

end EntryPoint

namespace EntryIndex

theorem ofFile_eq_ok_iff {c : Config} {t : FileTree} {f : SourceFile} {es : List EntryPoint} :
    ofFile c t f = .ok es ↔ ∃ content, t.readBytes (f.pathFrom c.baseDir) = .ok content ∧
      es = ofContent c f content := by
  rw [ofFile]
  cases t.readBytes (f.pathFrom c.baseDir) <;> simp [eq_comm]

theorem foldl_push (es : List EntryPoint) (i : EntryIndex) :
    es.foldl push i = ⟨i.all ++ es, i.portable ++ es.filter (·.portable)⟩ := by
  induction es generalizing i with
  | nil => simp
  | cons e es ih =>
      rw [List.foldl_cons, ih, push, List.filter_cons]
      cases e.portable <;> simp

theorem addFile_eq_ok_iff {c : Config} {t : FileTree} {f : SourceFile} {i j : EntryIndex} :
    addFile c t i f = .ok j ↔ ∃ es, ofFile c t f = .ok es ∧
      j = ⟨i.all ++ es, i.portable ++ es.filter (·.portable)⟩ := by
  rw [addFile, bind_eq_ok_iff]
  simp only [foldl_push, pure, Except.pure, Except.ok.injEq, eq_comm]

/-- A pass over source files adds what is found in them, one after the other, to both lists. -/
theorem foldlM_addFile_eq_ok_iff {c : Config} {t : FileTree} {files : List SourceFile}
    {i j : EntryIndex} : files.foldlM (addFile c t) i = .ok j ↔
      ∃ found, files.mapM (ofFile c t) = .ok found ∧
        j = ⟨i.all ++ found.flatten, i.portable ++ found.flatten.filter (·.portable)⟩ := by
  induction files generalizing i with
  | nil => simp [pure, Except.pure, eq_comm]
  | cons f files ih =>
      simp only [List.foldlM_cons, bind_eq_ok_iff, addFile_eq_ok_iff, mapM_cons_eq_ok_iff, ih]
      constructor
      · rintro ⟨_, ⟨es, hes, rfl⟩, found, hfound, rfl⟩
        exact ⟨es :: found, ⟨es, hes, found, hfound, rfl⟩, by simp⟩
      · rintro ⟨_, ⟨es, hes, found, hfound, rfl⟩, rfl⟩
        exact ⟨_, ⟨es, hes, rfl⟩, found, hfound, by simp⟩

theorem ofFiles_eq_ok_iff {c : Config} {t : FileTree} {files : List SourceFile} {i : EntryIndex} :
    ofFiles c t files = .ok i ↔ ∃ found, files.mapM (ofFile c t) = .ok found ∧
      i = ⟨found.flatten, found.flatten.filter (·.portable)⟩ :=
  foldlM_addFile_eq_ok_iff

/-- The list of portable entry points, filled in the same pass, is a part of the list of all. -/
theorem portable_eq_filter {c : Config} {t : FileTree} {files : List SourceFile} {i : EntryIndex}
    (h : ofFiles c t files = .ok i) : i.portable = i.all.filter (·.portable) := by
  obtain ⟨found, -, rfl⟩ := ofFiles_eq_ok_iff.mp h
  rfl

theorem ofFiles_cons_eq_ok_iff {c : Config} {t : FileTree} {f : SourceFile}
    {files : List SourceFile} {i : EntryIndex} :
    ofFiles c t (f :: files) = .ok i ↔
      ∃ content, t.readBytes (f.pathFrom c.baseDir) = .ok content ∧
        ∃ rest, ofFiles c t files = .ok rest ∧ i = ⟨ofContent c f content ++ rest.all,
          (ofContent c f content).filter (·.portable) ++ rest.portable⟩ := by
  simp only [ofFiles_eq_ok_iff, mapM_cons_eq_ok_iff]
  constructor
  · rintro ⟨_, ⟨es, hes, rest, hrest, rfl⟩, rfl⟩
    obtain ⟨content, hread, rfl⟩ := ofFile_eq_ok_iff.mp hes
    exact ⟨content, hread, _, ⟨rest, hrest, rfl⟩, by simp⟩
  · rintro ⟨content, hread, _, ⟨rest, hrest, rfl⟩, rfl⟩
    exact ⟨_, ⟨_, ofFile_eq_ok_iff.mpr ⟨content, hread, rfl⟩, rest, hrest, rfl⟩, by simp⟩

theorem exists_ofFiles_eq_ok_iff {c : Config} {t : FileTree} {files : List SourceFile} :
    (∃ i, ofFiles c t files = .ok i) ↔
      ∀ f ∈ files, ∃ content, t.readBytes (f.pathFrom c.baseDir) = .ok content := by
  have hfound : (∃ i, ofFiles c t files = .ok i) ↔ ∃ found, files.mapM (ofFile c t) = .ok found := by
    simp only [ofFiles_eq_ok_iff]
    constructor
    · rintro ⟨_, found, hfound, -⟩
      exact ⟨found, hfound⟩
    · rintro ⟨found, hfound⟩
      exact ⟨_, found, hfound, rfl⟩
  rw [hfound, exists_mapM_eq_ok_iff]
  simp only [ofFile_eq_ok_iff]
  constructor
  · intro h f hf
    obtain ⟨_, content, hread, -⟩ := h f hf
    exact ⟨content, hread⟩
  · intro h f hf
    obtain ⟨content, hread⟩ := h f hf
    exact ⟨_, content, hread, rfl⟩

theorem of_mem_ofContent {c : Config} {f : SourceFile} {content : Bytes} {e : EntryPoint}
    (he : e ∈ ofContent c f content) : e.source = f.path ∧ e.portable = c.isPortable f ∧
      Extract.Qualifies c.casePrefix e.qualifier := by
  obtain ⟨s, hs, rfl⟩ := List.mem_map.mp he
  exact ⟨rfl, rfl, Extract.qualifies_of_mem_signatures hs⟩

theorem exists_of_mem_ofFiles {c : Config} {t : FileTree} {files : List SourceFile}
    {i : EntryIndex} (h : ofFiles c t files = .ok i) {e : EntryPoint} (he : e ∈ i.all) :
    ∃ f ∈ files, e.source = f.path ∧ e.portable = c.isPortable f ∧
      Extract.Qualifies c.casePrefix e.qualifier := by
  obtain ⟨found, hfound, rfl⟩ := ofFiles_eq_ok_iff.mp h
  obtain ⟨es, hes, hmem⟩ := List.mem_flatten.mp he
  obtain ⟨f, hf, hfile⟩ := exists_of_mem_mapM hfound hes
  obtain ⟨content, -, rfl⟩ := ofFile_eq_ok_iff.mp hfile
  exact ⟨f, hf, of_mem_ofContent hmem⟩

theorem portable_of_source {c : Config} {t : FileTree} {files : List SourceFile} {i : EntryIndex}
    (h : ofFiles c t files = .ok i) {e : EntryPoint} (he : e ∈ i.all) {f : SourceFile}
    (hf : e.source = f.path) : e.portable = c.isPortable f := by
  obtain ⟨g, -, hsource, hportable, -⟩ := exists_of_mem_ofFiles h he
  have hname : f.name = g.name := by rw [SourceFile.name, SourceFile.name, ← hf, hsource]
  rw [hportable, Config.isPortable, Config.isPortable, hname]

theorem portable_ofContent (c : Config) (f : SourceFile) (content : Bytes) :
    (ofContent c f content).filter (·.portable) =
      if c.isPortable f = true then ofContent c f content else [] := by
  split
  · rename_i hportable
    exact List.filter_eq_self.mpr fun e he => (of_mem_ofContent he).2.1.trans hportable
  · rename_i hportable
    exact List.filter_eq_nil_iff.mpr fun e he => by rwa [(of_mem_ofContent he).2.1]

theorem portable_congr {c : Config} {t t' : FileTree} {files : List SourceFile} {i i' : EntryIndex}
    (hsame : ∀ f ∈ files, c.isPortable f = true →
      t'.readBytes (f.pathFrom c.baseDir) = t.readBytes (f.pathFrom c.baseDir))
    (h : ofFiles c t files = .ok i) (h' : ofFiles c t' files = .ok i') :
    i'.portable = i.portable := by
  induction files generalizing i i' with
  | nil =>
      cases h
      cases h'
      rfl
  | cons f files ih =>
      obtain ⟨content, hread, rest, hrest, rfl⟩ := ofFiles_cons_eq_ok_iff.mp h
      obtain ⟨content', hread', rest', hrest', rfl⟩ := ofFiles_cons_eq_ok_iff.mp h'
      have htail := ih (fun f hf => hsame f (List.mem_cons_of_mem _ hf)) hrest hrest'
      have hhead : (ofContent c f content').filter (·.portable) =
          (ofContent c f content).filter (·.portable) := by
        rw [portable_ofContent, portable_ofContent]
        split
        · rename_i hportable
          have heq := (hread'.symm.trans (hsame f List.mem_cons_self hportable)).trans hread
          rw [Except.ok.inj heq]
        · rfl
      rw [hhead, htail]

/-- Where no two files have one path, the entry points that name a file as their source are what was
found in it: taken file after file, they are all entry points again. -/
theorem flatMap_filter_source {c : Config} {t : FileTree} {files : List SourceFile}
    {i : EntryIndex} (hpaths : (files.map SourceFile.path).Nodup)
    (h : ofFiles c t files = .ok i) :
    files.flatMap (fun f => i.all.filter (·.source = f.path)) = i.all := by
  induction files generalizing i with
  | nil =>
      cases h
      rfl
  | cons f files ih =>
      obtain ⟨content, -, rest, hrest, rfl⟩ := ofFiles_cons_eq_ok_iff.mp h
      rw [List.map_cons, List.nodup_cons] at hpaths
      have hpath {g : SourceFile} (hg : g ∈ files) : f.path ≠ g.path := by
        intro heq
        exact hpaths.1 (heq ▸ List.mem_map_of_mem hg)
      have hown : ∀ e ∈ ofContent c f content, e.source = f.path :=
        fun e he => (of_mem_ofContent he).1
      have hothers : ∀ e ∈ rest.all, e.source ≠ f.path := by
        intro e he heq
        obtain ⟨g, hg, hsource, -⟩ := exists_of_mem_ofFiles hrest he
        exact hpath hg (heq.symm.trans hsource)
      have hhead : (ofContent c f content ++ rest.all).filter (·.source = f.path) =
          ofContent c f content := by
        rw [List.filter_append, List.filter_eq_self.mpr (by simpa using hown),
          List.filter_eq_nil_iff.mpr (by simpa using hothers), List.append_nil]
      have htail : ∀ g ∈ files, (ofContent c f content ++ rest.all).filter (·.source = g.path) =
          rest.all.filter (·.source = g.path) := by
        intro g hg
        have hnone : ∀ e ∈ ofContent c f content, ¬ decide (e.source = g.path) = true := by
          intro e he
          rw [hown e he, decide_eq_true_eq]
          exact hpath hg
        rw [List.filter_append, List.filter_eq_nil_iff.mpr hnone, List.nil_append]
      rw [List.flatMap_cons, hhead, List.flatMap_def, List.map_congr_left htail, ← List.flatMap_def,
        ih hpaths.2 hrest]

end EntryIndex
end SuiteMake

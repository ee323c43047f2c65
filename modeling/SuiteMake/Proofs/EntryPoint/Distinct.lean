import SuiteMake.Proofs.Draft.Generate
import SuiteMake.Proofs.EntryPoint
import SuiteMake.Proofs.EntryPoint.Namespace

/-!
# Lines that tell entry points apart

A qualifier is any text, so what tells two lines apart is how they end: no ending of a call closes
another, and likewise for declarations. A source file has each of its entry points once, hence no
line of it comes twice.
-/

namespace SuiteMake

namespace EntryPoint

/-- What an entry point is called by: its language, its qualifier and its kind. -/
def function (e : EntryPoint) : Language × Text × Kind := (e.language, e.qualifier, e.kind)

theorem function_eq_iff {e e' : EntryPoint} : e.function = e'.function ↔
    e.language = e'.language ∧ e.qualifier = e'.qualifier ∧ e.kind = e'.kind := by
  rw [function, function, Prod.mk.injEq, Prod.mk.injEq]

/-- Endings by which the language and the kind are told, whatever stands before them. -/
def SuffixFree (ending : Language → Kind → Text) : Prop :=
  ∀ l k l' k', ending l k <:+ ending l' k' → l = l' ∧ k = k'

/-- Between an opening and an ending that tell the language and the kind, a qualifier is told. -/
theorem SuffixFree.framed_inj {ending : Language → Kind → Text} (hending : SuffixFree ending)
    (opening : Language → Text) {l l' : Language} {k k' : Kind} {q q' : Text}
    (h : opening l ++ q ++ ending l k = opening l' ++ q' ++ ending l' k') :
    l = l' ∧ q = q' ∧ k = k' := by
  have hclose : ending l k <:+ opening l' ++ q' ++ ending l' k' := h ▸ List.suffix_append _ _
  have hclose' : ending l' k' <:+ opening l' ++ q' ++ ending l' k' := List.suffix_append _ _
  have hsame : l = l' ∧ k = k' := by
    rcases List.suffix_or_suffix_of_suffix hclose hclose' with hs | hs
    · exact hending l k l' k' hs
    · have hback := hending l' k' l k hs
      exact ⟨hback.1.symm, hback.2.symm⟩
  obtain ⟨rfl, rfl⟩ := hsame
  exact ⟨rfl, List.append_cancel_left (List.append_cancel_right h), rfl⟩

def callEnding : Language → Kind → Text
  | .c, k => '_' :: k.text ++ "();".toList
  | .cpp, k => "::".toList ++ k.text ++ "();".toList

def declarationOpening : Language → Text
  | .c => "void ".toList
  | .cpp => "namespace ".toList

def declarationEnding : Language → Kind → Text
  | .c, k => callEnding .c k
  | .cpp, k => " \x7b void ".toList ++ k.text ++ "(); \x7d".toList

theorem call_eq (e : EntryPoint) : e.call = e.qualifier ++ callEnding e.language e.kind := by
  unfold call callEnding
  cases e.language <;> simp only [List.append_assoc]

theorem declaration_eq (e : EntryPoint) : e.declaration =
    declarationOpening e.language ++ e.qualifier ++ declarationEnding e.language e.kind := by
  unfold declaration declarationOpening declarationEnding callEnding
  cases e.language <;> simp only [List.append_assoc]

theorem callEnding_suffixFree : SuffixFree callEnding := by
  intro l k l' k'
  cases l <;> cases k <;> cases l' <;> cases k' <;> decide

theorem declarationEnding_suffixFree : SuffixFree declarationEnding := by
  intro l k l' k'
  cases l <;> cases k <;> cases l' <;> cases k' <;> decide

theorem call_eq_iff {e e' : EntryPoint} : e.call = e'.call ↔ e.function = e'.function := by
  rw [call_eq, call_eq, function_eq_iff]
  constructor
  · intro h
    exact callEnding_suffixFree.framed_inj (fun _ => []) h
  · intro h
    rw [h.1, h.2.1, h.2.2]

theorem declaration_eq_iff {e e' : EntryPoint} :
    e.declaration = e'.declaration ↔ e.function = e'.function := by
  rw [declaration_eq, declaration_eq, function_eq_iff]
  constructor
  · intro h
    exact declarationEnding_suffixFree.framed_inj declarationOpening h
  · intro h
    rw [h.1, h.2.1, h.2.2]

section Blanks

variable {casePrefix : Text}

theorem count_space_of_qualifies {qualifier : Text} (h : Extract.Qualifies casePrefix qualifier) :
    qualifier.count ' ' = casePrefix.count ' ' := by
  obtain ⟨word, rfl, hword⟩ := h
  have hnone : ' ' ∉ word := by
    intro hmem
    have hspace : Text.isWord ' ' = false := by decide
    rw [hword ' ' hmem] at hspace
    cases hspace
  rw [List.count_append, List.count_eq_zero.mpr hnone, Nat.add_zero]

/-- For one case prefix, no call reads like a declaration: it has fewer blanks. -/
theorem call_ne_declaration {e e' : EntryPoint} (h : Extract.Qualifies casePrefix e.qualifier)
    (h' : Extract.Qualifies casePrefix e'.qualifier) : e.call ≠ e'.declaration := by
  intro heq
  have hcount := congrArg (List.count ' ') heq
  have hcall : (callEnding e.language e.kind).count ' ' = 0 := by
    cases e.language <;> cases e.kind <;> decide
  have hdeclaration : 0 < (declarationOpening e'.language).count ' ' := by
    cases e'.language <;> decide
  rw [call_eq, declaration_eq, List.count_append, List.count_append, List.count_append,
    count_space_of_qualifies h, count_space_of_qualifies h'] at hcount
  omega

end Blanks

/-- The lines of some entry points: their calls and their declarations. -/
def lines (es : List EntryPoint) : List Text := es.map call ++ es.map declaration

theorem nodup_lines {casePrefix : Text} {es : List EntryPoint} (hes : (es.map function).Nodup)
    (hqualifies : ∀ e ∈ es, Extract.Qualifies casePrefix e.qualifier) : (lines es).Nodup := by
  have hdistinct : es.Pairwise fun e e' => e.function ≠ e'.function := List.pairwise_map.mp hes
  rw [lines, List.nodup_append]
  refine ⟨?_, ?_, ?_⟩
  · apply List.pairwise_map.mpr
    exact hdistinct.imp fun hne heq => hne (call_eq_iff.mp heq)
  · apply List.pairwise_map.mpr
    exact hdistinct.imp fun hne heq => hne (declaration_eq_iff.mp heq)
  · intro line hcall line' hdeclaration
    obtain ⟨e, he, rfl⟩ := List.mem_map.mp hcall
    obtain ⟨e', he', rfl⟩ := List.mem_map.mp hdeclaration
    exact call_ne_declaration (hqualifies e he) (hqualifies e' he')

end EntryPoint

theorem Extract.nodup_signatures (casePrefix : Text) (l : Language) (t : Text) :
    (signatures casePrefix l t).Nodup := by
  cases l with
  | c => exact nodup_eraseDups _
  | cpp =>
      rw [signatures.eq_def]
      dsimp only
      split
      · exact nodup_eraseDups _
      · exact List.nodup_nil

namespace EntryIndex

theorem nodup_lines_ofContent (c : Config) (f : SourceFile) (content : Bytes) :
    (EntryPoint.lines (ofContent c f content)).Nodup := by
  have hfunctions : ((ofContent c f content).map EntryPoint.function).Nodup := by
    rw [ofContent, List.map_map]
    apply List.pairwise_map.mpr
    apply (Extract.nodup_signatures c.casePrefix f.language (Utf8.decodeLossy content)).imp
    intro s s' hne heq
    apply hne
    have hparts := EntryPoint.function_eq_iff.mp heq
    cases s
    cases s'
    simpa using hparts.2
  exact EntryPoint.nodup_lines hfunctions fun e he => (of_mem_ofContent he).2.2

theorem exists_found_of_ofFiles {c : Config} {t : FileTree} {files : List SourceFile}
    {i : EntryIndex} (h : ofFiles c t files = .ok i) :
    ∃ found, List.Forall₂ (fun f es => ofFile c t f = .ok es) files found ∧
      i.all = found.flatten := by
  induction files generalizing i with
  | nil =>
      cases h
      exact ⟨[], List.Forall₂.nil, rfl⟩
  | cons f files ih =>
      obtain ⟨content, hread, rest, hrest, rfl⟩ := ofFiles_cons_eq_ok_iff.mp h
      obtain ⟨found, hfound, hall⟩ := ih hrest
      have hf : ofFile c t f = .ok (ofContent c f content) :=
        ofFile_eq_ok_iff.mpr ⟨content, hread, rfl⟩
      exact ⟨_ :: found, List.Forall₂.cons hf hfound, by rw [List.flatten_cons, hall]⟩

end EntryIndex

/-- A call or a declaration tells the language, the qualifier and the kind of its entry point,
whatever text the qualifier is. So the lines of a source file with any content are all different,
and so are, file by file, the lines of an index. -/
theorem lines_tell_entry_points :
    (∀ e e' : EntryPoint, e.call = e'.call ↔ e.function = e'.function) ∧
    (∀ e e' : EntryPoint, e.declaration = e'.declaration ↔ e.function = e'.function) ∧
    (∀ (c : Config) (f : SourceFile) (content : Bytes),
      (EntryPoint.lines (EntryIndex.ofContent c f content)).Nodup) ∧
    ∀ (c : Config) (t : FileTree) (files : List SourceFile) (i : EntryIndex),
      EntryIndex.ofFiles c t files = .ok i →
      ∃ found, List.Forall₂
        (fun f es => EntryIndex.ofFile c t f = .ok es ∧ (EntryPoint.lines es).Nodup) files found ∧
        i.all = found.flatten := by
  refine ⟨fun _ _ => EntryPoint.call_eq_iff, fun _ _ => EntryPoint.declaration_eq_iff,
    EntryIndex.nodup_lines_ofContent, ?_⟩
  intro c t files i h
  obtain ⟨found, hfound, hall⟩ := EntryIndex.exists_found_of_ofFiles h
  refine ⟨found, hfound.imp ?_, hall⟩
  intro f es hes
  obtain ⟨content, -, rfl⟩ := EntryIndex.ofFile_eq_ok_iff.mp hes
  exact ⟨hes, EntryIndex.nodup_lines_ofContent c f content⟩

namespace Sample

def repeating : SourceFile := ⟨"CWE.c".toList, ".".toList, .c⟩

/-- A tree with a source file that defines one entry point twice, and between these another whose
qualifier ends like a kind. -/
def repeatingTree : FileTree where
  nodes := [(location ["CWE.c"],
    file "void CWE_good()\nvoid CWE_good_good()\nvoid CWE_good()\n".toList)]
  cwd := []

def repeatingEntries : List EntryPoint :=
  [⟨"CWE.c".toList, .c, "CWE".toList, .good, true⟩,
    ⟨"CWE.c".toList, .c, "CWE_good".toList, .good, true⟩]

end Sample

theorem lines_tell_entry_points_repeating :
    ∃ i, EntryIndex.ofFiles {} Sample.repeatingTree [Sample.repeating] = .ok i ∧
      i.all = Sample.repeatingEntries ∧
      ∃ found, List.Forall₂ (fun f es => EntryIndex.ofFile {} Sample.repeatingTree f = .ok es ∧
        (EntryPoint.lines es).Nodup) [Sample.repeating] found ∧ i.all = found.flatten := by
  have heval : (EntryIndex.ofFiles {} Sample.repeatingTree [Sample.repeating]).toOption.map
      EntryIndex.all = some Sample.repeatingEntries := by decide +kernel
  obtain ⟨i, hi, hall⟩ := Option.map_eq_some_iff.mp heval
  have hindex := toOption_eq_some_iff.mp hi
  exact ⟨i, hindex, hall, lines_tell_entry_points.2.2.2 {} Sample.repeatingTree _ i hindex⟩

end SuiteMake

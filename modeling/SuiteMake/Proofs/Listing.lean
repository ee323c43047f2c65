import Mathlib.Data.List.Forall2
import SuiteMake.Listing
import SuiteMake.Proofs.Discovery
import SuiteMake.Proofs.Draft.Generate
import SuiteMake.Proofs.EntryPoint
import SuiteMake.Proofs.Text.Split

/-!
# What a listing shows

A listing collects the entry points of a file by the path they name as their source. No two files
of a suite have one path, so every entry point is shown once, below the file that defines it, and
the entry points stand in the order of the index. What a document shows is told by the fields of
its objects, what a text shows by its rows and, where no path is broken over lines, by the lines
themselves.
-/

namespace SuiteMake

namespace Json

def field? (key : Text) : Json → Option Json
  | .object fields => fields.lookup key
  | _ => none

def listed? (key : Text) (o : Json) : Option (List Json) :=
  match o.field? key with
  | some (.list items) => some items
  | _ => none

end Json

namespace Listing

/-- What an object says about a file besides its entry points. -/
def fileFields (c : Config) (f : SourceFile) : List (Text × Json) := [
  ("directory".toList, .string f.directory),
  ("language".toList, .string f.language.display),
  ("path".toList, .string f.path),
  ("portable".toList, .bool (c.isPortable f))]

def entryFields (e : EntryPoint) : List (Text × Json) := [
  ("call".toList, .string e.call),
  ("called_from_main".toList, .bool e.portable),
  ("declaration".toList, .string e.declaration),
  ("kind".toList, .string e.kind.text)]

/-- A document with one object for each file, in the order of the files. The lists of entry points
of its objects, put together, are the entry points of the index, and an entry point is called
exactly if its object is portable. -/
structure InDocument (c : Config) (files : List SourceFile) (i : EntryIndex) (document : Json)
    (objects : List Json) (lists : List (List Json)) : Prop where
  units : document.listed? "units".toList = some objects
  one_each : List.Forall₂ (fun f o => ∀ p ∈ fileFields c f, o.field? p.1 = some p.2) files objects
  listed : objects.mapM (Json.listed? "entry_points".toList) = some lists
  entries : lists.flatten = i.all.map fun e => .object (entryFields e)
  called : List.Forall₂ (fun o es => ∀ e ∈ es,
    Json.field? "called_from_main".toList e = o.field? "portable".toList) objects lists

/-- A row of a text: a file that may be marked as a variant, or the call of an entry point that may
be marked as declared only. -/
inductive Row
  | file (f : SourceFile) (variant : Bool)
  | entry (call : Text) (declaredOnly : Bool)

namespace Row

def fileLine (f : SourceFile) (variant : Bool) : Text :=
  f.path ++ " (".toList ++ f.language.display ++
    (if variant then ", variant".toList else []) ++ [')']

def entryLine (call : Text) (declaredOnly : Bool) : Text :=
  "    ".toList ++ call ++ (if declaredOnly then "  (declared only)".toList else [])

def line : Row → Text
  | .file f variant => fileLine f variant
  | .entry call declaredOnly => entryLine call declaredOnly

def file? : Row → Option (SourceFile × Bool)
  | .file f variant => some (f, variant)
  | .entry _ _ => none

def entry? : Row → Option (Text × Bool)
  | .file _ _ => none
  | .entry call declaredOnly => some (call, declaredOnly)

/-- Whether every entry is marked just as the file it stands below, given the mark of the file
above the first row. -/
def Marked : Option Bool → List Row → Prop
  | _, [] => True
  | _, .file _ variant :: rows => Marked (some variant) rows
  | above, .entry _ declaredOnly :: rows => above = some declaredOnly ∧ Marked above rows

end Row

def totals (files entries called : Nat) : Text :=
  Text.ofNat files ++ " file(s), ".toList ++ Text.ofNat entries ++ " entry point(s), ".toList ++
    Text.ofNat called ++ " portable".toList

/-- The call on a line, and whether it is marked. Only the lines of entry points are indented and
end with a semicolon or with the mark. -/
def entryOn? (line : Text) : Option (Text × Bool) :=
  match "    ".toList.isPrefixOf? line with
  | none => none
  | some rest =>
    match "  (declared only)".toList.isSuffixOf? rest with
    | some call => some (call, true)
    | none => if rest.getLast? = some ';' then some (rest, false) else none

/-- A text of rows, then an empty line and the totals. Its files are those of the suite, marked if
they are variants; its entries are those of the index, each once and in their order, marked just as
the file above them. As long as no path and no call holds a line feed, the entries can be read off
the lines of the text. -/
structure InText (c : Config) (files : List SourceFile) (i : EntryIndex) (text : Text)
    (rows : List Row) : Prop where
  text_eq : text = (rows.map Row.line ++ [[], totals files.length i.all.length
    ((rows.filterMap Row.entry?).countP (!·.2))]).flatMap (· ++ ['\n'])
  one_each : rows.filterMap Row.file? = files.map fun f => (f, !c.isPortable f)
  entries : rows.filterMap Row.entry? = i.all.map fun e => (e.call, !e.portable)
  marked : Row.Marked none rows
  on_lines : (∀ f ∈ files, '\n' ∉ f.path) → '\n' ∉ c.casePrefix →
    (Text.lines text).filterMap entryOn? = i.all.map fun e => (e.call, !e.portable)

section Grouping

variable {c : Config} {t : FileTree} {files : List SourceFile} {i : EntryIndex}

theorem flatMap_entries (hfiles : Discovery.sourceFiles c t = .ok files)
    (hindex : EntryIndex.ofFiles c t files = .ok i) :
    (ofIndex c files i).files.flatMap ListedFile.entries = i.all := by
  rw [ofIndex, List.flatMap_map]
  exact EntryIndex.flatMap_filter_source (Discovery.nodup_paths hfiles) hindex

theorem portable_of_mem (hindex : EntryIndex.ofFiles c t files = .ok i) {l : ListedFile}
    (hl : l ∈ (ofIndex c files i).files) {e : EntryPoint} (he : e ∈ l.entries) :
    e ∈ i.all ∧ e.portable = l.portable := by
  obtain ⟨f, -, rfl⟩ := List.mem_map.mp hl
  have hmem := List.mem_filter.mp he
  exact ⟨hmem.1, EntryIndex.portable_of_source hindex hmem.1 (of_decide_eq_true hmem.2)⟩

end Grouping

section Document

theorem mapM_listed (ls : List ListedFile) :
    (ls.map ListedFile.toJson).mapM (Json.listed? "entry_points".toList) =
      some (ls.map fun l => l.entries.map ListedFile.entryJson) := by
  induction ls with
  | nil => rfl
  | cons l ls ih =>
      have hhead : Json.listed? "entry_points".toList l.toJson =
          some (l.entries.map ListedFile.entryJson) := rfl
      rw [List.map_cons, List.mapM_cons, hhead, ih]
      rfl

variable {c : Config} {t : FileTree} {files : List SourceFile} {i : EntryIndex}

theorem inDocument_toJson (hfiles : Discovery.sourceFiles c t = .ok files)
    (hindex : EntryIndex.ofFiles c t files = .ok i) :
    ∃ objects lists, InDocument c files i (ofIndex c files i).toJson objects lists := by
  refine ⟨_, _, rfl, ?_, mapM_listed _, ?_, ?_⟩
  · rw [ofIndex, List.map_map, List.forall₂_map_right_iff]
    apply List.forall₂_same.mpr
    intro f _
    simp only [fileFields, List.forall_mem_cons, List.not_mem_nil, false_implies, implies_true,
      and_true]
    exact ⟨rfl, rfl, rfl, rfl⟩
  · rw [← flatMap_entries hfiles hindex, List.map_flatMap, List.flatMap_def]
    rfl
  · rw [List.forall₂_map_left_iff, List.forall₂_map_right_iff]
    apply List.forall₂_same.mpr
    intro l hl o ho
    obtain ⟨e, he, rfl⟩ := List.mem_map.mp ho
    change some (Json.bool e.portable) = some (Json.bool l.portable)
    rw [(portable_of_mem hindex hl he).2]

end Document

section Rows

def rowsOf (l : ListedFile) : List Row :=
  .file l.file (!l.portable) :: l.entries.map fun e => .entry e.call (!e.portable)

theorem render_rowsOf (l : ListedFile) :
    l.render = ((rowsOf l).map Row.line).flatMap (· ++ ['\n']) := by
  have hentry (e : EntryPoint) :
      ListedFile.entryLine e = Row.entryLine e.call (!e.portable) ++ ['\n'] := by
    unfold ListedFile.entryLine Row.entryLine
    cases e.portable <;> rfl
  have hentries : l.entries.flatMap ListedFile.entryLine =
      ((l.entries.map fun e => Row.entry e.call (!e.portable)).map Row.line).flatMap
        (· ++ ['\n']) := by
    rw [List.map_map, List.flatMap_map]
    exact congrArg (fun f => l.entries.flatMap f) (funext hentry)
  rw [ListedFile.render, rowsOf, List.map_cons, List.flatMap_cons, ← hentries, Row.line,
    Row.fileLine]
  cases l.portable <;> simp

theorem render_rows (l : Listing) :
    l.render = ((l.files.flatMap rowsOf).map Row.line ++
      [[], totals l.files.length l.entryPoints l.portableEntryPoints]).flatMap (· ++ ['\n']) := by
  have hfiles : l.files.flatMap ListedFile.render =
      ((l.files.flatMap rowsOf).map Row.line).flatMap (· ++ ['\n']) := by
    rw [List.map_flatMap, List.flatMap_assoc]
    exact congrArg (fun f => l.files.flatMap f) (funext render_rowsOf)
  rw [render, List.flatMap_append, ← hfiles]
  simp [totals]

theorem filterMap_file? (ls : List ListedFile) :
    (ls.flatMap rowsOf).filterMap Row.file? = ls.map fun l => (l.file, !l.portable) := by
  induction ls with
  | nil => rfl
  | cons l ls ih =>
      have hentries : (l.entries.map fun e => Row.entry e.call (!e.portable)).filterMap Row.file? =
          [] := by
        simp [List.filterMap_eq_nil_iff, Row.file?]
      rw [List.flatMap_cons, rowsOf, List.filterMap_append, List.filterMap_cons, hentries, ih]
      rfl

theorem filterMap_entry? (ls : List ListedFile) :
    (ls.flatMap rowsOf).filterMap Row.entry? =
      (ls.flatMap ListedFile.entries).map fun e => (e.call, !e.portable) := by
  induction ls with
  | nil => rfl
  | cons l ls ih =>
      have hentries : (l.entries.map fun e => Row.entry e.call (!e.portable)).filterMap Row.entry? =
          l.entries.map fun e => (e.call, !e.portable) := by
        rw [List.filterMap_map, ← List.filterMap_eq_map]
        rfl
      rw [List.flatMap_cons, List.flatMap_cons, List.filterMap_append, List.map_append, ih, rowsOf,
        List.filterMap_cons, hentries]
      rfl

theorem marked_entries {es : List EntryPoint} {portable : Bool} {rows : List Row}
    (hes : ∀ e ∈ es, e.portable = portable) (hrows : Row.Marked (some !portable) rows) :
    Row.Marked (some !portable) ((es.map fun e => .entry e.call (!e.portable)) ++ rows) := by
  induction es with
  | nil => exact hrows
  | cons e es ih =>
      have he : e.portable = portable := hes e List.mem_cons_self
      exact ⟨by rw [he], ih fun d hd => hes d (List.mem_cons_of_mem e hd)⟩

theorem marked_rows {ls : List ListedFile}
    (h : ∀ l ∈ ls, ∀ e ∈ l.entries, e.portable = l.portable) (above : Option Bool) :
    Row.Marked above (ls.flatMap rowsOf) := by
  induction ls generalizing above with
  | nil => trivial
  | cons l ls ih =>
      have htail := ih fun k hk => h k (List.mem_cons_of_mem l hk)
      exact marked_entries (h l List.mem_cons_self) (htail (some !l.portable))

end Rows

section Lines

/-- A line that ends neither with a semicolon nor with the mark is not the line of an entry. -/
theorem entryOn?_eq_none {start : Text} {x y : Char} (hstop : y ≠ ';')
    (hmark : ¬ (x = 'y' ∧ y = ')')) : entryOn? (start ++ [x, y]) = none := by
  rw [entryOn?]
  split
  · rfl
  · rename_i rest hrest
    have hline := (List.append_eq_of_isPrefixOf?_eq_some hrest).symm
    split
    · rename_i call hcall
      have hend : start ++ [x, y] =
          ("    ".toList ++ call ++ "  (declared onl".toList) ++ ['y', ')'] := by
        rw [hline, ← List.append_eq_of_isSuffixOf?_eq_some hcall]
        simp
      have hlast := (List.append_inj' hend rfl).2
      simp only [List.cons.injEq, and_true] at hlast
      exact absurd hlast hmark
    · apply if_neg
      intro hlast
      have hend := congrArg List.getLast? hline
      rw [List.getLast?_append, List.getLast?_append, hlast, Option.some_or] at hend
      exact hstop (Option.some.inj hend)

theorem entryOn?_indented (rest : Text) :
    entryOn? ("    ".toList ++ rest) =
      match "  (declared only)".toList.isSuffixOf? rest with
      | some call => some (call, true)
      | none => if rest.getLast? = some ';' then some (rest, false) else none := by
  rw [entryOn?, List.isPrefixOf?_eq_some_iff_append_eq.mpr rfl]

theorem getLast?_call (e : EntryPoint) : e.call.getLast? = some ';' := by
  rw [EntryPoint.call]
  cases e.language <;> rw [List.getLast?_append] <;> rfl

theorem entryOn?_entry (e : EntryPoint) (declaredOnly : Bool) :
    entryOn? (Row.entryLine e.call declaredOnly) = some (e.call, declaredOnly) := by
  unfold Row.entryLine
  rw [List.append_assoc, entryOn?_indented]
  cases declaredOnly with
  | true => rw [if_pos rfl, List.isSuffixOf?_eq_some_iff_append_eq.mpr rfl]
  | false =>
      rw [if_neg Bool.false_ne_true, List.append_nil]
      have hlast := getLast?_call e
      cases hcall : "  (declared only)".toList.isSuffixOf? e.call with
      | none => exact if_pos hlast
      | some call =>
          rw [← List.append_eq_of_isSuffixOf?_eq_some hcall, List.getLast?_append] at hlast
          cases hlast

theorem entryOn?_file (f : SourceFile) (variant : Bool) :
    entryOn? (Row.fileLine f variant) = none := by
  have hline : ∃ start x, Row.fileLine f variant = start ++ [x, ')'] ∧ x ≠ 'y' := by
    rw [Row.fileLine]
    cases variant with
    | true =>
        exact ⟨f.path ++ " (".toList ++ f.language.display ++ ", varian".toList, 't', by simp,
          by decide⟩
    | false =>
        cases f.language with
        | c => exact ⟨f.path ++ " (".toList, 'C', by simp [Language.display], by decide⟩
        | cpp => exact ⟨f.path ++ " (C+".toList, '+', by simp [Language.display], by decide⟩
  obtain ⟨start, x, hline, hx⟩ := hline
  rw [hline]
  exact entryOn?_eq_none (by decide) fun h => hx h.1

theorem entryOn?_totals (files entries called : Nat) :
    entryOn? (totals files entries called) = none := by
  have hend : " portable".toList = " portab".toList ++ ['l', 'e'] := rfl
  rw [totals, hend, ← List.append_assoc]
  exact entryOn?_eq_none (by decide) (by decide)

theorem newline_notMem_totals (files entries called : Nat) :
    '\n' ∉ totals files entries called := by
  have hdigits (n : Nat) : '\n' ∉ Text.ofNat n := by
    intro hmem
    have hdigit := Nat.isDigit_of_mem_toDigits (by decide) (by decide) hmem
    revert hdigit
    decide
  simp [totals, hdigits]

theorem newline_notMem_row {ls : List ListedFile} (hpath : ∀ l ∈ ls, '\n' ∉ l.file.path)
    (hcall : ∀ l ∈ ls, ∀ e ∈ l.entries, '\n' ∉ e.call) :
    ∀ line ∈ (ls.flatMap rowsOf).map Row.line, '\n' ∉ line := by
  intro line hline
  obtain ⟨row, hrow, rfl⟩ := List.mem_map.mp hline
  obtain ⟨l, hl, hrow⟩ := List.mem_flatMap.mp hrow
  rcases List.mem_cons.mp hrow with rfl | hrow
  · have hlanguage : '\n' ∉ l.file.language.display := by cases l.file.language <;> decide
    rw [Row.line, Row.fileLine]
    cases l.portable <;> simp [hpath l hl, hlanguage]
  · obtain ⟨e, he, rfl⟩ := List.mem_map.mp hrow
    rw [Row.line]
    unfold Row.entryLine
    cases e.portable <;> simp [hcall l hl e he]

theorem filterMap_entryOn? (ls : List ListedFile) :
    ((ls.flatMap rowsOf).map Row.line).filterMap entryOn? =
      (ls.flatMap rowsOf).filterMap Row.entry? := by
  rw [List.filterMap_map]
  apply List.filterMap_congr
  intro row hrow
  obtain ⟨l, -, hrow⟩ := List.mem_flatMap.mp hrow
  rcases List.mem_cons.mp hrow with rfl | hrow
  · exact entryOn?_file l.file _
  · obtain ⟨e, -, rfl⟩ := List.mem_map.mp hrow
    exact entryOn?_entry e _

theorem filterMap_lines {ls : List ListedFile} (hpath : ∀ l ∈ ls, '\n' ∉ l.file.path)
    (hcall : ∀ l ∈ ls, ∀ e ∈ l.entries, '\n' ∉ e.call) (files entries called : Nat) :
    (Text.lines (((ls.flatMap rowsOf).map Row.line ++ [[], totals files entries called]).flatMap
      (· ++ ['\n']))).filterMap entryOn? = (ls.flatMap rowsOf).filterMap Row.entry? := by
  have htotals := newline_notMem_totals files entries called
  have hlines : ∀ line ∈ (ls.flatMap rowsOf).map Row.line ++ [[], totals files entries called],
      '\n' ∉ line := by
    rw [List.forall_mem_append, List.forall_mem_cons, List.forall_mem_singleton]
    exact ⟨newline_notMem_row hpath hcall, List.not_mem_nil, htotals⟩
  have hread := Text.lines_flatMap hlines []
  rw [List.append_nil] at hread
  have hempty : entryOn? [] = none := rfl
  have hend : Text.lines [] = [[]] := rfl
  rw [hread, hend, List.filterMap_append, List.filterMap_append, filterMap_entryOn?]
  simp [hempty, entryOn?_totals]

variable {c : Config} {t : FileTree} {files : List SourceFile} {i : EntryIndex}

theorem newline_notMem_call (hindex : EntryIndex.ofFiles c t files = .ok i)
    (hc : '\n' ∉ c.casePrefix) {e : EntryPoint} (he : e ∈ i.all) : '\n' ∉ e.call := by
  obtain ⟨f, -, -, -, hqualifies⟩ := EntryIndex.exists_of_mem_ofFiles hindex he
  refine EntryPoint.notMem_call (hqualifies.lacks hc (by decide)) ?_ (by decide)
  cases e.kind <;> decide

theorem inText_render (hfiles : Discovery.sourceFiles c t = .ok files)
    (hindex : EntryIndex.ofFiles c t files = .ok i) :
    ∃ rows, InText c files i (ofIndex c files i).render rows := by
  have hentries := filterMap_entry? (ofIndex c files i).files
  rw [flatMap_entries hfiles hindex] at hentries
  have hfile : ∀ l ∈ (ofIndex c files i).files, l.file ∈ files := by
    intro l hl
    obtain ⟨f, hf, rfl⟩ := List.mem_map.mp hl
    exact hf
  have hlength : (ofIndex c files i).files.length = files.length := List.length_map _
  have hcalled : (i.all.map fun e => (e.call, !e.portable)).countP (!·.2) = i.portable.length := by
    rw [List.countP_map, EntryIndex.portable_eq_filter hindex, ← List.countP_eq_length_filter]
    exact List.countP_congr fun e _ => by simp
  have htext := render_rows (ofIndex c files i)
  rw [hlength] at htext
  refine ⟨(ofIndex c files i).files.flatMap rowsOf, ?_, ?_, hentries, ?_, ?_⟩
  · rw [htext, hentries, hcalled]
    rfl
  · rw [filterMap_file?, ofIndex, List.map_map]
    rfl
  · exact marked_rows (fun l hl e he => (portable_of_mem hindex hl he).2) none
  · intro hpath hc
    have hcall : ∀ l ∈ (ofIndex c files i).files, ∀ e ∈ l.entries, '\n' ∉ e.call :=
      fun l hl e he => newline_notMem_call hindex hc (portable_of_mem hindex hl he).1
    rw [htext, filterMap_lines (fun l hl => hpath _ (hfile l hl)) hcall, hentries]

/-- A listing shows every entry point exactly once, in the order of the index and below the file
that defines it, both as a document and as a text. -/
theorem shows_each_entry_once (hfiles : Discovery.sourceFiles c t = .ok files)
    (hindex : EntryIndex.ofFiles c t files = .ok i) :
    (∃ objects lists, InDocument c files i (ofIndex c files i).toJson objects lists) ∧
      ∃ rows, InText c files i (ofIndex c files i).render rows :=
  ⟨inDocument_toJson hfiles hindex, inText_render hfiles hindex⟩

theorem shows_each_entry_once_suite :
    ∃ files i, Discovery.sourceFiles {} Sample.suite = .ok files ∧
      EntryIndex.ofFiles {} Sample.suite files = .ok i ∧
      files.length = 3 ∧ i.all.length = 3 ∧ i.portable.length = 2 ∧
      (∃ objects lists, InDocument {} files i (ofIndex {} files i).toJson objects lists) ∧
      ∃ rows, InText {} files i (ofIndex {} files i).render rows := by
  obtain ⟨d, hd, hsummary, -⟩ := generate_eq_ok_iff.mp Sample.suite_generated
  obtain ⟨hfiles, hindex, -⟩ := Draft.ofTree_eq_ok_iff.mp hd
  have hcounts := Summary.mk.inj hsummary
  exact ⟨d.files, d.entries, hfiles, hindex, hcounts.1, hcounts.2.2.1, hcounts.2.2.2,
    shows_each_entry_once hfiles hindex⟩

end Lines
end Listing
end SuiteMake

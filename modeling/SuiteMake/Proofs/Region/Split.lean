import SuiteMake.Proofs.Text.Cut
import SuiteMake.Region

/-!
# How a region divides a text

A region divides a text into a head that ends with the line of its first start marker, whole
lines in which no end marker starts, and a tail whose first line holds an end marker. Head and
tail are each recognised on their own, so the lines between them can be exchanged, and text can
be put before the head and after the tail.
-/

namespace SuiteMake.Region

open Text

/-- A head: it ends with the line of the first start marker, which blanks open. -/
def Opens (r : Region) (head indent : Text) : Prop :=
  ∃ before line, head = before ++ (r.start ++ (line ++ ['\n'])) ∧
    Absent r.start before r.start ∧ '\n' ∉ line ∧
    indent = (splitLastLine before).2.takeWhile isBlank

/-- A tail: its first line holds an end marker. -/
def Closes (r : Region) (tail : Text) : Prop :=
  ∃ upTo beyond, tail = upTo ++ (r.stop ++ beyond) ∧ '\n' ∉ upTo ∧ Absent r.stop upTo r.stop

/-- Neither marker is empty or runs over the end of a line. -/
structure Proper (r : Region) : Prop where
  start_ne : r.start ≠ []
  stop_ne : r.stop ≠ []
  start_line : '\n' ∉ r.start
  stop_line : '\n' ∉ r.stop

theorem functionCalls_proper : functionCalls.Proper := by constructor <;> decide
theorem cDeclarations_proper : cDeclarations.Proper := by constructor <;> decide
theorem cppDeclarations_proper : cppDeclarations.Proper := by constructor <;> decide

theorem Opens.isLines {r : Region} {head indent : Text} (h : r.Opens head indent) :
    IsLines head := by
  obtain ⟨before, line, rfl, -, -, -⟩ := h
  exact Or.inr ⟨before ++ (r.start ++ line), by simp⟩

theorem Opens.length_lt {r : Region} {head indent : Text} (h : r.Opens head indent) :
    r.start.length < head.length := by
  obtain ⟨before, line, rfl, -, -, -⟩ := h
  simp only [List.length_append, List.length_singleton]
  omega

theorem Closes.append {r : Region} {tail : Text} (h : r.Closes tail) (w : Text) :
    r.Closes (tail ++ w) := by
  obtain ⟨upTo, beyond, rfl, hn, ha⟩ := h
  exact ⟨upTo, beyond ++ w, by simp, hn, ha⟩

theorem Closes.of_append {r : Region} {u v : Text} (h : r.Closes (u ++ v)) (hu : '\n' ∈ u)
    (hr : '\n' ∉ r.stop) : r.Closes u := by
  obtain ⟨upTo, beyond, he, hn, ha⟩ := h
  have hfirst : upTo ++ r.stop <+: u := by
    have hwhole : upTo ++ r.stop <+: u ++ v := ⟨beyond, by rw [he, List.append_assoc]⟩
    rcases Nat.lt_or_ge u.length (upTo ++ r.stop).length with hlt | hge
    · exfalso
      have hsub : u <+: upTo ++ r.stop :=
        List.prefix_of_prefix_length_le (List.prefix_append _ _) hwhole (Nat.le_of_lt hlt)
      rcases List.mem_append.mp (hsub.subset hu) with hmem | hmem
      · exact hn hmem
      · exact hr hmem
    · exact List.prefix_of_prefix_length_le hwhole (List.prefix_append _ _) hge
  obtain ⟨w, rfl⟩ := hfirst
  exact ⟨upTo, w, by simp, hn, ha⟩

/-- A text is split where its parts are a head, whole lines without an end marker, and a tail. -/
theorem split_eq_ok_iff {r : Region} {text : Text} {s : Split} :
    r.split text = .ok s ↔
      text = s.head ++ (s.body ++ s.tail) ∧ r.Opens s.head s.indent ∧ IsLines s.body ∧
        Absent r.stop s.body s.tail ∧ r.Closes s.tail := by
  constructor
  · intro h
    rw [split] at h
    split at h
    · cases h
    rename_i before after hstart
    split at h
    · cases h
    rename_i line rest hline
    split at h
    · cases h
    rename_i upTo beyond hstop
    cases h
    obtain ⟨rfl, hb⟩ := cut?_eq_some_iff.mp hstart
    obtain ⟨rfl, hl⟩ := cut?_eq_some_iff.mp hline
    obtain ⟨rfl, hu⟩ := cut?_eq_some_iff.mp hstop
    obtain ⟨lines, close, hparts⟩ : ∃ lines close, splitLastLine upTo = (lines, close) :=
      ⟨_, _, rfl⟩
    simp only [hparts]
    obtain ⟨rfl, hlines, hn⟩ := splitLastLine_eq_iff.mp hparts
    obtain ⟨habsent, hclose⟩ := absent_append.mp hu
    refine ⟨by simp, ⟨before, line, by simp, hb, absent_singleton.mp hl, rfl⟩, hlines, ?_,
      ⟨close, beyond, List.append_assoc _ _ _, hn, hclose⟩⟩
    exact (absent_append_right (by simp) beyond).mpr habsent
  · rintro ⟨rfl, ⟨before, line, hhead, hb, hn, hindent⟩, hlines, habsent,
      ⟨upTo, beyond, htail, hu, hstop⟩⟩
    have hcut : cut? r.stop (s.body ++ s.tail) = some (s.body ++ upTo, beyond) := by
      rw [cut?_eq_some_iff, absent_append]
      refine ⟨by simp [htail], ?_, hstop⟩
      rw [← absent_append_right (by simp) beyond]
      simpa [htail] using habsent
    have hline : cut? ['\n'] (line ++ '\n' :: (s.body ++ s.tail)) =
        some (line, s.body ++ s.tail) :=
      cut?_eq_some_iff.mpr ⟨by simp, absent_singleton.mpr hn⟩
    have hstart : cut? r.start (s.head ++ (s.body ++ s.tail)) =
        some (before, line ++ '\n' :: (s.body ++ s.tail)) :=
      cut?_eq_some_iff.mpr ⟨by simp [hhead], hb⟩
    have hlast : splitLastLine (s.body ++ upTo) = (s.body, upTo) :=
      splitLastLine_eq_iff.mpr ⟨rfl, hlines, hu⟩
    simp only [split, hstart, hline, hcut, hlast]
    obtain ⟨head, body, tail, indent⟩ := s
    simp_all

theorem split_exchange {r : Region} {head indent tail lines : Text} (hopen : r.Opens head indent)
    (hclose : r.Closes tail) (hlines : IsLines lines) (habsent : Absent r.stop lines tail) :
    r.split (head ++ (lines ++ tail)) = .ok ⟨head, lines, tail, indent⟩ :=
  split_eq_ok_iff.mpr ⟨rfl, hopen, hlines, habsent, hclose⟩

theorem split_prepend {r : Region} {u v : Text} (hu : IsLines u) (ha : Absent r.start u v) :
    r.split (u ++ v) = (r.split v).map fun s => { s with head := u ++ s.head } := by
  rw [split, split, cut?_append_of_absent ha]
  cases cut? r.start v with
  | none => rfl
  | some found =>
      obtain ⟨before, after⟩ := found
      simp only [Option.map_some]
      cases cut? ['\n'] after with
      | none => rfl
      | some found =>
          obtain ⟨line, rest⟩ := found
          dsimp only
          cases cut? r.stop rest with
          | none => rfl
          | some found => simp [Except.map, splitLastLine_append hu]

theorem isBlank_of_mem_indent {r : Region} {head indent : Text} (h : r.Opens head indent)
    {c : Char} (hc : c ∈ indent) : isBlank c = true := by
  obtain ⟨before, line, -, -, -, rfl⟩ := h
  exact List.all_eq_true.mp List.all_takeWhile c hc

/-- The lines of a region as they stand after a head. -/
def laid (head indent : Text) (lines : List Text) : Text :=
  lines.flatMap fun line => indent ++ line ++ lineEnding head

theorem layout_eq_laid (s : Split) (lines : List Text) :
    layout s lines = laid s.head s.indent lines := rfl

theorem lineEnding_isLines (head : Text) : ∃ x, lineEnding head = x ++ ['\n'] := by
  rw [lineEnding]
  split
  · exact ⟨['\r'], rfl⟩
  · exact ⟨[], rfl⟩

theorem laid_isLines (head indent : Text) (lines : List Text) :
    IsLines (laid head indent lines) := by
  induction lines with
  | nil => exact isLines_nil
  | cons line lines ih =>
      obtain ⟨x, hx⟩ := lineEnding_isLines head
      rw [laid, List.flatMap_cons]
      refine IsLines.append ?_ ih
      exact Or.inr ⟨indent ++ line ++ x, by simp [hx]⟩

/-- A marker that stands on one line and is in no generated line starts nowhere among them. -/
theorem absent_laid {stop head indent : Text} {lines : List Text} (hn : '\n' ∉ stop)
    (hfree : ∀ line ∈ lines, ¬ stop <:+: indent ++ line ++ lineEnding head) (tail : Text) :
    Absent stop (laid head indent lines) tail := by
  induction lines with
  | nil => exact absent_nil stop tail
  | cons line lines ih =>
      have hline := hfree line List.mem_cons_self
      have hne : stop ≠ [] := by
        intro hnil
        exact hline (by simp [hnil])
      have hpiece : IsLines (indent ++ line ++ lineEnding head) := by
        simpa [laid] using laid_isLines head indent [line]
      rw [laid, List.flatMap_cons, absent_append]
      constructor
      · exact (hpiece.absent_iff hne hn).mpr hline
      · exact ih fun line hmem => hfree line (List.mem_cons_of_mem _ hmem)

theorem lineEnding_append {v : Text} (hv : 2 ≤ v.length) (u : Text) :
    lineEnding (u ++ v) = lineEnding v := by
  have hsuffix : ['\r', '\n'] <:+ u ++ v ↔ ['\r', '\n'] <:+ v := by
    constructor
    · intro h
      exact List.suffix_of_suffix_length_le h (List.suffix_append u v) hv
    · intro h
      exact h.trans (List.suffix_append u v)
  simp only [lineEnding, List.isSuffixOf_iff_suffix, hsuffix]

theorem laid_append {v : Text} (hv : 2 ≤ v.length) (u indent : Text) (lines : List Text) :
    laid (u ++ v) indent lines = laid v indent lines := by
  simp only [laid, lineEnding_append hv]

theorem mem_laid {head indent : Text} {lines : List Text} {c : Char}
    (hc : c ∈ laid head indent lines) :
    (∃ line ∈ lines, c ∈ line) ∨ c ∈ indent ∨ c = '\r' ∨ c = '\n' := by
  obtain ⟨line, hline, hmem⟩ := List.mem_flatMap.mp hc
  rcases List.mem_append.mp hmem with hmem | hmem
  · rcases List.mem_append.mp hmem with hmem | hmem
    · exact Or.inr (Or.inl hmem)
    · exact Or.inl ⟨line, hline, hmem⟩
  · right
    right
    simp only [lineEnding] at hmem
    split at hmem <;> simp_all

/-- A text in which a region holds the given lines. -/
def Shows (r : Region) (text : Text) (lines : List Text) : Prop :=
  ∃ s, r.split text = .ok s ∧ s.body = laid s.head s.indent lines

/-- Lines laid into a text, whatever its indentation and line ending, hold none of some markers. -/
def Spares (markers lines : List Text) : Prop :=
  ∀ head indent : Text, (∀ c ∈ indent, isBlank c = true) →
    ∀ m ∈ markers, ¬ m <:+: laid head indent lines

theorem Spares.mono {markers markers' lines : List Text} (h : Spares markers lines)
    (hsubset : markers' ⊆ markers) : Spares markers' lines :=
  fun head indent hindent m hm => h head indent hindent m (hsubset hm)

theorem Spares.free {markers lines : List Text} (h : Spares markers lines) {r : Region}
    {head indent m : Text} (hopens : r.Opens head indent) (hm : m ∈ markers) :
    ¬ m <:+: laid head indent lines :=
  h head indent (fun _ hc => isBlank_of_mem_indent hopens hc) m hm

/-- A marker is spared by lines that lack its first character, unless that is a character of
indentations or line endings. -/
theorem spares_of_notMem {c : Char} {markers lines : List Text}
    (hmarkers : ∀ m ∈ markers, c ∈ m) (hlines : ∀ line ∈ lines, c ∉ line)
    (hc : isBlank c = false ∧ c ≠ '\r' ∧ c ≠ '\n') : Spares markers lines := by
  rintro head indent hindent m hm hwithin
  rcases mem_laid (hwithin.subset (hmarkers m hm)) with ⟨line, hline, hmem⟩ | hmem | hmem | hmem
  · exact hlines line hline hmem
  · rw [hindent c hmem] at hc
    exact absurd hc.1 (by decide)
  · exact hc.2.1 hmem
  · exact hc.2.2 hmem

theorem splice_eq_ok_iff {r : Region} {lines : List Text} {text result : Text} :
    r.splice lines text = .ok result ↔
      ∃ s, r.split text = .ok s ∧ result = s.head ++ (laid s.head s.indent lines ++ s.tail) := by
  rw [splice]
  cases r.split text with
  | error m => simp [Except.map]
  | ok s => simp [Except.map, layout_eq_laid, eq_comm]

theorem split_of_splice {r : Region} (hr : r.Proper) {lines : List Text} {text result : Text}
    (hl : Spares [r.stop] lines) (h : r.splice lines text = .ok result) :
    ∃ s, r.split text = .ok s ∧
      r.split result = .ok { s with body := laid s.head s.indent lines } := by
  obtain ⟨s, hs, rfl⟩ := splice_eq_ok_iff.mp h
  obtain ⟨-, hopens, -, -, hcloses⟩ := split_eq_ok_iff.mp hs
  have hfree := hl.free hopens (List.mem_singleton_self _)
  refine ⟨s, hs, ?_⟩
  apply split_exchange hopens hcloses (laid_isLines _ _ _)
  exact ((laid_isLines _ _ _).absent_iff hr.stop_ne hr.stop_line).mpr hfree

/-- A splice leaves its lines in the region, and making it once more changes nothing. -/
theorem splice_shows {r : Region} (hr : r.Proper) {lines : List Text} {text result : Text}
    (hl : Spares [r.stop] lines) (h : r.splice lines text = .ok result) :
    r.Shows result lines ∧ r.splice lines result = .ok result := by
  obtain ⟨s, hs, hagain⟩ := split_of_splice hr hl h
  refine ⟨⟨_, hagain, rfl⟩, ?_⟩
  rw [splice_eq_ok_iff]
  refine ⟨_, hagain, ?_⟩
  obtain ⟨s', hs', hresult⟩ := splice_eq_ok_iff.mp h
  cases hs.symm.trans hs'
  exact hresult

end SuiteMake.Region

import SuiteMake.Proofs.Region.Split

/-!
# Two regions in a row

Where the first start marker of one region stands at or after the line that closes another, the
text falls into a head, lines, a part that closes the one and opens the other, lines, and a tail.
The lines of either region can then be exchanged without a trace in the other.
-/

namespace SuiteMake

theorem Edit.applyAll_cons {e : Edit} {es : List Edit} {text result : Text}
    (h : applyAll (e :: es) text = .ok result) :
    ∃ between, e.region.splice e.lines text = .ok between ∧ applyAll es between = .ok result := by
  rw [applyAll] at h
  split at h
  · rename_i between hbetween
    exact ⟨between, hbetween, h⟩
  · cases h

namespace Region

open Text

/-- Whether the first start marker of `q` stands at or after the line that closes `r`. -/
def precedes (r q : Region) (text : Text) : Bool :=
  match r.split text, cut? q.start text with
  | .ok s, some (before, _) => s.head.length + s.body.length ≤ before.length
  | _, _ => false

/-- Whether two regions of a text do not overlap. -/
def apart (r q : Region) (text : Text) : Bool := r.precedes q text || q.precedes r text

/-- A text around the lines of two regions, the second of which starts where the first is closed. -/
structure Row (r q : Region) where
  head : Text
  between : Text
  tail : Text
  indent : Text
  indent' : Text
  opens : r.Opens head indent
  closes : r.Closes between
  opens' : q.Opens between indent'
  closes' : q.Closes tail
  free : ¬ q.start <:+: head

def markers (r q : Region) : List Text := [r.start, r.stop, q.start, q.stop]

namespace Row

variable {r q : Region}

def text (w : Row r q) (x y : Text) : Text := w.head ++ (x ++ (w.between ++ (y ++ w.tail)))

/-- Whole lines that hold no marker by which a region would be told otherwise. -/
structure Holds (r q : Region) (x y : Text) : Prop where
  lines : IsLines x
  stop : ¬ r.stop <:+: x
  start' : ¬ q.start <:+: x
  lines' : IsLines y
  stop' : ¬ q.stop <:+: y

theorem split_first (hr : r.Proper) (w : Row r q) {x y : Text} (h : Holds r q x y) :
    r.split (w.text x y) = .ok ⟨w.head, x, w.between ++ (y ++ w.tail), w.indent⟩ := by
  apply split_exchange w.opens (w.closes.append _) h.lines
  exact (h.lines.absent_iff hr.stop_ne hr.stop_line).mpr h.stop

theorem split_second (hq : q.Proper) (w : Row r q) {x y : Text} (h : Holds r q x y) :
    q.split (w.text x y) = .ok ⟨w.head ++ (x ++ w.between), y, w.tail, w.indent'⟩ := by
  have hlines : IsLines (w.head ++ x) := w.opens.isLines.append h.lines
  have habsent : Absent q.start (w.head ++ x) (w.between ++ (y ++ w.tail)) := by
    rw [absent_append]
    constructor
    · exact (w.opens.isLines.absent_iff hq.start_ne hq.start_line).mpr w.free
    · exact (h.lines.absent_iff hq.start_ne hq.start_line).mpr h.start'
  have hstop : Absent q.stop y w.tail :=
    (h.lines'.absent_iff hq.stop_ne hq.stop_line).mpr h.stop'
  have htext : w.text x y = w.head ++ x ++ (w.between ++ (y ++ w.tail)) := by simp [text]
  rw [htext, split_prepend hlines habsent, split_exchange w.opens' w.closes' h.lines' hstop]
  simp [Except.map]

theorem two_le_length (hq : q.Proper) (w : Row r q) : 2 ≤ w.between.length := by
  have hpos := List.length_pos_iff.mpr hq.start_ne
  have hlt := w.opens'.length_lt
  omega

theorem splice_first (hr : r.Proper) (w : Row r q) {x y : Text} (h : Holds r q x y)
    (lines : List Text) :
    r.splice lines (w.text x y) = .ok (w.text (laid w.head w.indent lines) y) := by
  rw [splice, w.split_first hr h]
  simp [Except.map, layout_eq_laid, text]

theorem splice_second (hq : q.Proper) (w : Row r q) {x y : Text} (h : Holds r q x y)
    (lines : List Text) :
    q.splice lines (w.text x y) = .ok (w.text x (laid w.between w.indent' lines)) := by
  rw [splice, w.split_second hq h]
  simp only [Except.map, layout_eq_laid]
  rw [← List.append_assoc w.head, laid_append (w.two_le_length hq)]
  simp [text]

theorem applyAll_eq (hr : r.Proper) (hq : q.Proper) (w : Row r q) {x y : Text}
    (h : Holds r q x y) {lines lines' : List Text} (hl : Spares (markers r q) lines)
    (hl' : Spares (markers r q) lines') :
    Edit.applyAll [⟨r, lines⟩, ⟨q, lines'⟩] (w.text x y) =
        .ok (w.text (laid w.head w.indent lines) (laid w.between w.indent' lines')) ∧
      Edit.applyAll [⟨q, lines'⟩, ⟨r, lines⟩] (w.text x y) =
        .ok (w.text (laid w.head w.indent lines) (laid w.between w.indent' lines')) ∧
      Holds r q (laid w.head w.indent lines) (laid w.between w.indent' lines') := by
  have hfirst : Holds r q (laid w.head w.indent lines) y :=
    ⟨laid_isLines _ _ _, hl.free w.opens (by simp [markers]), hl.free w.opens (by simp [markers]),
      h.lines', h.stop'⟩
  have hsecond : Holds r q x (laid w.between w.indent' lines') :=
    ⟨h.lines, h.stop, h.start', laid_isLines _ _ _, hl'.free w.opens' (by simp [markers])⟩
  refine ⟨?_, ?_, ?_⟩
  · simp [Edit.applyAll, w.splice_first hr h, w.splice_second hq hfirst]
  · simp [Edit.applyAll, w.splice_second hq h, w.splice_first hr hsecond]
  · exact ⟨hfirst.lines, hfirst.stop, hfirst.start', hsecond.lines', hsecond.stop'⟩

end Row

theorem precedes_iff {r q : Region} {text : Text} :
    r.precedes q text = true ↔ ∃ s before after, r.split text = .ok s ∧
      cut? q.start text = some (before, after) ∧
        s.head.length + s.body.length ≤ before.length := by
  rw [precedes]
  cases r.split text with
  | error m => simp
  | ok s =>
      cases cut? q.start text with
      | none => simp
      | some found =>
          obtain ⟨before, after⟩ := found
          simp

theorem precedes_free {r q : Region} (hq : q.Proper) {text : Text} {s : Split}
    (hprecedes : r.precedes q text = true) (hs : r.split text = .ok s) :
    ¬ q.start <:+: s.head ∧ ¬ q.start <:+: s.body := by
  obtain ⟨s', before, after, hs', hcut, hle⟩ := precedes_iff.mp hprecedes
  cases hs.symm.trans hs'
  obtain ⟨htext, hopens, hbody, -, -⟩ := split_eq_ok_iff.mp hs
  obtain ⟨hfound, habsent⟩ := cut?_eq_some_iff.mp hcut
  have hlong : s.head ++ s.body <+: text := ⟨s.tail, by rw [htext, List.append_assoc]⟩
  have hbefore : before <+: text := ⟨q.start ++ after, hfound.symm⟩
  obtain ⟨rest, rfl⟩ := List.prefix_of_prefix_length_le hlong hbefore (by simpa using hle)
  have hboth := absent_append.mp (absent_append.mp habsent).1
  constructor
  · exact (hopens.isLines.absent_iff hq.start_ne hq.start_line).mp hboth.1
  · exact (hbody.absent_iff hq.start_ne hq.start_line).mp hboth.2

/-- A region that precedes another forms a row with it. The other region may be found after the
lines of the first have been exchanged. -/
theorem exists_row {r q : Region} (hr : r.Proper) (hq : q.Proper) {text lines : Text}
    {s p : Split} (hprecedes : r.precedes q text = true) (hs : r.split text = .ok s)
    (hlines : IsLines lines) (hfree : ¬ q.start <:+: lines)
    (hp : q.split (s.head ++ (lines ++ s.tail)) = .ok p) :
    ∃ (w : Row r q) (y : Text), text = w.text s.body y ∧ Row.Holds r q s.body y := by
  obtain ⟨htext, hopens, hbody, hstop, hcloses⟩ := split_eq_ok_iff.mp hs
  obtain ⟨hhead, hbodyFree⟩ := precedes_free hq hprecedes hs
  -- up to the end of the first region there is no start marker of the second
  have hsplit : q.split (s.head ++ (lines ++ s.tail)) =
      (q.split s.tail).map fun p => { p with head := s.head ++ lines ++ p.head } := by
    rw [← List.append_assoc]
    apply split_prepend (hopens.isLines.append hlines)
    rw [absent_append]
    constructor
    · exact (hopens.isLines.absent_iff hq.start_ne hq.start_line).mpr hhead
    · exact (hlines.absent_iff hq.start_ne hq.start_line).mpr hfree
  rw [hsplit] at hp
  cases htail : q.split s.tail with
  | error m => simp [htail, Except.map] at hp
  | ok p' =>
      obtain ⟨he, hopens', hbody', hstop', hcloses'⟩ := split_eq_ok_iff.mp htail
      have hnewline : '\n' ∈ p'.head := by
        rcases hopens'.isLines with hnil | ⟨z, hz⟩
        · have hlt := hopens'.length_lt
          simp [hnil] at hlt
        · simp [hz]
      have hcloses : r.Closes p'.head := by
        rw [he] at hcloses
        exact hcloses.of_append hnewline hr.stop_line
      refine ⟨⟨s.head, p'.head, p'.tail, s.indent, p'.indent, hopens, hcloses, hopens', hcloses',
        hhead⟩, p'.body, ?_, ?_⟩
      · rw [htext, he]
        rfl
      · exact ⟨hbody, (hbody.absent_iff hr.stop_ne hr.stop_line).mp hstop, hbodyFree, hbody',
          (hbody'.absent_iff hq.stop_ne hq.stop_line).mp hstop'⟩

theorem Row.shows {r q : Region} (hr : r.Proper) (hq : q.Proper) (w : Row r q)
    {lines lines' : List Text}
    (h : Holds r q (laid w.head w.indent lines) (laid w.between w.indent' lines')) :
    r.Shows (w.text (laid w.head w.indent lines) (laid w.between w.indent' lines')) lines ∧
      q.Shows (w.text (laid w.head w.indent lines) (laid w.between w.indent' lines')) lines' := by
  refine ⟨⟨_, w.split_first hr h, rfl⟩, ⟨_, w.split_second hq h, ?_⟩⟩
  rw [← List.append_assoc, laid_append (w.two_le_length hq)]

theorem Spares.swap {r q : Region} {lines : List Text} (h : Spares (markers r q) lines) :
    Spares (markers q r) lines := by
  apply h.mono
  simp [markers]

theorem exists_row_of_precedes {r q : Region} (hr : r.Proper) (hq : q.Proper) {text : Text}
    {p : Split} (hprecedes : r.precedes q text = true) (hp : q.split text = .ok p) :
    ∃ (w : Row r q) (x y : Text), text = w.text x y ∧ Row.Holds r q x y := by
  obtain ⟨s, -, -, hs, -, -⟩ := precedes_iff.mp hprecedes
  obtain ⟨htext, -, hbody, -, -⟩ := split_eq_ok_iff.mp hs
  rw [htext] at hp
  obtain ⟨w, y, hrow, hold⟩ := exists_row hr hq hprecedes hs hbody
    (precedes_free hq hprecedes hs).2 hp
  exact ⟨w, s.body, y, hrow, hold⟩

private theorem exists_row_of_apart {r q : Region} (hr : r.Proper) (hq : q.Proper)
    {text result : Text} {lines lines' : List Text} (hapart : r.apart q text = true)
    (hl : Spares (markers r q) lines)
    (h : Edit.applyAll [⟨r, lines⟩, ⟨q, lines'⟩] text = .ok result) :
    (∃ (w : Row r q) (x y : Text), text = w.text x y ∧ Row.Holds r q x y) ∨
      ∃ (w : Row q r) (x y : Text), text = w.text x y ∧ Row.Holds q r x y := by
  obtain ⟨between, hbetween, hlast⟩ := Edit.applyAll_cons h
  obtain ⟨s, hs, rfl⟩ := splice_eq_ok_iff.mp hbetween
  obtain ⟨final, hfinal, -⟩ := Edit.applyAll_cons hlast
  obtain ⟨p, hp, -⟩ := splice_eq_ok_iff.mp hfinal
  rcases Bool.or_eq_true_iff.mp hapart with hprecedes | hprecedes
  · have hopens := (split_eq_ok_iff.mp hs).2.1
    have hfree : ¬ q.start <:+: laid s.head s.indent lines := hl.free hopens (by simp [markers])
    obtain ⟨w, y, htext, hold⟩ := exists_row hr hq hprecedes hs (laid_isLines _ _ _) hfree hp
    exact Or.inl ⟨w, s.body, y, htext, hold⟩
  · exact Or.inr (exists_row_of_precedes hq hr hprecedes hs)

/-- Edits of two regions that do not overlap leave in each region its own lines, and making them
once more changes nothing. -/
theorem applyAll_apart {r q : Region} (hr : r.Proper) (hq : q.Proper) {text result : Text}
    {lines lines' : List Text} (hapart : r.apart q text = true)
    (hl : Spares (markers r q) lines) (hl' : Spares (markers r q) lines')
    (h : Edit.applyAll [⟨r, lines⟩, ⟨q, lines'⟩] text = .ok result) :
    r.Shows result lines ∧ q.Shows result lines' ∧
      Edit.applyAll [⟨r, lines⟩, ⟨q, lines'⟩] result = .ok result := by
  rcases exists_row_of_apart hr hq hapart hl h with ⟨w, x, y, rfl, hold⟩ | ⟨w, x, y, rfl, hold⟩
  · obtain ⟨hfirst, -, hnew⟩ := w.applyAll_eq hr hq hold hl hl'
    cases h.symm.trans hfirst
    exact ⟨(w.shows hr hq hnew).1, (w.shows hr hq hnew).2, (w.applyAll_eq hr hq hnew hl hl').1⟩
  · obtain ⟨-, hsecond, hnew⟩ := w.applyAll_eq hq hr hold hl'.swap hl.swap
    cases h.symm.trans hsecond
    exact ⟨(w.shows hq hr hnew).2, (w.shows hq hr hnew).1,
      (w.applyAll_eq hq hr hnew hl'.swap hl.swap).2.1⟩

theorem applyAll_apart_anew {r q : Region} (hr : r.Proper) (hq : q.Proper) {text result : Text}
    {lines lines' new new' : List Text} (hapart : r.apart q text = true)
    (hl : Spares (markers r q) lines) (hl' : Spares (markers r q) lines')
    (hn : Spares (markers r q) new) (hn' : Spares (markers r q) new')
    (h : Edit.applyAll [⟨r, lines⟩, ⟨q, lines'⟩] text = .ok result) :
    ∃ final, Edit.applyAll [⟨r, new⟩, ⟨q, new'⟩] result = .ok final := by
  rcases exists_row_of_apart hr hq hapart hl h with ⟨w, x, y, rfl, hold⟩ | ⟨w, x, y, rfl, hold⟩
  · obtain ⟨hfirst, -, hnew⟩ := w.applyAll_eq hr hq hold hl hl'
    cases h.symm.trans hfirst
    exact ⟨_, (w.applyAll_eq hr hq hnew hn hn').1⟩
  · obtain ⟨-, hsecond, hnew⟩ := w.applyAll_eq hq hr hold hl'.swap hl.swap
    cases h.symm.trans hsecond
    exact ⟨_, (w.applyAll_eq hq hr hnew hn'.swap hn.swap).2.1⟩

end Region
end SuiteMake

import Mathlib.Data.List.Chain
import Mathlib.Data.List.Infix
import SuiteMake.Proofs.Region.Split

/-!
# What a splice does

Either a marker is missing, or the text is cut at six places that follow one another, and only the
lines between the two marker lines are replaced. What these lines were makes no difference, so of
two splices the later one decides.
-/

namespace SuiteMake.Region

open Text

/-- The first start marker is not followed by a newline, or the first such newline is not followed
by an end marker. -/
def Unclosed (r : Region) (text : Text) : Prop :=
  ∃ before after, text = before ++ (r.start ++ after) ∧ IsBeforeFirst r.start text before ∧
    ('\n' ∉ after ∨
      ∃ line rest, after = line ++ '\n' :: rest ∧ '\n' ∉ line ∧ ¬ r.stop <:+: rest)

/-- A part of the text, from its start on, that holds the first start marker and ends with a newline
after it. -/
def Reaches (r : Region) (text head : Text) : Prop :=
  head <+: text ∧ ∃ before line, IsBeforeFirst r.start text before ∧
    head = before ++ (r.start ++ (line ++ ['\n']))

/-- A text cut around the lines of a region. The line of the first start marker opens with `margin`,
the line of the end marker that closes the region with `close`. -/
structure Cuts (r : Region) (text : Text) where
  above : Text
  margin : Text
  head : Text
  body : Text
  close : Text
  tail : Text
  text_eq : text = head ++ (body ++ tail)
  start_first : IsBeforeFirst r.start text (above ++ margin)
  above_lines : IsLines above
  margin_line : '\n' ∉ margin
  head_reaches : r.Reaches text head
  head_shortest : ∀ u, r.Reaches text u → head.length ≤ u.length
  body_free : Absent r.stop body tail
  tail_line : IsLines (head ++ body)
  stop_first : IsBeforeFirst r.stop (body ++ tail) (body ++ close)
  close_line : '\n' ∉ close

namespace Cuts

variable {r : Region} {text : Text}

/-- The places of the cuts, each given by the text before it. -/
def places (c : Cuts r text) : List Text :=
  [c.above, c.above ++ c.margin, c.above ++ c.margin ++ r.start, c.head, c.head ++ c.body,
    c.head ++ (c.body ++ c.close), text]

/-- New lines with the indentation and the line ending of the start marker's line. -/
def written (c : Cuts r text) (lines : List Text) : Text :=
  lines.flatMap fun line => c.margin.takeWhile isBlank ++ line ++
    if ['\r', '\n'] <:+ c.head then ['\r', '\n'] else ['\n']

theorem start_prefix_head (c : Cuts r text) : c.above ++ c.margin ++ r.start <+: c.head := by
  obtain ⟨before, line, hfirst, hhead⟩ := c.head_reaches.2
  rw [c.start_first.unique hfirst, hhead, ← List.append_assoc]
  exact List.prefix_append _ _

theorem close_prefix (c : Cuts r text) : c.head ++ (c.body ++ c.close) <+: text := by
  have hclose : c.body ++ c.close <+: c.body ++ c.tail :=
    (List.prefix_append _ _).trans c.stop_first.1
  have hall := (List.prefix_append_right_inj c.head).mpr hclose
  rwa [← c.text_eq] at hall

theorem places_ordered (c : Cuts r text) : c.places.Pairwise (· <+: ·) := by
  rw [← List.isChain_iff_pairwise]
  simp only [places, List.isChain_cons_cons, List.isChain_singleton, and_true]
  refine ⟨List.prefix_append _ _, List.prefix_append _ _, c.start_prefix_head,
    List.prefix_append _ _, ?_, c.close_prefix⟩
  rw [← List.append_assoc]
  exact List.prefix_append _ _

end Cuts

section Result

variable {r : Region} {text : Text}

private theorem unclosed_iff_cut? : r.Unclosed text ↔
    ∃ before after, cut? r.start text = some (before, after) ∧
      (cut? ['\n'] after = none ∨
        ∃ line rest, cut? ['\n'] after = some (line, rest) ∧ cut? r.stop rest = none) := by
  simp only [cut?_singleton_eq_some_iff, and_assoc]
  simp only [Unclosed, cut?_eq_some_iff_isBeforeFirst, cut?_eq_none_iff, List.singleton_infix_iff,
    and_assoc]

private theorem split_of_start_missing (h : ¬ r.start <:+: text) :
    r.split text = .error ⟨r.start⟩ := by
  rw [split, cut?_eq_none_iff.mpr h]

private theorem split_of_unclosed (h : r.Unclosed text) : r.split text = .error ⟨r.stop⟩ := by
  obtain ⟨before, after, hstart, hline | ⟨line, rest, hline, hstop⟩⟩ := unclosed_iff_cut?.mp h
  · simp only [split, hstart, hline]
  · simp only [split, hstart, hline, hstop]

private theorem exists_split (hstart : r.start <:+: text) (hclosed : ¬ r.Unclosed text) :
    ∃ s, r.split text = .ok s := by
  rw [unclosed_iff_cut?] at hclosed
  cases hcut : cut? r.start text with
  | none => exact absurd hstart (cut?_eq_none_iff.mp hcut)
  | some found =>
      obtain ⟨before, after⟩ := found
      cases hline : cut? ['\n'] after with
      | none => exact absurd ⟨before, after, hcut, Or.inl hline⟩ hclosed
      | some found =>
          obtain ⟨line, rest⟩ := found
          cases hstop : cut? r.stop rest with
          | none => exact absurd ⟨before, after, hcut, Or.inr ⟨line, rest, hline, hstop⟩⟩ hclosed
          | some found =>
              simp only [split, hcut, hline, hstop]
              exact ⟨_, rfl⟩

private theorem head_shortest_of_line {before line rest : Text} (hline : '\n' ∉ line)
    (hfirst : IsBeforeFirst r.start (before ++ (r.start ++ (line ++ '\n' :: rest))) before)
    {u : Text} (hu : r.Reaches (before ++ (r.start ++ (line ++ '\n' :: rest))) u) :
    (before ++ (r.start ++ (line ++ ['\n']))).length ≤ u.length := by
  obtain ⟨hstarts, before', line', hfirst', rfl⟩ := hu
  cases hfirst.unique hfirst'
  rw [List.prefix_append_right_inj, List.prefix_append_right_inj] at hstarts
  have hnewline : IsBeforeFirst ['\n'] (line ++ (['\n'] ++ rest)) line :=
    isBeforeFirst_iff_absent.mpr (absent_singleton.mpr hline)
  have hle := hnewline.2 line' hstarts
  simp only [List.length_append]
  omega

private theorem exists_cuts {s : Split} (hs : r.split text = .ok s) :
    ∃ c : Cuts r text,
      c.head = s.head ∧ c.tail = s.tail ∧ c.margin.takeWhile isBlank = s.indent := by
  obtain ⟨htext, hopens, hbody, hfree, close, beyond, htail, hclose, hstop⟩ :=
    split_eq_ok_iff.mp hs
  have hlines := hopens.isLines.append hbody
  obtain ⟨before, line, hhead, hstart, hline, hindent⟩ := hopens
  obtain ⟨above, margin, hparts⟩ : ∃ above margin, splitLastLine before = (above, margin) :=
    ⟨_, _, rfl⟩
  have hmargin := splitLastLine_eq_iff.mp hparts
  have hwhole : text = before ++ (r.start ++ (line ++ '\n' :: (s.body ++ s.tail))) := by
    rw [htext, hhead]
    simp
  have hfirst : IsBeforeFirst r.start text before := by
    rw [hwhole]
    exact isBeforeFirst_iff_absent.mpr hstart
  have hreaches : r.Reaches text s.head := ⟨⟨_, htext.symm⟩, before, line, hfirst, hhead⟩
  have hshortest : ∀ u, r.Reaches text u → s.head.length ≤ u.length := by
    intro u hu
    rw [hwhole] at hu hfirst
    rw [hhead]
    exact head_shortest_of_line hline hfirst hu
  have hclosing : IsBeforeFirst r.stop (s.body ++ s.tail) (s.body ++ close) := by
    rw [htail, ← List.append_assoc, isBeforeFirst_iff_absent, absent_append]
    refine ⟨?_, hstop⟩
    rw [← absent_append_right (by simp) beyond, List.append_assoc, ← htail]
    exact hfree
  refine ⟨⟨above, margin, s.head, s.body, close, s.tail, htext, ?_, hmargin.2.1, hmargin.2.2,
    hreaches, hshortest, hfree, hlines, hclosing, hclose⟩, rfl, rfl, ?_⟩
  · rw [← hmargin.1]
    exact hfirst
  · rw [hindent, hparts]

/-- A splice fails at the start marker only if the text has none, at the end marker only if the
first start marker is not closed, and else replaces the lines of the region and nothing more. -/
theorem splice_exact (r : Region) (lines : List Text) (text : Text) :
    (r.splice lines text = .error ⟨r.start⟩ ↔
      ¬ r.start <:+: text ∨ r.start = r.stop ∧ r.Unclosed text) ∧
    (r.start <:+: text → (r.splice lines text = .error ⟨r.stop⟩ ↔ r.Unclosed text)) ∧
    (r.start <:+: text → ¬ r.Unclosed text →
      ∃ c : Cuts r text, c.places.Pairwise (· <+: ·) ∧
        r.splice lines text = .ok (c.head ++ (c.written lines ++ c.tail))) := by
  by_cases hstart : r.start <:+: text
  · by_cases hopen : r.Unclosed text
    · have hsplice : r.splice lines text = .error ⟨r.stop⟩ := by
        rw [splice, split_of_unclosed hopen]
        rfl
      refine ⟨?_, fun _ => ?_, fun _ hclosed => absurd hopen hclosed⟩
      · simp [hsplice, hstart, hopen, eq_comm]
      · simp [hsplice, hopen]
    · obtain ⟨s, hs⟩ := exists_split hstart hopen
      obtain ⟨c, hhead, htail, hindent⟩ := exists_cuts hs
      have hwritten : laid s.head s.indent lines = c.written lines := by
        simp only [laid, Cuts.written, lineEnding, List.isSuffixOf_iff_suffix, hhead, hindent]
      have hsplice : r.splice lines text = .ok (c.head ++ (c.written lines ++ c.tail)) := by
        rw [← hwritten, hhead, htail]
        exact splice_eq_ok_iff.mpr ⟨s, hs, rfl⟩
      refine ⟨by simp [hsplice, hstart, hopen], fun _ => by simp [hsplice, hopen], fun _ _ => ?_⟩
      exact ⟨c, c.places_ordered, hsplice⟩
  · have hsplice : r.splice lines text = .error ⟨r.start⟩ := by
      rw [splice, split_of_start_missing hstart]
      rfl
    exact ⟨by simp [hsplice, hstart], fun h => absurd h hstart, fun h => absurd h hstart⟩

/-- Of two splices into the same region the later one decides, unless a line of the earlier one
holds the end marker as it stands in the text. -/
theorem splice_splice {lines : List Text} {result : Text} {s : Split} (hstop : '\n' ∉ r.stop)
    (hs : r.split text = .ok s)
    (hfree : ∀ line ∈ lines, ¬ r.stop <:+: s.indent ++ line ++ lineEnding s.head)
    (h : r.splice lines text = .ok result) :
    (∀ lines', ∃ final, r.splice lines' result = .ok final ∧ r.splice lines' text = .ok final) ∧
      r.splice lines result = .ok result := by
  have hparts := split_eq_ok_iff.mp hs
  -- the result is taken apart where the text was, around the lines of the first splice
  have hagain : r.split (s.head ++ (laid s.head s.indent lines ++ s.tail)) =
      .ok { s with body := laid s.head s.indent lines } :=
    split_exchange hparts.2.1 hparts.2.2.2.2 (laid_isLines _ _ _) (absent_laid hstop hfree s.tail)
  have hresult : s.head ++ (laid s.head s.indent lines ++ s.tail) = result :=
    Except.ok.inj ((splice_eq_ok_iff.mpr ⟨s, hs, rfl⟩).symm.trans h)
  rw [hresult] at hagain
  constructor
  · intro lines'
    exact ⟨_, splice_eq_ok_iff.mpr ⟨_, hagain, rfl⟩, splice_eq_ok_iff.mpr ⟨s, hs, rfl⟩⟩
  · exact splice_eq_ok_iff.mpr ⟨_, hagain, hresult.symm⟩

end Result

namespace Sample

/-- A region whose start marker runs over the end of a line. -/
def wrapped : Region := ⟨"<\n[".toList, "]>".toList⟩

/-- The parts of a text that holds such a region, more of its markers and both line endings. -/
def wrappedSplit : Split where
  head := "é\n\t <\n[ a\r\n".toList
  body := "old <\n[\n".toList
  tail := " ]> <\n[]>".toList
  indent := "\t ".toList

def wrappedText (body : Text) : Text := wrappedSplit.head ++ (body ++ wrappedSplit.tail)

def wrappedLines : List Text := ["one".toList, "two\nthree".toList]

def wrappedResult : Text := wrappedText "\t one\r\n\t two\nthree\r\n".toList

end Sample

theorem splice_splice_wrapped :
    '\n' ∉ Sample.wrapped.stop ∧
    Sample.wrapped.split (Sample.wrappedText Sample.wrappedSplit.body) = .ok Sample.wrappedSplit ∧
    (∀ line ∈ Sample.wrappedLines, ¬ Sample.wrapped.stop <:+:
      Sample.wrappedSplit.indent ++ line ++ lineEnding Sample.wrappedSplit.head) ∧
    Sample.wrapped.splice Sample.wrappedLines (Sample.wrappedText Sample.wrappedSplit.body) =
      .ok Sample.wrappedResult ∧
    (∀ lines', ∃ final, Sample.wrapped.splice lines' Sample.wrappedResult = .ok final ∧
      Sample.wrapped.splice lines' (Sample.wrappedText Sample.wrappedSplit.body) = .ok final) ∧
    Sample.wrapped.splice Sample.wrappedLines Sample.wrappedResult = .ok Sample.wrappedResult := by
  have hstop : '\n' ∉ Sample.wrapped.stop := by decide
  have hsplit : Sample.wrapped.split (Sample.wrappedText Sample.wrappedSplit.body) =
      .ok Sample.wrappedSplit := rfl
  have hfree : ∀ line ∈ Sample.wrappedLines, ¬ Sample.wrapped.stop <:+:
      Sample.wrappedSplit.indent ++ line ++ lineEnding Sample.wrappedSplit.head := by decide
  have hsplice : Sample.wrapped.splice Sample.wrappedLines
      (Sample.wrappedText Sample.wrappedSplit.body) = .ok Sample.wrappedResult := rfl
  exact ⟨hstop, hsplit, hfree, hsplice, splice_splice hstop hsplit hfree hsplice⟩

end SuiteMake.Region

import SuiteMake.Proofs.Region.Split
import SuiteMake.Proofs.Text.LineEnding

/-!
# Splices and line endings

A text is split at the same places with either line ending, and the lines put in take the ending of
the start marker's line. So it makes no difference whether the line endings are rewritten before a
splice or after it.
-/

namespace SuiteMake.Region

open Text

/-- The parts of a text whose newlines were rewritten. An indentation has none. -/
def Split.crlf (s : Split) : Split where
  head := Text.crlf s.head
  body := Text.crlf s.body
  tail := Text.crlf s.tail
  indent := s.indent

/-- Both markers stand on one line, whatever its ending. -/
structure OnLine (r : Region) : Prop where
  start_return : '\r' ∉ r.start
  start_newline : '\n' ∉ r.start
  stop_return : '\r' ∉ r.stop
  stop_newline : '\n' ∉ r.stop

theorem split_crlf {r : Region} (hr : r.OnLine) (text : Text) :
    r.split (Text.crlf text) = (r.split text).map Split.crlf := by
  rw [split, split, cut?_crlf hr.start_return hr.start_newline]
  cases cut? r.start text with
  | none => rfl
  | some parts =>
      obtain ⟨before, after⟩ := parts
      simp only [Option.map_some, cut?_newline_crlf]
      cases hline : cut? ['\n'] after with
      | none => rfl
      | some parts =>
          obtain ⟨line, rest⟩ := parts
          have hfree : '\n' ∉ line := (cut?_singleton_eq_some_iff.mp hline).2
          simp only [Option.map_some, cut?_crlf hr.stop_return hr.stop_newline]
          cases cut? r.stop rest with
          | none => rfl
          | some parts =>
              obtain ⟨upTo, beyond⟩ := parts
              have hlast : '\n' ∉ (splitLastLine upTo).2 := (splitLastLine_eq_iff.mp rfl).2.2
              have hend : Text.crlf ['\n'] = ['\r', '\n'] := rfl
              simp only [Option.map_some, Except.map, Split.crlf, splitLastLine_crlf, crlf_append,
                crlf_of_notMem hr.start_newline, crlf_of_notMem hr.stop_newline,
                crlf_of_notMem hfree, crlf_of_notMem hlast, hend]
              simp

theorem lineEnding_crlf {head : Text} (h : IsLines head) (hne : head ≠ []) :
    lineEnding (Text.crlf head) = ['\r', '\n'] := by
  obtain ⟨x, hx⟩ := h.resolve_left hne
  rw [hx, crlf_append, lineEnding, if_pos]
  exact List.isSuffixOf_iff_suffix.mpr (List.suffix_append _ _)

theorem lineEnding_of_notMem {head : Text} (h : '\r' ∉ head) : lineEnding head = ['\n'] := by
  rw [lineEnding, if_neg]
  intro hsuffix
  exact h ((List.isSuffixOf_iff_suffix.mp hsuffix).subset List.mem_cons_self)

theorem crlf_laid {head indent : Text} {lines : List Text} (hhead : IsLines head)
    (hne : head ≠ []) (hreturn : '\r' ∉ head) (hindent : '\n' ∉ indent)
    (hlines : ∀ line ∈ lines, '\n' ∉ line) :
    Text.crlf (laid head indent lines) = laid (Text.crlf head) indent lines := by
  rw [laid, laid, lineEnding_of_notMem hreturn, lineEnding_crlf hhead hne]
  induction lines with
  | nil => rfl
  | cons line lines ih =>
      have hline : '\n' ∉ indent ++ line := by
        simpa using ⟨hindent, hlines line List.mem_cons_self⟩
      rw [List.flatMap_cons, List.flatMap_cons, crlf_append,
        ih fun line hmem => hlines line (List.mem_cons_of_mem _ hmem), crlf_line hline]
      simp [Text.crlf]

/-- A splice into a text whose newlines were rewritten gives the result of the splice with its
newlines rewritten, or fails at the same marker. -/
theorem splice_crlf {r : Region} {lines : List Text} {text : Text} (hr : r.OnLine)
    (hlines : ∀ line ∈ lines, '\n' ∉ line) (htext : '\r' ∉ text) :
    r.splice lines (Text.crlf text) = (r.splice lines text).map Text.crlf := by
  rw [splice, splice, split_crlf hr]
  cases hs : r.split text with
  | error missing => rfl
  | ok s =>
      have hparts := split_eq_ok_iff.mp hs
      have hopens : r.Opens s.head s.indent := hparts.2.1
      have hne : s.head ≠ [] := List.ne_nil_of_length_pos (Nat.zero_lt_of_lt hopens.length_lt)
      have hreturn : '\r' ∉ s.head := by
        intro hmem
        apply htext
        rw [hparts.1]
        exact List.mem_append_left _ hmem
      have hindent : '\n' ∉ s.indent := by
        intro hmem
        have hblank := isBlank_of_mem_indent hopens hmem
        exact absurd hblank (by decide)
      have hlaid := crlf_laid hopens.isLines hne hreturn hindent hlines
      simp only [Except.map, layout_eq_laid, crlf_append, hlaid, Split.crlf]

namespace Sample

def corners : Region := ⟨['<'], ['>']⟩

/-- A text with an indented start marker, a blank line and more markers. -/
def indentedText : Text := "é\n\n\t< b\n<\n >>\n<".toList

def indentedLines : List Text := ["one".toList, [], ['<']]

def indentedResult : Text := "é\r\n\r\n\t< b\r\n\tone\r\n\t\r\n\t<\r\n >>\r\n<".toList

end Sample

theorem splice_crlf_indented :
    Sample.corners.OnLine ∧ (∀ line ∈ Sample.indentedLines, '\n' ∉ line) ∧
    '\r' ∉ Sample.indentedText ∧
    Sample.corners.splice Sample.indentedLines (Text.crlf Sample.indentedText) =
      .ok Sample.indentedResult ∧
    Sample.corners.splice Sample.indentedLines (Text.crlf Sample.indentedText) =
      (Sample.corners.splice Sample.indentedLines Sample.indentedText).map Text.crlf := by
  have hr : Sample.corners.OnLine := by constructor <;> decide
  have hlines : ∀ line ∈ Sample.indentedLines, '\n' ∉ line := by decide
  have htext : '\r' ∉ Sample.indentedText := by decide
  exact ⟨hr, hlines, htext, rfl, splice_crlf hr hlines htext⟩

end SuiteMake.Region

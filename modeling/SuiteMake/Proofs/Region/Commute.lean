import SuiteMake.Proofs.Region.Again

/-!
# Edits of two regions commute

Regions that do not overlap can be edited in either order. Each then holds its own lines, and the
text before, between and after them is the same as it was.
-/

namespace SuiteMake.Region

/-- What stands before, between and after the lines of two regions. -/
structure Frame where
  head : Text
  between : Text
  tail : Text

/-- Whether the region `r` and after it the region `q` stand in a text with this frame. -/
def Frame.Surrounds (f : Frame) (r q : Region) (text : Text) : Prop :=
  ∃ s p, r.split text = .ok s ∧ q.split text = .ok p ∧ s.head = f.head ∧
    p.head = f.head ++ (s.body ++ f.between) ∧ p.tail = f.tail

section Commute

variable {r q : Region} {text : Text} {lines lines' : List Text}

theorem Row.surrounds (hr : r.Proper) (hq : q.Proper) (w : Row r q) {x y : Text}
    (h : Holds r q x y) : Frame.Surrounds ⟨w.head, w.between, w.tail⟩ r q (w.text x y) :=
  ⟨_, _, w.split_first hr h, w.split_second hq h, rfl, rfl, rfl⟩

theorem proper_of_isMarker (h : ∀ m ∈ markers r q, IsMarker m) : r.Proper ∧ q.Proper := by
  simp only [markers, List.forall_mem_cons, List.not_mem_nil, false_implies, implies_true,
    and_true] at h
  have hr : r.Proper := ⟨h.1.ne_nil, h.2.1.ne_nil, h.1.newline, h.2.1.newline⟩
  have hq : q.Proper := ⟨h.2.2.1.ne_nil, h.2.2.2.ne_nil, h.2.2.1.newline, h.2.2.2.newline⟩
  exact ⟨hr, hq⟩

private theorem applyAll_comm_of_precedes (hr : r.Proper) (hq : q.Proper)
    (hprecedes : r.precedes q text = true) {p : Split} (hp : q.split text = .ok p)
    (hl : Spares (markers r q) lines) (hl' : Spares (markers r q) lines') :
    ∃ result, Edit.applyAll [⟨r, lines⟩, ⟨q, lines'⟩] text = .ok result ∧
      Edit.applyAll [⟨q, lines'⟩, ⟨r, lines⟩] text = .ok result ∧
      r.Shows result lines ∧ q.Shows result lines' ∧
      ∃ f : Frame, f.Surrounds r q text ∧ f.Surrounds r q result := by
  obtain ⟨w, x, y, htext, hold⟩ := exists_row_of_precedes hr hq hprecedes hp
  have hboth := w.applyAll_eq hr hq hold hl hl'
  have hshows := w.shows hr hq hboth.2.2
  rw [htext]
  exact ⟨_, hboth.1, hboth.2.1, hshows.1, hshows.2, _, w.surrounds hr hq hold,
    w.surrounds hr hq hboth.2.2⟩

/-- Two regions that do not overlap are edited in either order with the same result: each holds its
own lines, and nothing else is changed. -/
theorem edits_commute (hm : ∀ m ∈ markers r q, IsMarker m)
    {s p : Split} (hs : r.split text = .ok s) (hp : q.split text = .ok p)
    (hapart : r.apart q text = true)
    (hl : ∀ line ∈ lines, ∀ m ∈ markers r q, ¬ m <:+: line)
    (hl' : ∀ line ∈ lines', ∀ m ∈ markers r q, ¬ m <:+: line) :
    ∃ result, Edit.applyAll [⟨r, lines⟩, ⟨q, lines'⟩] text = .ok result ∧
      Edit.applyAll [⟨q, lines'⟩, ⟨r, lines⟩] text = .ok result ∧
      r.Shows result lines ∧ q.Shows result lines' ∧
      ∃ f : Frame, f.Surrounds r q text ∧ f.Surrounds r q result ∨
        f.Surrounds q r text ∧ f.Surrounds q r result := by
  have hproper := proper_of_isMarker hm
  have hspares := spares_of_lines hm hl
  have hspares' := spares_of_lines hm hl'
  rcases Bool.or_eq_true_iff.mp hapart with hprecedes | hprecedes
  · obtain ⟨result, hfirst, hsecond, hshows, hshows', f, hf⟩ :=
      applyAll_comm_of_precedes hproper.1 hproper.2 hprecedes hp hspares hspares'
    exact ⟨result, hfirst, hsecond, hshows, hshows', f, Or.inl hf⟩
  · obtain ⟨result, hfirst, hsecond, hshows, hshows', f, hf⟩ :=
      applyAll_comm_of_precedes hproper.2 hproper.1 hprecedes hs hspares'.swap hspares.swap
    exact ⟨result, hsecond, hfirst, hshows', hshows, f, Or.inr hf⟩

end Commute

namespace Sample

def angles : Edit := ⟨⟨"<".toList, ">".toList⟩, ["p".toList]⟩
def brackets : Edit := ⟨⟨"[".toList, "]".toList⟩, ["y".toList, "z".toList]⟩

/-- A text in which one region is closed on the line that opens another. -/
def linkedText : Text := "a <\nx\n > [ b\r\n] <\n".toList

end Sample

theorem edits_commute_linked :
    (∀ m ∈ markers Sample.angles.region Sample.brackets.region, IsMarker m) ∧
    Sample.angles.region.apart Sample.brackets.region Sample.linkedText = true ∧
    ∃ result, Edit.applyAll [Sample.angles, Sample.brackets] Sample.linkedText = .ok result ∧
      Edit.applyAll [Sample.brackets, Sample.angles] Sample.linkedText = .ok result ∧
      Sample.angles.region.Shows result Sample.angles.lines ∧
      Sample.brackets.region.Shows result Sample.brackets.lines ∧
      ∃ f : Frame, f.Surrounds Sample.angles.region Sample.brackets.region Sample.linkedText ∧
          f.Surrounds Sample.angles.region Sample.brackets.region result ∨
        f.Surrounds Sample.brackets.region Sample.angles.region Sample.linkedText ∧
          f.Surrounds Sample.brackets.region Sample.angles.region result := by
  have hmarkers : ∀ m ∈ markers Sample.angles.region Sample.brackets.region, IsMarker m := by
    simp only [markers, List.forall_mem_cons, List.not_mem_nil, false_implies, implies_true,
      and_true]
    refine ⟨?_, ?_, ?_, ?_⟩ <;> constructor <;> decide
  have hapart : Sample.angles.region.apart Sample.brackets.region Sample.linkedText = true := by
    decide
  have hangles : Sample.angles.region.split Sample.linkedText =
      .ok ⟨"a <\n".toList, "x\n".toList, " > [ b\r\n] <\n".toList, []⟩ := rfl
  have hbrackets : Sample.brackets.region.split Sample.linkedText =
      .ok ⟨"a <\nx\n > [ b\r\n".toList, [], "] <\n".toList, " ".toList⟩ := rfl
  exact ⟨hmarkers, hapart, edits_commute hmarkers hangles hbrackets hapart (by decide) (by decide)⟩

end SuiteMake.Region

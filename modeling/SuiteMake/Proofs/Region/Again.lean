import SuiteMake.EntryPoint.Basic
import SuiteMake.Proofs.Except
import SuiteMake.Proofs.Region.Row

/-!
# Editing a text again

An edit of two regions leaves their markers where they are, unless a marker of the first stands on
one of the lines of the second. So a header can be edited again and again if its regions stand
apart, and also if they are one and the same.
-/

namespace SuiteMake

namespace Text

theorem infix_of_append {pat u v : Text} (hu : Absent pat u v) (h : pat <:+: u ++ v) :
    pat <:+: v := by
  apply Decidable.of_not_not
  intro hv
  have hcut := cut?_append_of_absent hu
  rw [cut?_eq_none_iff.mpr hv, Option.map_none, cut?_eq_none_iff] at hcut
  exact hcut h

theorem IsLines.infix_of_append {pat u v : Text} (hu : IsLines u) (hne : pat ≠ [])
    (hn : '\n' ∉ pat) (h : pat <:+: u ++ v) : pat <:+: u ∨ pat <:+: v := by
  by_cases hpat : pat <:+: u
  · exact Or.inl hpat
  · exact Or.inr (Text.infix_of_append ((hu.absent_iff hne hn).mpr hpat) h)

theorem IsLines.right {u v : Text} (h : IsLines (u ++ v)) : IsLines v := by
  rcases List.eq_nil_or_concat v with rfl | ⟨x, c, rfl⟩
  · exact isLines_nil
  · rcases h with hnil | ⟨y, hy⟩
    · simp at hnil
    · rw [List.concat_eq_append, ← List.append_assoc] at hy
      have hc : [c] = ['\n'] := List.append_inj_right' hy rfl
      rw [List.concat_eq_append, hc]
      exact isLines_concat x

theorem IsLines.newline_mem {u : Text} (h : IsLines u) (hne : u ≠ []) : '\n' ∈ u := by
  rcases h with hnil | ⟨x, rfl⟩
  · exact absurd hnil hne
  · simp

theorem infix_of_concat {pat u : Text} {c : Char} (hne : pat ≠ []) (hc : c ∉ pat)
    (h : pat <:+: u ++ [c]) : pat <:+: u := by
  rcases List.infix_concat_iff.mp h with hsuffix | hinfix
  · rcases List.suffix_concat_iff.mp hsuffix with hnil | ⟨t, ht, -⟩
    · exact absurd hnil hne
    · exact absurd (by simp [ht]) hc
  · exact hinfix

end Text

namespace Region

open Text

/-- A marker that stands on one line and has no part in the indentation before it or the line
ending after it. -/
structure IsMarker (m : Text) : Prop where
  ne_nil : m ≠ []
  newline : '\n' ∉ m
  carriage : '\r' ∉ m
  head : m.head?.any isBlank = false

private theorem infix_of_ending {m u : Text} (hm : IsMarker m) (head : Text)
    (h : m <:+: u ++ lineEnding head) : m <:+: u := by
  rw [lineEnding] at h
  split at h
  · rw [List.append_cons] at h
    exact infix_of_concat hm.ne_nil hm.carriage (infix_of_concat hm.ne_nil hm.newline h)
  · exact infix_of_concat hm.ne_nil hm.newline h

private theorem infix_of_indent {m indent line : Text} (hm : IsMarker m)
    (hindent : ∀ c ∈ indent, isBlank c = true) (h : m <:+: indent ++ line) : m <:+: line := by
  cases m with
  | nil => exact absurd rfl hm.ne_nil
  | cons c m =>
      have hc : c ∉ indent := by
        intro hmem
        have hblank : isBlank c = false := hm.head
        rw [hindent c hmem] at hblank
        cases hblank
      exact infix_of_append (absent_of_head_notMem hc m line) h

theorem spares_of_lines {markers lines : List Text} (hm : ∀ m ∈ markers, IsMarker m)
    (hl : ∀ line ∈ lines, ∀ m ∈ markers, ¬ m <:+: line) : Spares markers lines := by
  intro head indent hindent m hmem hwithin
  have hmarker := hm m hmem
  induction lines with
  | nil => exact hmarker.ne_nil (List.infix_nil.mp hwithin)
  | cons line lines ih =>
      have hlines : IsLines (indent ++ line ++ lineEnding head) := by
        simpa [laid] using laid_isLines head indent [line]
      rw [laid, List.flatMap_cons] at hwithin
      rcases hlines.infix_of_append hmarker.ne_nil hmarker.newline hwithin with hfirst | hrest
      · have hline := infix_of_indent hmarker hindent (infix_of_ending hmarker head hfirst)
        exact hl line List.mem_cons_self m hmem hline
      · exact ih (fun line hline => hl line (List.mem_cons_of_mem _ hline)) hrest

/-- Whether the edit of `q` keeps both lines on which the markers of `r` stand, the one that ends
with the head of `r` and the one that starts with its tail. -/
def keeps (q r : Region) (text : Text) : Bool :=
  match q.split text, r.split text with
  | .ok p, .ok s =>
    (s.head.length ≤ p.head.length || p.head.length + p.body.length < s.head.length) &&
    (s.head.length + s.body.length < p.head.length ||
      p.head.length + p.body.length ≤ s.head.length + s.body.length)
  | _, _ => false

section Keeps

variable {r q : Region} {text : Text} {s p : Split}

/-- Whole lines that are shorter than a head end before the line of its marker. -/
private theorem prefix_before {head before line u : Text}
    (hhead : head = before ++ (r.start ++ (line ++ ['\n']))) (hstart : '\n' ∉ r.start)
    (hline : '\n' ∉ line) (hu : IsLines u) (hu_text : u <+: text) (hhead_text : head <+: text)
    (hlt : u.length < head.length) : u <+: before := by
  have hpart := List.prefix_of_prefix_length_le hu_text hhead_text (Nat.le_of_lt hlt)
  have hne : u ≠ head := by
    intro heq
    rw [heq] at hlt
    exact Nat.lt_irrefl _ hlt
  have hbefore : before <+: head := ⟨_, hhead.symm⟩
  rcases Nat.le_total u.length before.length with hle | hle
  · exact List.prefix_of_prefix_length_le hpart hbefore hle
  · obtain ⟨w, rfl⟩ := List.prefix_of_prefix_length_le hbefore hpart hle
    by_cases hw : w = []
    · simp [hw]
    · -- the last newline of these lines would stand on the line of the marker
      exfalso
      have hnewline : '\n' ∈ w := hu.right.newline_mem hw
      rw [hhead, List.prefix_append_right_inj, ← List.append_assoc, List.prefix_concat_iff] at hpart
      rcases hpart with hall | hshort
      · exact hne (by rw [hhead, hall, List.append_assoc])
      · rcases List.mem_append.mp (hshort.subset hnewline) with hmem | hmem
        · exact hstart hmem
        · exact hline hmem

theorem split_prefixes (hs : r.split text = .ok s) :
    s.head <+: text ∧ s.head ++ s.body <+: text := by
  have htext := (split_eq_ok_iff.mp hs).1
  exact ⟨⟨s.body ++ s.tail, htext.symm⟩, ⟨s.tail, by rw [htext, List.append_assoc]⟩⟩

private theorem precedes_of_lt (hq : q.Proper) (hs : r.split text = .ok s)
    (hp : q.split text = .ok p) (hlt : s.head.length + s.body.length < p.head.length) :
    r.precedes q text = true := by
  have hs_parts := split_eq_ok_iff.mp hs
  obtain ⟨htext, ⟨before, line, hhead, habsent, hline, -⟩, -⟩ := split_eq_ok_iff.mp hp
  rw [← List.length_append] at hlt
  have hbefore : s.head ++ s.body <+: before :=
    prefix_before hhead hq.start_line hline (hs_parts.2.1.isLines.append hs_parts.2.2.1)
      (split_prefixes hs).2 (split_prefixes hp).1 hlt
  have hcut : cut? q.start text = some (before, line ++ ['\n'] ++ (p.body ++ p.tail)) := by
    rw [cut?_eq_some_iff]
    refine ⟨?_, habsent⟩
    rw [htext, hhead]
    simp
  refine precedes_iff.mpr ⟨s, before, _, hs, hcut, ?_⟩
  rw [← List.length_append]
  exact hbefore.length_le

/-- A head that is longer than that of a region reaches beyond the lines of the region, unless its
marker is on one of them. -/
private theorem lt_of_head_lt (hq : q.Proper) (hs : r.split text = .ok s)
    (hp : q.split text = .ok p) (hstart : ¬ q.start <:+: s.body)
    (hlt : s.head.length < p.head.length) :
    s.head.length + s.body.length < p.head.length := by
  apply Decidable.of_not_not
  intro hge
  obtain ⟨-, ⟨before, line, hhead, -, hline, -⟩, -⟩ := split_eq_ok_iff.mp hp
  have hbefore : s.head <+: before :=
    prefix_before hhead hq.start_line hline (split_eq_ok_iff.mp hs).2.1.isLines
      (split_prefixes hs).1 (split_prefixes hp).1 hlt
  have hinside : p.head <+: s.head ++ s.body := by
    apply List.prefix_of_prefix_length_le (split_prefixes hp).1 (split_prefixes hs).2
    rw [List.length_append]
    omega
  obtain ⟨b, rfl⟩ := hbefore
  rw [hhead, List.append_assoc, List.prefix_append_right_inj] at hinside
  exact hstart (List.IsInfix.trans ⟨b, line ++ ['\n'], by simp⟩ hinside.isInfix)

/-- Regions with the same head have the same lines if the second has no more of them and is closed
on none of those of the first. -/
private theorem body_eq_of_head_eq (hq : q.Proper) (hs : r.split text = .ok s)
    (hp : q.split text = .ok p) (hstop : ¬ q.stop <:+: s.body) (hhead : s.head = p.head)
    (hle : p.body.length ≤ s.body.length) : s.body = p.body := by
  obtain ⟨hs_text, -, hs_body, -, -⟩ := split_eq_ok_iff.mp hs
  obtain ⟨hp_text, -, -, -, hp_closes⟩ := split_eq_ok_iff.mp hp
  have hrest : s.body ++ s.tail = p.body ++ p.tail := by
    rw [hs_text, hhead] at hp_text
    exact List.append_cancel_left hp_text
  obtain ⟨w, hw⟩ : p.body <+: s.body :=
    List.prefix_of_prefix_length_le ⟨p.tail, hrest.symm⟩ (List.prefix_append _ _) hle
  by_cases hnil : w = []
  · rw [← hw, hnil, List.append_nil]
  · exfalso
    rw [← hw, List.append_assoc] at hrest
    rw [← List.append_cancel_left hrest] at hp_closes
    rw [← hw] at hs_body
    obtain ⟨upTo, beyond, hclose, -, -⟩ :=
      hp_closes.of_append (hs_body.right.newline_mem hnil) hq.stop_line
    apply hstop
    rw [← hw, hclose]
    exact ⟨p.body ++ upTo, beyond, by simp⟩

/-- A region that keeps the markers of another stands apart from it or has the same lines, if none
of its own markers is on the lines of the other. -/
private theorem apart_or_same (hr : r.Proper) (hq : q.Proper) (hs : r.split text = .ok s)
    (hp : q.split text = .ok p) (hstart : ¬ q.start <:+: s.body) (hstop : ¬ q.stop <:+: s.body)
    (hkeeps : q.keeps r text = true) :
    r.apart q text = true ∨ s.head = p.head ∧ s.body = p.body := by
  rw [keeps, hs, hp] at hkeeps
  simp only [Bool.and_eq_true, Bool.or_eq_true, decide_eq_true_eq] at hkeeps
  rw [apart, Bool.or_eq_true]
  -- the region whose head is shorter comes first; equal heads leave the same lines to both
  rcases Nat.lt_trichotomy s.head.length p.head.length with hlt | heq | hgt
  · exact Or.inl (Or.inl (precedes_of_lt hq hs hp (lt_of_head_lt hq hs hp hstart hlt)))
  · right
    have hhead : s.head = p.head :=
      (List.prefix_of_prefix_length_le (split_prefixes hs).1 (split_prefixes hp).1
        (Nat.le_of_eq heq)).eq_of_length heq
    exact ⟨hhead, body_eq_of_head_eq hq hs hp hstop hhead (by omega)⟩
  · have hlt := hkeeps.1.resolve_left (Nat.not_le_of_lt hgt)
    exact Or.inl (Or.inr (precedes_of_lt hr hp hs hlt))

end Keeps

private theorem applyAll_same {r q : Region} (hr : r.Proper) (hq : q.Proper)
    {head tail indent indent' y : Text} (hopens : r.Opens head indent)
    (hopens' : q.Opens head indent') (hcloses : r.Closes tail) (hcloses' : q.Closes tail)
    (hlines : IsLines y) (hstop : ¬ r.stop <:+: y) {new : List Text}
    (hn : Spares (markers r q) new) (new' : List Text) :
    ∃ final, Edit.applyAll [⟨r, new⟩, ⟨q, new'⟩] (head ++ (y ++ tail)) = .ok final := by
  have hfirst := split_exchange hopens hcloses hlines
    ((hlines.absent_iff hr.stop_ne hr.stop_line).mpr hstop)
  have hfree : ¬ q.stop <:+: laid head indent new := hn.free hopens (by simp [markers])
  have hsecond := split_exchange hopens' hcloses' (laid_isLines head indent new)
    (((laid_isLines head indent new).absent_iff hq.stop_ne hq.stop_line).mpr hfree)
  refine ⟨head ++ (laid head indent' new' ++ tail), ?_⟩
  have hnew : r.splice new (head ++ (y ++ tail)) = .ok (head ++ (laid head indent new ++ tail)) :=
    splice_eq_ok_iff.mpr ⟨_, hfirst, rfl⟩
  have hnew' : q.splice new' (head ++ (laid head indent new ++ tail)) =
      .ok (head ++ (laid head indent' new' ++ tail)) :=
    splice_eq_ok_iff.mpr ⟨_, hsecond, rfl⟩
  simp only [Edit.applyAll, hnew, hnew']

/-- After edits of two regions the second of which keeps the markers of the first, both can be
edited anew. -/
theorem applyAll_anew {r q : Region} (hr : r.Proper) (hq : q.Proper) {text between result : Text}
    {lines lines' new new' : List Text} (hl : Spares (markers r q) lines)
    (hl' : Spares (markers r q) lines') (hn : Spares (markers r q) new)
    (hn' : Spares (markers r q) new') (hfirst : r.splice lines text = .ok between)
    (hkeeps : q.keeps r between = true) (hsecond : q.splice lines' between = .ok result) :
    ∃ final, Edit.applyAll [⟨r, new⟩, ⟨q, new'⟩] result = .ok final := by
  have hstop : Spares [r.stop] lines := hl.mono (by simp [markers])
  obtain ⟨s, -, hs⟩ := split_of_splice hr hstop hfirst
  obtain ⟨p, hp, hresult⟩ := splice_eq_ok_iff.mp hsecond
  obtain ⟨hs_text, hs_opens, -, -, hs_closes⟩ := split_eq_ok_iff.mp hs
  obtain ⟨hp_text, hp_opens, -, -, hp_closes⟩ := split_eq_ok_iff.mp hp
  rcases apart_or_same hr hq hs hp (hl.free hs_opens (by simp [markers]))
    (hl.free hs_opens (by simp [markers])) hkeeps with hapart | ⟨hhead, hbody⟩
  · have hboth : Edit.applyAll [⟨r, lines⟩, ⟨q, lines'⟩] between = .ok result := by
      simp only [Edit.applyAll, (splice_shows hr hstop hfirst).2, hsecond]
    exact applyAll_apart_anew hr hq hapart hl hl' hn hn' hboth
  · dsimp only at hhead hbody
    have htail : s.tail = p.tail := by
      rw [hs_text, ← hhead, ← hbody] at hp_text
      exact List.append_cancel_left (List.append_cancel_left hp_text)
    rw [hresult]
    rw [htail] at hs_closes
    rw [hhead] at hs_opens
    exact applyAll_same hr hq hs_opens hp_opens hs_closes hp_closes (laid_isLines _ _ _)
      (hl'.free hp_opens (by simp [markers])) hn new'

theorem isMarker_of_header : ∀ m ∈ markers cDeclarations cppDeclarations, IsMarker m := by
  simp only [markers, List.forall_mem_cons, List.not_mem_nil, false_implies, implies_true, and_true]
  refine ⟨?_, ?_, ?_, ?_⟩ <;> constructor <;> decide

end Region

/-- No declaration holds a marker of the header. -/
def EntryIndex.LacksMarkers (i : EntryIndex) : Prop :=
  ∀ l, ∀ line ∈ i.declarations l, ∀ m ∈ Region.markers .cDeclarations .cppDeclarations,
    ¬ m <:+: line

theorem EntryIndex.LacksMarkers.spares {i : EntryIndex} (h : i.LacksMarkers) (l : Language) :
    Region.Spares (Region.markers .cDeclarations .cppDeclarations) (i.declarations l) :=
  Region.spares_of_lines Region.isMarker_of_header (h l)

/-- Declarations put into a header do not keep others from being put there later, if the edit for
C++ keeps the lines on which the markers for C stand. -/
theorem header_edits_repeatable {i i' : EntryIndex} (hi : i.LacksMarkers) (hi' : i'.LacksMarkers)
    {text between result : Text}
    (hfirst : Region.cDeclarations.splice (i.declarations .c) text = .ok between)
    (hkeeps : Region.cppDeclarations.keeps .cDeclarations between = true)
    (h : Edit.applyAll i.declarationEdits text = .ok result) :
    ∃ final, Edit.applyAll i'.declarationEdits result = .ok final := by
  have hsecond : Region.cppDeclarations.splice (i.declarations .cpp) between = .ok result := by
    obtain ⟨text', htext', hrest⟩ := Edit.applyAll_cons h
    obtain ⟨final, hfinal, hdone⟩ := Edit.applyAll_cons hrest
    cases hfirst.symm.trans htext'
    cases hdone
    exact hfinal
  exact Region.applyAll_anew Region.cDeclarations_proper Region.cppDeclarations_proper
    (hi.spares .c) (hi.spares .cpp) (hi'.spares .c) (hi'.spares .cpp) hfirst hkeeps hsecond

namespace Sample

def goodInC : EntryPoint := ⟨"CWE1.c".toList, .c, "CWE1".toList, .good, true⟩
def badInCpp : EntryPoint := ⟨"CWE2.cpp".toList, .cpp, "CWE2".toList, .bad, true⟩

def twoEntries : EntryIndex := ⟨[goodInC, badInCpp], [goodInC, badInCpp]⟩

/-- A header whose regions share their marker lines, with some lines between these. -/
def sharedHeader (lines : Text) : Text :=
  Region.cDeclarations.start ++ Region.cppDeclarations.start ++ '\n' :: lines ++
    Region.cppDeclarations.stop ++ Region.cDeclarations.stop ++ ['\n']

/-- A header in which the region for C stands inside the region for C++. -/
def nestedHeader : Text :=
  Region.cppDeclarations.start ++ '\n' :: Region.cDeclarations.start ++ '\n' ::
    Region.cDeclarations.stop ++ '\n' :: Region.cppDeclarations.stop ++ ['\n']

/-- What is left of that header when its regions have been edited in turn. -/
def outerHeader : Text :=
  Region.cppDeclarations.start ++ '\n' :: badInCpp.declaration ++ '\n' ::
    Region.cppDeclarations.stop ++ ['\n']

private theorem headers_evaluated : twoEntries.LacksMarkers ∧
    ((Region.cDeclarations.splice (twoEntries.declarations .c) (sharedHeader [])).toOption =
        some (sharedHeader (goodInC.declaration ++ ['\n'])) ∧
      Region.cppDeclarations.keeps .cDeclarations
        (sharedHeader (goodInC.declaration ++ ['\n'])) = true ∧
      (Edit.applyAll twoEntries.declarationEdits (sharedHeader [])).toOption =
        some (sharedHeader (badInCpp.declaration ++ ['\n']))) ∧
    (Edit.applyAll twoEntries.declarationEdits nestedHeader).toOption = some outerHeader ∧
      (Edit.applyAll twoEntries.declarationEdits outerHeader).toOption = none := by
  refine ⟨?_, by decide +kernel⟩
  intro l
  cases l <;> decide +kernel

end Sample

theorem header_edits_repeatable_shared :
    Sample.twoEntries.LacksMarkers ∧
    Region.cDeclarations.splice (Sample.twoEntries.declarations .c) (Sample.sharedHeader []) =
      .ok (Sample.sharedHeader (Sample.goodInC.declaration ++ ['\n'])) ∧
    Region.cppDeclarations.keeps .cDeclarations
      (Sample.sharedHeader (Sample.goodInC.declaration ++ ['\n'])) = true ∧
    Edit.applyAll Sample.twoEntries.declarationEdits (Sample.sharedHeader []) =
      .ok (Sample.sharedHeader (Sample.badInCpp.declaration ++ ['\n'])) ∧
    ∃ final, Edit.applyAll Sample.twoEntries.declarationEdits
      (Sample.sharedHeader (Sample.badInCpp.declaration ++ ['\n'])) = .ok final := by
  have ⟨hlacks, ⟨hsplice, hkeeps, hall⟩, _⟩ := Sample.headers_evaluated
  have hfirst := toOption_eq_some_iff.mp hsplice
  have hresult := toOption_eq_some_iff.mp hall
  exact ⟨hlacks, hfirst, hkeeps, hresult,
    header_edits_repeatable hlacks hlacks hfirst hkeeps hresult⟩

/-- Where the region for C stands inside the region for C++, an edit of both takes the markers for
C away. -/
theorem header_edits_fail_nested :
    Sample.twoEntries.LacksMarkers ∧
    Edit.applyAll Sample.twoEntries.declarationEdits Sample.nestedHeader = .ok Sample.outerHeader ∧
    ¬ ∃ final, Edit.applyAll Sample.twoEntries.declarationEdits Sample.outerHeader = .ok final := by
  have ⟨hlacks, _, hfirst, hsecond⟩ := Sample.headers_evaluated
  refine ⟨hlacks, toOption_eq_some_iff.mp hfirst, ?_⟩
  intro ⟨final, hfinal⟩
  rw [toOption_eq_some_iff.mpr hfinal] at hsecond
  exact Option.some_ne_none final hsecond

end SuiteMake

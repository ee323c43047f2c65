import SuiteMake.Proofs.Text.Split

/-!
# Line endings

With carriage returns before its newlines a text has the same lines, each but the last longer by one
character. What stands on a single line is found at the same places in both texts.
-/

namespace SuiteMake.Text

theorem crlf_append (t u : Text) : crlf (t ++ u) = crlf t ++ crlf u := List.flatMap_append

theorem crlf_newline (t : Text) : crlf ('\n' :: t) = '\r' :: '\n' :: crlf t := rfl

theorem crlf_cons {c : Char} (hc : c ≠ '\n') (t : Text) : crlf (c :: t) = c :: crlf t := by
  rw [crlf, List.flatMap_cons, if_neg hc, List.singleton_append, crlf]

theorem crlf_of_notMem {t : Text} (h : '\n' ∉ t) : crlf t = t := by
  induction t with
  | nil => rfl
  | cons c t ih =>
      rw [crlf_cons (List.ne_of_not_mem_cons h).symm, ih (List.not_mem_of_not_mem_cons h)]

theorem crlf_line {line : Text} (h : '\n' ∉ line) (more : Text) :
    crlf (line ++ '\n' :: more) = line ++ '\r' :: '\n' :: crlf more := by
  rw [crlf_append, crlf_of_notMem h, crlf_newline]

theorem IsLines.crlf {u : Text} (h : IsLines u) : IsLines (crlf u) := by
  rcases h with h | h
  · rw [h]
    exact isLines_nil
  · obtain ⟨x, hx⟩ := h
    rw [hx, crlf_append]
    exact Or.inr ⟨Text.crlf x ++ ['\r'], by simp [crlf_newline, crlf_of_notMem]⟩

section Pattern

variable {pat : Text} (hreturn : '\r' ∉ pat) (hnewline : '\n' ∉ pat)

include hreturn hnewline

theorem isPrefixOf?_crlf (t : Text) : pat.isPrefixOf? (crlf t) = (pat.isPrefixOf? t).map crlf := by
  induction pat generalizing t with
  | nil => rfl
  | cons a pat ih =>
      cases t with
      | nil => rfl
      | cons c t =>
          have hstep (d : Char) (u : Text) : (a :: pat).isPrefixOf? (d :: u) =
              if a == d then pat.isPrefixOf? u else none := rfl
          have hra : (a == '\r') = false := by simpa using (List.ne_of_not_mem_cons hreturn).symm
          have hna : (a == '\n') = false := by simpa using (List.ne_of_not_mem_cons hnewline).symm
          by_cases hc : c = '\n'
          · simp [hc, crlf_newline, hstep, hra, hna]
          · rw [crlf_cons hc, hstep, hstep, ih (List.not_mem_of_not_mem_cons hreturn)
              (List.not_mem_of_not_mem_cons hnewline)]
            split <;> rfl

/-- A pattern that does not occur at the head of a text does not occur there after the rewriting,
neither at the carriage return that may be put in nor behind it. -/
private theorem absent_crlf_head {c : Char} {t : Text} (h : pat.isPrefixOf? (c :: t) = none) :
    Absent pat (crlf [c]) (crlf t) := by
  by_cases hc : c = '\n'
  · cases pat with
    | nil => cases h
    | cons a pat =>
        have ha : a ∉ crlf [c] := by
          rw [hc, crlf_newline]
          simpa [crlf] using
            ⟨(List.ne_of_not_mem_cons hreturn).symm, (List.ne_of_not_mem_cons hnewline).symm⟩
        exact absent_of_head_notMem ha pat _
  · have hone : crlf [c] = [c] := crlf_cons hc []
    rw [hone, absent_cons, List.nil_append, ← crlf_cons hc]
    refine ⟨?_, absent_nil pat _⟩
    rw [← isPrefixOf?_eq_none_iff, isPrefixOf?_crlf hreturn hnewline, h]
    rfl

theorem cut?_crlf (t : Text) :
    cut? pat (crlf t) = (cut? pat t).map fun (before, after) => (crlf before, crlf after) := by
  induction t with
  | nil =>
      by_cases hpat : pat = [] <;> simp [crlf, cut?, hpat]
  | cons c t ih =>
      cases hread : pat.isPrefixOf? (c :: t) with
      | some rest =>
          rw [← List.append_eq_of_isPrefixOf?_eq_some hread, crlf_append, crlf_of_notMem hnewline,
            cut?_append_self, cut?_append_self]
          rfl
      | none =>
          have hcut : cut? pat (c :: t) =
              (cut? pat t).map fun (before, after) => (c :: before, after) := by
            rw [cut?, hread]
          rw [← List.singleton_append, crlf_append,
            cut?_append_of_absent (absent_crlf_head hreturn hnewline hread), ih,
            List.singleton_append, hcut, Option.map_map, Option.map_map]
          congr 1
          funext parts
          exact Prod.ext (crlf_append [c] parts.1).symm rfl

end Pattern

theorem cut?_newline_crlf (t : Text) :
    cut? ['\n'] (crlf t) =
      (cut? ['\n'] t).map fun (line, rest) => (line ++ ['\r'], crlf rest) := by
  cases hcut : cut? ['\n'] t with
  | none =>
      have hfree : '\n' ∉ t := by
        intro hmem
        obtain ⟨u, v, ht⟩ := List.append_of_mem hmem
        exact cut?_eq_none_iff.mp hcut ⟨u, v, by simp [ht]⟩
      rw [crlf_of_notMem hfree, hcut]
      rfl
  | some parts =>
      have hparts : t = parts.1 ++ '\n' :: parts.2 ∧ '\n' ∉ parts.1 :=
        cut?_singleton_eq_some_iff.mp hcut
      rw [hparts.1, crlf_line hparts.2]
      apply cut?_singleton_eq_some_iff.mpr
      exact ⟨by simp, by simp [hparts.2]⟩

theorem splitLastLine_crlf (t : Text) :
    splitLastLine (crlf t) = (crlf (splitLastLine t).1, (splitLastLine t).2) := by
  have hparts : t = (splitLastLine t).1 ++ (splitLastLine t).2 ∧ IsLines (splitLastLine t).1 ∧
      '\n' ∉ (splitLastLine t).2 := splitLastLine_eq_iff.mp rfl
  rw [splitLastLine_eq_iff]
  refine ⟨?_, hparts.2.1.crlf, hparts.2.2⟩
  calc crlf t
      = crlf ((splitLastLine t).1 ++ (splitLastLine t).2) := congrArg crlf hparts.1
    _ = crlf (splitLastLine t).1 ++ (splitLastLine t).2 := by
        rw [crlf_append, crlf_of_notMem hparts.2.2]

end SuiteMake.Text

import SuiteMake.Proofs.Text.Cut

/-!
# Pieces of a text

Splitting at a character gives pieces without it, and joining pieces adds nothing but what
stands between them.
-/

namespace SuiteMake.Text

theorem notMem_of_mem_splitOn {t piece : Text} {sep : Char} (h : piece ∈ t.splitOn sep) :
    sep ∉ piece ∧ ∀ c ∈ piece, c ∈ t := by
  induction t generalizing piece with
  | nil =>
      rw [List.splitOn_nil, List.mem_singleton] at h
      simp [h]
  | cons c t ih =>
      rw [List.splitOn_cons_eq_if_modifyHead] at h
      split at h
      · rcases List.mem_cons.mp h with rfl | h
        · simp
        · exact ⟨(ih h).1, fun d hd => List.mem_cons_of_mem c ((ih h).2 d hd)⟩
      · rename_i hc
        obtain ⟨first, rest, hpieces⟩ := List.exists_cons_of_ne_nil (List.splitOn_ne_nil sep t)
        rw [hpieces, List.modifyHead_cons] at h
        have hmem : ∀ p ∈ first :: rest, sep ∉ p ∧ ∀ d ∈ p, d ∈ t := by
          rw [← hpieces]
          exact fun p hp => ih hp
        rcases List.mem_cons.mp h with rfl | h
        · have hfirst := hmem first List.mem_cons_self
          refine ⟨?_, ?_⟩
          · rw [List.mem_cons, not_or]
            exact ⟨fun heq => hc (by simp [heq]), hfirst.1⟩
          · intro d hd
            rcases List.mem_cons.mp hd with rfl | hd
            · exact List.mem_cons_self
            · exact List.mem_cons_of_mem c (hfirst.2 d hd)
        · have hrest := hmem piece (List.mem_cons_of_mem first h)
          exact ⟨hrest.1, fun d hd => List.mem_cons_of_mem c (hrest.2 d hd)⟩

theorem lines_flatMap {ls : List Text} (h : ∀ l ∈ ls, '\n' ∉ l) (rest : Text) :
    lines (ls.flatMap (· ++ ['\n']) ++ rest) = ls ++ lines rest := by
  induction ls with
  | nil => rfl
  | cons l ls ih =>
      have hl : '\n' ∉ l := h l List.mem_cons_self
      have htail := ih fun k hk => h k (List.mem_cons_of_mem l hk)
      rw [List.flatMap_cons, List.append_assoc, List.append_assoc, List.singleton_append]
      rw [lines, List.splitOn_append_cons_self_of_not_mem hl]
      exact congrArg (l :: ·) htail

theorem intercalate_concat {sep y : Text} {xs : List Text} (h : xs ≠ []) :
    List.intercalate sep (xs ++ [y]) = List.intercalate sep xs ++ (sep ++ y) := by
  induction xs with
  | nil => exact absurd rfl h
  | cons x xs ih =>
      cases xs with
      | nil => simp [List.intercalate_cons_cons]
      | cons z xs =>
          rw [List.cons_append, List.cons_append, List.intercalate_cons_cons, ← List.cons_append,
            ih (by simp), List.intercalate_cons_cons]
          simp only [List.append_assoc]

theorem mem_intercalate {sep : Text} {xs : List Text} {c : Char}
    (h : c ∈ List.intercalate sep xs) : c ∈ sep ∨ ∃ x ∈ xs, c ∈ x := by
  induction xs with
  | nil => simp at h
  | cons x xs ih =>
      cases xs with
      | nil => exact Or.inr ⟨x, List.mem_cons_self, by simpa using h⟩
      | cons y xs =>
          rw [List.intercalate_cons_cons, List.mem_append, List.mem_append] at h
          rcases h with (h | h) | h
          · exact Or.inr ⟨x, List.mem_cons_self, h⟩
          · exact Or.inl h
          · rcases ih h with h | ⟨z, hz, h⟩
            · exact Or.inl h
            · exact Or.inr ⟨z, List.mem_cons_of_mem x hz, h⟩

theorem afterLast_append {sep : Char} {u t : Text} (h : sep ∉ t) :
    afterLast sep (u ++ sep :: t) = t := by
  rw [afterLast, cutLast?_eq_some_iff.mpr ⟨rfl, h⟩]

theorem afterLast_of_notMem {sep : Char} {t : Text} (h : sep ∉ t) : afterLast sep t = t := by
  rw [afterLast, cutLast?_eq_none_iff.mpr h]

theorem afterLast_append_cons (sep : Char) (u t : Text) :
    afterLast sep (u ++ sep :: t) = afterLast sep t := by
  cases hcut : cutLast? sep t with
  | none =>
      have hfree := cutLast?_eq_none_iff.mp hcut
      rw [afterLast_append hfree, afterLast_of_notMem hfree]
  | some parts =>
      obtain ⟨before, after⟩ := parts
      obtain ⟨rfl, hfree⟩ := cutLast?_eq_some_iff.mp hcut
      rw [afterLast_append hfree, ← List.cons_append, ← List.append_assoc, afterLast_append hfree]

theorem getLast?_splitOn (sep : Char) (t : Text) :
    (t.splitOn sep).getLast? = some (afterLast sep t) := by
  cases hcut : cutLast? sep t with
  | none =>
      have hfree := cutLast?_eq_none_iff.mp hcut
      rw [List.splitOn_eq_singleton hfree, afterLast_of_notMem hfree]
      rfl
  | some parts =>
      obtain ⟨before, after⟩ := parts
      obtain ⟨rfl, hfree⟩ := cutLast?_eq_some_iff.mp hcut
      rw [List.splitOn_append_cons_self, afterLast_append hfree, List.splitOn_eq_singleton hfree,
        List.getLast?_concat]

end SuiteMake.Text

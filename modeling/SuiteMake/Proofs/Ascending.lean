import SuiteMake.Ascending

/-!
# Members of ascending lists

Building an ascending list adds nothing, keeps every key, and lists each key once. Where keys tell
members apart, lists with the same members give the same ascending list.
-/

namespace SuiteMake

variable {α κ : Type} [LT κ] [DecidableLT κ] {key : α → κ}

private theorem mem_insertAscending {x y : α} {ys : List α} (h : y ∈ insertAscending key x ys) :
    y = x ∨ y ∈ ys := by
  induction ys with
  | nil => exact Or.inl (List.mem_singleton.mp h)
  | cons z ys ih =>
      rw [insertAscending] at h
      split at h
      · exact List.mem_cons.mp h
      · split at h
        · rcases List.mem_cons.mp h with rfl | h
          · exact Or.inr List.mem_cons_self
          · exact (ih h).imp_right (List.mem_cons_of_mem z)
        · exact Or.inr h

theorem mem_of_mem_ascending {y : α} {xs : List α} (h : y ∈ ascending key xs) : y ∈ xs := by
  induction xs with
  | nil => simp [ascending] at h
  | cons x xs ih =>
      rcases mem_insertAscending h with rfl | h
      · exact List.mem_cons_self
      · exact List.mem_cons_of_mem x (ih h)

private theorem exists_mem_insertAscending [Std.Trichotomous (· < · : κ → κ → Prop)] {x z : α}
    {ys : List α} (h : z = x ∨ z ∈ ys) : ∃ y ∈ insertAscending key x ys, key y = key z := by
  induction ys with
  | nil =>
      obtain rfl : z = x := by simpa using h
      exact ⟨z, by simp [insertAscending], rfl⟩
  | cons w ys ih =>
      rw [insertAscending]
      split
      · exact ⟨z, List.mem_cons.mpr h, rfl⟩
      · split
        · rcases h with h | h
          · obtain ⟨y, hy, hkey⟩ := ih (Or.inl h)
            exact ⟨y, List.mem_cons_of_mem w hy, hkey⟩
          · rcases List.mem_cons.mp h with rfl | h
            · exact ⟨z, List.mem_cons_self, rfl⟩
            · obtain ⟨y, hy, hkey⟩ := ih (Or.inr h)
              exact ⟨y, List.mem_cons_of_mem w hy, hkey⟩
        · rename_i hxw hwx
          rcases h with rfl | h
          · exact ⟨w, List.mem_cons_self, Std.Trichotomous.trichotomous _ _ hwx hxw⟩
          · exact ⟨z, h, rfl⟩

theorem exists_mem_ascending [Std.Trichotomous (· < · : κ → κ → Prop)] (key : α → κ) {x : α}
    {xs : List α} (h : x ∈ xs) : ∃ y ∈ ascending key xs, key y = key x := by
  induction xs with
  | nil => simp at h
  | cons z xs ih =>
      rcases List.mem_cons.mp h with rfl | h
      · exact exists_mem_insertAscending (Or.inl rfl)
      · obtain ⟨y, hy, hkey⟩ := ih h
        obtain ⟨w, hw, hkey'⟩ : ∃ w ∈ insertAscending key z (ascending key xs), key w = key y :=
          exists_mem_insertAscending (Or.inr hy)
        exact ⟨w, hw, hkey'.trans hkey⟩

section Sorted

variable [Trans (· < · : κ → κ → Prop) (· < · : κ → κ → Prop) (· < ·)]

private theorem insertAscending_pairwise {x : α} {ys : List α}
    (h : ys.Pairwise fun y z => key y < key z) :
    (insertAscending key x ys).Pairwise fun y z => key y < key z := by
  induction ys with
  | nil => exact List.pairwise_singleton _ _
  | cons y ys ih =>
      obtain ⟨hy, hys⟩ := List.pairwise_cons.mp h
      rw [insertAscending]
      split
      · rename_i hxy
        refine List.pairwise_cons.mpr ⟨?_, h⟩
        intro z hz
        rcases List.mem_cons.mp hz with rfl | hz
        · exact hxy
        · exact Trans.trans hxy (hy z hz)
      · split
        · rename_i hyx
          refine List.pairwise_cons.mpr ⟨?_, ih hys⟩
          intro z hz
          rcases mem_insertAscending hz with rfl | hz
          · exact hyx
          · exact hy z hz
        · exact h

theorem ascending_pairwise (xs : List α) :
    (ascending key xs).Pairwise fun x y => key x < key y := by
  induction xs with
  | nil => exact .nil
  | cons x xs ih => exact insertAscending_pairwise ih

variable [Std.Irrefl (· < · : κ → κ → Prop)]

omit [DecidableLT κ] [Trans (· < · : κ → κ → Prop) (· < · : κ → κ → Prop) (· < ·)] in
private theorem nodup_keys {xs : List α} (h : xs.Pairwise fun x y => key x < key y) :
    (xs.map key).Nodup := by
  rw [List.Nodup, List.pairwise_map]
  apply h.imp
  intro x y hlt heq
  rw [heq] at hlt
  exact Std.Irrefl.irrefl _ hlt

theorem ascending_nodup (xs : List α) : ((ascending key xs).map key).Nodup :=
  nodup_keys (ascending_pairwise xs)

omit [DecidableLT κ] in
private theorem eq_of_ascending {xs ys : List α} (hxs : xs.Pairwise fun x y => key x < key y)
    (hys : ys.Pairwise fun x y => key x < key y) (h : ∀ x, x ∈ xs ↔ x ∈ ys) : xs = ys := by
  have hnodup {zs : List α} (hzs : zs.Pairwise fun x y => key x < key y) : zs.Nodup :=
    (List.pairwise_map.mp (nodup_keys hzs)).imp fun hne heq => hne (congrArg key heq)
  have hperm : xs.Perm ys := (List.perm_ext_iff_of_nodup (hnodup hxs) (hnodup hys)).mpr h
  apply hperm.eq_of_pairwise _ hxs hys
  intro x y _ _ hxy hyx
  exact absurd (Trans.trans hxy hyx) (Std.Irrefl.irrefl _)

end Sorted

section Injective

variable [Std.Trichotomous (· < · : κ → κ → Prop)]
  (hkey : ∀ {x y : α}, key x = key y → x = y)

include hkey

theorem mem_ascending_iff {x : α} {xs : List α} : x ∈ ascending key xs ↔ x ∈ xs := by
  refine ⟨mem_of_mem_ascending, ?_⟩
  intro hx
  obtain ⟨y, hy, heq⟩ := exists_mem_ascending key hx
  rwa [hkey heq] at hy

variable [Std.Irrefl (· < · : κ → κ → Prop)]
  [Trans (· < · : κ → κ → Prop) (· < · : κ → κ → Prop) (· < ·)]

theorem ascending_congr {xs ys : List α} (h : ∀ x, x ∈ xs ↔ x ∈ ys) :
    ascending key xs = ascending key ys := by
  apply eq_of_ascending (ascending_pairwise xs) (ascending_pairwise ys)
  intro x
  rw [mem_ascending_iff hkey, mem_ascending_iff hkey, h]

theorem ascending_filter (p : α → Bool) (xs : List α) :
    (ascending key xs).filter p = ascending key (xs.filter p) := by
  apply eq_of_ascending ((ascending_pairwise xs).filter p) (ascending_pairwise _)
  intro x
  rw [List.mem_filter, mem_ascending_iff hkey, mem_ascending_iff hkey, List.mem_filter]

end Injective

end SuiteMake

/-!
# Computations that may fail

When a computation made of two parts, or of one part for each member of a list, succeeds.
-/

namespace SuiteMake

variable {ε α β : Type}

theorem toOption_eq_some_iff {x : Except ε α} {a : α} : x.toOption = some a ↔ x = .ok a := by
  cases x <;> simp [Except.toOption]

theorem eq_of_toOption_eq {x y : Except ε α} {a : α} (h : x.toOption = y.toOption)
    (hy : y = .ok a) : x = y := by
  rw [hy]
  exact toOption_eq_some_iff.mp (h.trans (toOption_eq_some_iff.mpr hy))

theorem eq_ok_of_toOption {x : Except ε α × β} {a : α} (h : x.1.toOption = some a) :
    x = (.ok a, x.2) := by
  rw [← toOption_eq_some_iff.mp h]

theorem bind_eq_ok_iff {x : Except ε α} {f : α → Except ε β} {b : β} :
    x >>= f = .ok b ↔ ∃ a, x = .ok a ∧ f a = .ok b := by
  cases x <;> simp [bind, Except.bind]

theorem mapM_cons_eq_ok_iff {f : α → Except ε β} {x : α} {xs : List α} {ys : List β} :
    (x :: xs).mapM f = .ok ys ↔
      ∃ y, f x = .ok y ∧ ∃ zs, xs.mapM f = .ok zs ∧ y :: zs = ys := by
  simp only [List.mapM_cons, bind_eq_ok_iff, pure, Except.pure, Except.ok.injEq]

theorem exists_of_mem_mapM {f : α → Except ε β} {xs : List α} {ys : List β}
    (h : xs.mapM f = .ok ys) {y : β} (hy : y ∈ ys) : ∃ x ∈ xs, f x = .ok y := by
  induction xs generalizing ys with
  | nil =>
      cases h
      simp at hy
  | cons x xs ih =>
      obtain ⟨z, hz, zs, hzs, rfl⟩ := mapM_cons_eq_ok_iff.mp h
      rcases List.mem_cons.mp hy with rfl | hy
      · exact ⟨x, List.mem_cons_self, hz⟩
      · obtain ⟨w, hw, hfw⟩ := ih hzs hy
        exact ⟨w, List.mem_cons_of_mem x hw, hfw⟩

theorem exists_mapM_eq_ok_iff {f : α → Except ε β} {xs : List α} :
    (∃ ys, xs.mapM f = .ok ys) ↔ ∀ x ∈ xs, ∃ y, f x = .ok y := by
  induction xs with
  | nil => simp [pure, Except.pure]
  | cons x xs ih =>
      simp only [mapM_cons_eq_ok_iff, List.forall_mem_cons, ← ih]
      constructor
      · intro ⟨_, y, hy, zs, hzs, _⟩
        exact ⟨⟨y, hy⟩, zs, hzs⟩
      · intro ⟨⟨y, hy⟩, zs, hzs⟩
        exact ⟨_, y, hy, zs, hzs, rfl⟩

theorem mapM_eq_ok_of_imp {f g : α → Except ε β} {xs : List α} {ys : List β}
    (hfg : ∀ x ∈ xs, ∀ y, f x = .ok y → g x = .ok y) (h : xs.mapM f = .ok ys) :
    xs.mapM g = .ok ys := by
  induction xs generalizing ys with
  | nil => exact h
  | cons x xs ih =>
      obtain ⟨y, hy, zs, hzs, rfl⟩ := mapM_cons_eq_ok_iff.mp h
      have htail := ih (fun x hx => hfg x (List.mem_cons_of_mem _ hx)) hzs
      exact mapM_cons_eq_ok_iff.mpr ⟨y, hfg x List.mem_cons_self y hy, zs, htail, rfl⟩

end SuiteMake

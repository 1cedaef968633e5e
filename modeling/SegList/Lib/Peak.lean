import Mathlib.Order.Bounds.Basic
import Mathlib.Order.MinMax

/-!
# The largest value along a fold

`along step f s ls`: the values of `f` at the states which the fold of `step` over `ls` goes through,
the first and the last one included.  A loop that compares the value with the largest one so far
ends with the largest of all (`isGreatest_cons`); when no step makes the value smaller, this is the
value at the end (`isGreatest_last`).
-/

namespace Peak

/-- the values of `f` along the fold -/
def along {σ ℓ α : Type} (step : σ → ℓ → σ) (f : σ → α) (s : σ) (ls : List ℓ) : Set α :=
  {x | ∃ pre, pre <+: ls ∧ x = f (pre.foldl step s)}

section
variable {σ ℓ α : Type} {step : σ → ℓ → σ} {f : σ → α} {s : σ} {l : ℓ} {ls pre : List ℓ}

theorem mem_along (h : pre <+: ls) : f (pre.foldl step s) ∈ along step f s ls := ⟨pre, h, rfl⟩

theorem along_nil : along step f s [] = {f s} := by
  ext x
  unfold along
  simp

theorem along_cons : along step f s (l :: ls) = insert (f s) (along step f (step s l) ls) := by
  ext x
  constructor
  · rintro ⟨pre, hpre, rfl⟩
    rcases List.prefix_cons_iff.mp hpre with rfl | ⟨t, rfl, ht⟩
    · exact Set.mem_insert _ _
    · exact Set.mem_insert_of_mem _ (mem_along ht)
  · rintro (rfl | ⟨pre, hpre, rfl⟩)
    · exact ⟨[], List.nil_prefix, rfl⟩
    · exact ⟨l :: pre, List.cons_prefix_cons.mpr ⟨rfl, hpre⟩, rfl⟩

variable [LinearOrder α] {m n : α}

theorem isGreatest_nil (h : f s ≤ m) : IsGreatest (insert m (along step f s [])) m := by
  rw [along_nil]
  refine ⟨Set.mem_insert _ _, ?_⟩
  rintro x (rfl | rfl)
  · exact le_refl _
  · exact h

/-- **One round** of such a loop: it compares the value after the step. -/
theorem isGreatest_cons (h : f s ≤ m)
    (hn : IsGreatest (insert (max m (f (step s l))) (along step f (step s l) ls)) n) :
    IsGreatest (insert m (along step f s (l :: ls))) n := by
  rw [along_cons]
  have hmax : max m (f (step s l)) ≤ n := hn.2 (Set.mem_insert _ _)
  refine ⟨?_, ?_⟩
  · rcases hn.1 with rfl | hmem
    · rcases max_choice m (f (step s l)) with e | e
      · rw [e]
        exact Set.mem_insert _ _
      · rw [e]
        exact Set.mem_insert_of_mem _ (Set.mem_insert_of_mem _ (mem_along List.nil_prefix))
    · exact Set.mem_insert_of_mem _ (Set.mem_insert_of_mem _ hmem)
  · rintro x (rfl | rfl | hx)
    · exact (le_max_left _ _).trans hmax
    · exact h.trans ((le_max_left _ _).trans hmax)
    · exact hn.2 (Set.mem_insert_of_mem _ hx)

/-- when no step makes the value smaller, the last one is the largest -/
theorem isGreatest_last (h : ∀ s l, f s ≤ f (step s l)) :
    IsGreatest (along step f s ls) (f (ls.foldl step s)) := by
  refine ⟨mem_along (List.prefix_refl _), ?_⟩
  have hfold : ∀ t (post : List ℓ), f t ≤ f (post.foldl step t) := by
    intro t post
    induction post generalizing t with
    | nil => exact le_refl _
    | cons l post ih => exact (h t l).trans (ih _)
  rintro x ⟨pre, ⟨post, rfl⟩, rfl⟩
  rw [List.foldl_append]
  exact hfold _ _

end
end Peak

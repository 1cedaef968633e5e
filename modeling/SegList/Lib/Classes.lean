import Mathlib.Data.Nat.Log

/-!
# Size classes

A table of lists, searched from one of them upward.

* `search_eq_some`   the element found is the first one of its list, and of all these lists, that
                     satisfies the condition;
* `lt_two_mul`       a number in a class of the powers of two that is not above that of another one
                     is less than twice as large.
-/

namespace Classes

section
variable {α : Type} {L : Nat → List α} {p : α → Bool} {k m : Nat} {x : α}

theorem search_eq_some (h : ((List.range' k m).flatMap L).find? p = some x) :
    ∃ j front back, k ≤ j ∧ j < k + m ∧ L j = front ++ x :: back ∧ (∀ y ∈ front, p y = false) ∧
      ∀ i, k ≤ i → i < j → ∀ y ∈ L i, p y = false := by
  -- induction on the lists, the first one in front
  induction m generalizing k with
  | zero => exact nomatch h
  | succ m ih =>
    rw [List.range'_succ, List.flatMap_cons, List.find?_append] at h
    cases hk : (L k).find? p with
    | some y =>
      rw [hk] at h
      obtain rfl := Option.some.inj h
      obtain ⟨-, front, back, e, hf⟩ := List.find?_eq_some_iff_append.mp hk
      refine ⟨k, front, back, Nat.le_refl k, by omega, e, fun y hy => by simpa using hf y hy, ?_⟩
      intro i h1 h2
      omega
    | none =>
      rw [hk] at h
      obtain ⟨j, front, back, h1, h2, h3, h4, h5⟩ := ih h
      refine ⟨j, front, back, by omega, by omega, h3, h4, fun i hi hij y hy => ?_⟩
      rcases Nat.eq_or_lt_of_le hi with rfl | hlt
      · simpa using List.find?_eq_none.mp hk y hy
      · exact h5 i hlt hij y hy

end

theorem lt_two_mul {x y : Nat} (h : Nat.clog 2 x ≤ Nat.clog 2 y) (hy : 1 < y) : x < 2 * y := by
  have hpos : 0 < Nat.clog 2 y := Nat.clog_pos (by omega) hy
  calc x ≤ 2 ^ Nat.clog 2 x := Nat.le_pow_clog (by omega) x
    _ ≤ 2 ^ Nat.clog 2 y := Nat.pow_le_pow_right (by omega) h
    _ = 2 * 2 ^ (Nat.clog 2 y).pred := by
        rw [← Nat.pow_succ', Nat.succ_pred_eq_of_pos hpos]
    _ < 2 * y := Nat.mul_lt_mul_of_pos_left (Nat.pow_pred_clog_lt_self (by omega) hy) (by omega)

end Classes

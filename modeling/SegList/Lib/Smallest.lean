import Mathlib.Data.List.Sort
import Mathlib.Order.Bounds.Defs
import Mathlib.Order.Lattice

/-!
# The `k` smallest of a list

`IsSmallest k xs best`: `best` is sorted, and is what remains of `xs` when all but `k` elements are
taken out, none of them smaller than one of `best`.

* `IsSmallest.add`, `IsSmallest.exchange`, `IsSmallest.leave`   one more element: it is added, takes
                                                               the place of the largest, or is left out;
* `IsSmallest.least`                                            the first is the smallest of all;
* `IsSmallest.eq_take`                                          they are the start of `xs` sorted;
* `front`                                                       the first elements of an array.
-/

set_option linter.unusedSectionVars false

namespace Smallest
variable {α : Type} [LinearOrder α]

/-- `best` are the `k` smallest elements of `xs`, all of them when there are fewer -/
structure IsSmallest (k : Nat) (xs best : List α) : Prop where
  sorted : best.Pairwise (· ≤ ·)
  length : best.length = min k xs.length
  rest : ∃ rest, xs.Perm (best ++ rest) ∧ ∀ b ∈ best, ∀ r ∈ rest, b ≤ r

section
variable {k : Nat} {xs best best' : List α} {x y b : α}

theorem IsSmallest.nil (k : Nat) : IsSmallest k ([] : List α) [] :=
  ⟨.nil, (Nat.min_zero k).symm, [], List.Perm.refl _, fun _ hb => absurd hb List.not_mem_nil⟩

theorem IsSmallest.add (h : IsSmallest k xs best) (hk : xs.length < k)
    (hs : best'.Pairwise (· ≤ ·)) (hp : best'.Perm (best ++ [x])) :
    IsSmallest k (xs ++ [x]) best' := by
  obtain ⟨rest, hperm, -⟩ := h.rest
  have hlen := h.length
  have hrest : rest = [] := by
    have h1 := hperm.length_eq
    rw [List.length_append] at h1
    exact List.eq_nil_of_length_eq_zero (by omega)
  rw [hrest, List.append_nil] at hperm
  refine ⟨hs, ?_, [], ?_, fun _ _ r hr => absurd hr List.not_mem_nil⟩
  · rw [hp.length_eq, List.length_append, List.length_append, List.length_singleton]
    omega
  · rw [List.append_nil]
    exact (hperm.append_right [x]).trans hp.symm

theorem IsSmallest.exchange (h : IsSmallest k xs (best ++ [y])) (hk : k ≤ xs.length) (hxy : x ≤ y)
    (hs : best'.Pairwise (· ≤ ·)) (hp : best'.Perm (best ++ [x])) :
    IsSmallest k (xs ++ [x]) best' := by
  obtain ⟨rest, hperm, hle⟩ := h.rest
  have hlen := h.length
  rw [List.length_append, List.length_singleton] at hlen
  have hlast : ∀ b ∈ best, b ≤ y := fun b hb =>
    (List.pairwise_append.mp h.sorted).2.2 b hb y (List.mem_singleton.mpr rfl)
  refine ⟨hs, ?_, y :: rest, ?_, fun b hb r hr => ?_⟩
  · have h1 := hperm.length_eq
    simp only [List.length_append, List.length_singleton] at h1
    rw [hp.length_eq, List.length_append, List.length_append, List.length_singleton]
    omega
  · -- `x` and `y` change places
    have h1 : (xs ++ [x]).Perm (best ++ [y] ++ rest ++ [x]) := hperm.append_right [x]
    have h2 : (best ++ [y] ++ rest ++ [x]).Perm (best ++ [x] ++ (y :: rest)) := by
      rw [List.append_assoc, List.append_assoc, List.append_assoc]
      refine List.Perm.append_left best ?_
      show ([y] ++ (rest ++ [x])).Perm ([x] ++ ([y] ++ rest))
      rw [← List.append_assoc]
      exact List.perm_append_comm
    exact (h1.trans h2).trans (hp.symm.append_right _)
  · have hby : b ≤ y := by
      rcases List.mem_append.mp (hp.mem_iff.mp hb) with hb | hb
      · exact hlast b hb
      · rw [List.mem_singleton.mp hb]
        exact hxy
    rcases List.mem_cons.mp hr with rfl | hr
    · exact hby
    · exact hby.trans (hle y (List.mem_append_right _ (List.mem_singleton.mpr rfl)) r hr)

theorem IsSmallest.leave (h : IsSmallest k xs best) (hk : k ≤ xs.length)
    (hx : ∀ b ∈ best, b ≤ x) : IsSmallest k (xs ++ [x]) best := by
  obtain ⟨rest, hperm, hle⟩ := h.rest
  have hlen := h.length
  refine ⟨h.sorted, ?_, rest ++ [x], ?_, fun b hb r hr => ?_⟩
  · rw [List.length_append, List.length_singleton]
    omega
  · rw [← List.append_assoc]
    exact hperm.append_right [x]
  · rcases List.mem_append.mp hr with hr | hr
    · exact hle b hb r hr
    · rw [List.mem_singleton.mp hr]
      exact hx b hb

/-- **The first of the smallest elements** is the smallest of all. -/
theorem IsSmallest.least (h : IsSmallest k xs (b :: best)) : IsLeast {x | x ∈ xs} b := by
  obtain ⟨rest, hperm, hle⟩ := h.rest
  refine ⟨hperm.mem_iff.mpr (List.mem_append_left _ List.mem_cons_self), fun x hx => ?_⟩
  rcases List.mem_append.mp (hperm.mem_iff.mp hx) with hx | hx
  · rcases List.mem_cons.mp hx with rfl | hx
    · exact le_refl _
    · exact (List.pairwise_cons.mp h.sorted).1 x hx
  · exact hle b List.mem_cons_self x hx

/-- **The smallest elements are determined**: `xs` sorted starts with them. -/
theorem IsSmallest.eq_take (h : IsSmallest k xs best) :
    best = (xs.insertionSort (· ≤ ·)).take k := by
  obtain ⟨rest, hperm, hle⟩ := h.rest
  have hlen := h.length
  have hsorted : (best ++ rest.insertionSort (· ≤ ·)).Pairwise (· ≤ ·) :=
    List.pairwise_append.mpr ⟨h.sorted, List.pairwise_insertionSort _ _, fun b hb r hr =>
      hle b hb r ((List.mem_insertionSort _).mp hr)⟩
  have hsame : (best ++ rest.insertionSort (· ≤ ·)).Perm (xs.insertionSort (· ≤ ·)) :=
    ((List.perm_insertionSort _ rest).append_left best).trans
      (hperm.symm.trans (List.perm_insertionSort _ xs).symm)
  rw [← hsame.eq_of_pairwise' hsorted (List.pairwise_insertionSort _ _)]
  by_cases hk : k ≤ xs.length
  · rw [List.take_left' (by omega)]
  · -- fewer than `k` elements: all of them
    have h1 := hperm.length_eq
    rw [List.length_append] at h1
    obtain rfl : rest = [] := List.eq_nil_of_length_eq_zero (by omega)
    rw [List.insertionSort_nil, List.append_nil, List.take_of_length_le (by omega)]

end

/-! ## the front of an array -/

/-- the first `n` elements of an array -/
def front (n : Nat) (v : Nat → α) : List α := (List.range n).map v

section
variable {v w : Nat → α} {n : Nat}

theorem front_succ (n : Nat) (v : Nat → α) : front (n + 1) v = front n v ++ [v n] := by
  unfold front
  rw [List.range_succ, List.map_append]
  rfl

theorem getElem?_front {i : Nat} (h : i < n) : (front n v)[i]? = some (v i) := by
  unfold front
  rw [List.getElem?_map, List.getElem?_range h]
  rfl

theorem front_congr (h : ∀ i < n, w i = v i) : front n w = front n v :=
  List.map_congr_left fun i hi => h i (List.mem_range.mp hi)

end
end Smallest

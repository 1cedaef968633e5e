import SegList.Lib.Lts
import SegList.Lib.Smallest
import SegList.Model.Fcyc

/-!
# fcyc.c returns the smallest of its measurements

After every round the array `values` holds the `kbest` smallest measurements, in order
(`Sampler.Holds`, `addSample_holds`).  So `has_converged` is a test on the measurements alone, and
`fcyc` stops at the first round after which they pass it, or with the last one it may do.
-/

set_option linter.unusedSectionVars false

open Prog Smallest

namespace SegList
variable {σ α : Type} [LinearOrder α]
variable {k : Nat} {maxsamples : Int} {close : α → α → Bool} {zero x : α} {xs ys : List α}
variable {s : Sampler α} {measure : Prog σ α} {st : σ} {I : σ → Prop}

/-! ## `add_sample` -/

/-- **Insertion sort of the last element** into a sorted array: the same elements, sorted, and nothing
beyond them has changed. -/
lemma insertSample_spec (n : Nat) (values : Nat → α) (hs : (front n values).Pairwise (· ≤ ·)) :
    (front (n + 1) (insertSample values n)).Pairwise (· ≤ ·) ∧
    (front (n + 1) (insertSample values n)).Perm (front (n + 1) values) ∧
    ∀ i > n, insertSample values n i = values i := by
  induction n generalizing values with
  | zero => exact ⟨List.pairwise_singleton _ _, List.Perm.refl _, fun _ _ => rfl⟩
  | succ n ih =>
    by_cases hgt : values n > values (n + 1)
    · -- the two elements change places, and the smaller one goes on downwards
      obtain ⟨w, hw⟩ : ∃ w, w = Function.update (Function.update values n (values (n + 1))) (n + 1)
        (values n) := ⟨_, rfl⟩
      have hstep : insertSample values (n + 1) = insertSample w n := by
        rw [hw, insertSample, if_pos hgt]
      have hlow : ∀ i < n, w i = values i := fun i hi => by
        rw [hw, Function.update_of_ne (by omega), Function.update_of_ne (by omega)]
      have hn : w n = values (n + 1) := by
        rw [hw, Function.update_of_ne (by omega), Function.update_self]
      have hn1 : w (n + 1) = values n := by rw [hw, Function.update_self]
      rw [front_succ] at hs
      obtain ⟨hs1, -, hlast⟩ := List.pairwise_append.mp hs
      obtain ⟨h1, h2, h3⟩ := ih w (by rwa [front_congr hlow])
      rw [front_succ n w, front_congr hlow, hn] at h2
      rw [hstep, front_succ (n + 1), h3 (n + 1) (Nat.lt_succ_self n), hn1]
      refine ⟨List.pairwise_append.mpr ⟨h1, List.pairwise_singleton _ _, fun y hy z hz => ?_⟩, ?_,
        fun i hi => ?_⟩
      · rw [List.mem_singleton.mp hz]
        rcases List.mem_append.mp (h2.mem_iff.mp hy) with hy | hy
        · exact hlast y hy _ (List.mem_singleton.mpr rfl)
        · rw [List.mem_singleton.mp hy]
          exact le_of_lt hgt
      · refine (h2.append_right [values n]).trans ?_
        rw [front_succ (n + 1), front_succ n, List.append_assoc, List.append_assoc]
        exact List.Perm.append_left _ (List.Perm.swap _ _ _)
      · rw [h3 i (by omega), hw, Function.update_of_ne (by omega), Function.update_of_ne (by omega)]
    · rw [insertSample, if_neg hgt]
      refine ⟨?_, List.Perm.refl _, fun _ _ => rfl⟩
      rw [front_succ (n + 1)]
      refine List.pairwise_append.mpr ⟨hs, List.pairwise_singleton _ _, fun y hy z hz => ?_⟩
      rw [List.mem_singleton.mp hz]
      have hle : values n ≤ values (n + 1) := le_of_not_gt hgt
      rw [front_succ] at hs hy
      rcases List.mem_append.mp hy with hy | hy
      · exact ((List.pairwise_append.mp hs).2.2 y hy _ (List.mem_singleton.mpr rfl)).trans hle
      · rw [List.mem_singleton.mp hy]
        exact hle

/-- `values` holds the `k` smallest of the measurements `xs`, in order -/
structure Sampler.Holds (k : Nat) (xs : List α) (s : Sampler α) : Prop where
  count : s.samplecount = xs.length
  smallest : IsSmallest k xs (front (min k xs.length) s.values)

lemma initSampler_holds (k : Nat) (zero : α) : (initSampler zero).Holds k [] := by
  refine ⟨rfl, ?_⟩
  rw [List.length_nil, Nat.min_zero]
  exact IsSmallest.nil k

/-- **`add_sample` keeps the `k` smallest measurements.** -/
lemma addSample_holds (hk : 0 < k) (h : s.Holds k xs) :
    (addSample k s x).Holds k (xs ++ [x]) := by
  have hcount := h.count
  have hold := h.smallest
  have hlen : (xs ++ [x]).length = xs.length + 1 := List.length_append
  by_cases hroom : s.samplecount < k
  · -- the measurement gets a place of its own, behind the others
    obtain ⟨w, hw⟩ : ∃ w, w = Function.update s.values xs.length x := ⟨_, rfl⟩
    have hstep : addSample k s x = ⟨insertSample w xs.length, xs.length + 1⟩ := by
      unfold addSample
      rw [if_pos hroom, hcount, hw]
    have hx : w xs.length = x := by rw [hw, Function.update_self]
    have hfront : front xs.length w = front xs.length s.values :=
      front_congr fun i hi => by rw [hw, Function.update_of_ne (by omega)]
    rw [Nat.min_eq_right (by omega)] at hold
    obtain ⟨h1, h2, -⟩ := insertSample_spec xs.length w (hfront ▸ hold.sorted)
    rw [hstep]
    refine ⟨hlen.symm, ?_⟩
    rw [hlen, Nat.min_eq_right (by omega)]
    refine hold.add (by omega) h1 ?_
    rwa [front_succ _ w, hfront, hx] at h2
  · obtain ⟨j, rfl⟩ : ∃ j, k = j + 1 := ⟨k - 1, by omega⟩
    have hmin : min (j + 1) (xs ++ [x]).length = j + 1 := by omega
    rw [Nat.min_eq_left (by omega)] at hold
    by_cases hlt : x < s.values j
    · -- it takes the place of the largest
      obtain ⟨w, hw⟩ : ∃ w, w = Function.update s.values j x := ⟨_, rfl⟩
      have hstep : addSample (j + 1) s x = ⟨insertSample w j, xs.length + 1⟩ := by
        unfold addSample
        rw [if_neg hroom, Nat.add_sub_cancel, if_pos hlt, hcount, hw]
      have hx : w j = x := by rw [hw, Function.update_self]
      have hfront : front j w = front j s.values :=
        front_congr fun i hi => by rw [hw, Function.update_of_ne (by omega)]
      rw [front_succ] at hold
      have hsorted := (List.pairwise_append.mp hold.sorted).1
      obtain ⟨h1, h2, -⟩ := insertSample_spec j w (hfront ▸ hsorted)
      rw [hstep]
      refine ⟨hlen.symm, ?_⟩
      rw [hmin]
      refine hold.exchange (by omega) (le_of_lt hlt) h1 ?_
      rwa [front_succ j w, hfront, hx] at h2
    · have hstep : addSample (j + 1) s x = ⟨s.values, xs.length + 1⟩ := by
        unfold addSample
        rw [if_neg hroom, Nat.add_sub_cancel, if_neg hlt, hcount]
        rfl
      rw [hstep]
      refine ⟨hlen.symm, ?_⟩
      rw [hmin]
      refine hold.leave (by omega) fun b hb => ?_
      -- none of the smallest is larger than the last of them
      have hle : s.values j ≤ x := le_of_not_gt hlt
      have hsorted := hold.sorted
      rw [front_succ] at hb hsorted
      rcases List.mem_append.mp hb with hb | hb
      · exact ((List.pairwise_append.mp hsorted).2.2 b hb _ (List.mem_singleton.mpr rfl)).trans hle
      · rw [List.mem_singleton.mp hb]
        exact hle

/-! ## `has_converged` -/

/-- in order, the first of the measurements and the `k`-th are close -/
def Converged (k : Nat) (close : α → α → Bool) (xs : List α) : Prop :=
  ∃ a b, (xs.insertionSort (· ≤ ·))[0]? = some a ∧ (xs.insertionSort (· ≤ ·))[k - 1]? = some b ∧
    close a b = true

/-- **`has_converged` tests the measurements.** -/
lemma hasConverged_iff (hk : 0 < k) (h : s.Holds k xs) :
    hasConverged k close s = true ↔ Converged k close xs := by
  have hcount := h.count
  unfold hasConverged Converged
  rw [Bool.and_eq_true, decide_eq_true_eq]
  by_cases hfull : k ≤ xs.length
  · have hfront := h.smallest.eq_take
    rw [Nat.min_eq_left hfull] at hfront
    have hat : ∀ i < k, (xs.insertionSort (· ≤ ·))[i]? = some (s.values i) := by
      intro i hi
      rw [← List.getElem?_take_of_lt hi, ← hfront]
      exact getElem?_front hi
    rw [hat 0 hk, hat (k - 1) (by omega)]
    constructor
    · rintro ⟨-, hclose⟩
      exact ⟨_, _, rfl, rfl, hclose⟩
    · rintro ⟨a, b, ha, hb, hclose⟩
      obtain rfl := Option.some.inj ha
      obtain rfl := Option.some.inj hb
      exact ⟨by omega, hclose⟩
  · constructor
    · rintro ⟨hle, -⟩
      omega
    · rintro ⟨a, b, -, hb, -⟩
      obtain ⟨hlt, -⟩ := List.getElem?_eq_some_iff.mp hb
      rw [List.length_insertionSort] at hlt
      omega

/-! ## the loop of `fcyc` -/

/-- `xs` is a series of measurements that `fcyc` ends with: the first one that passes the test, or one
of `maxsamples` measurements -/
structure Series (k : Nat) (maxsamples : Int) (close : α → α → Bool) (xs : List α) : Prop where
  nonempty : xs ≠ []
  few : (xs.length : Int) ≤ max 1 maxsamples
  ends : Converged k close xs ∨ maxsamples ≤ xs.length
  first : ∀ ys, ys <+: xs → ys ≠ [] → ys ≠ xs → ¬ Converged k close ys

/-- one measurement, as a step -/
def Measures (measure : Prog σ α) (st : σ) (x : α) (st' : σ) : Prop := measure st = some (x, st')

/-- what stands at the head of the loop: measurements that go on -/
structure Going (k : Nat) (maxsamples : Int) (close : α → α → Bool) (xs : List α) : Prop where
  few : xs = [] ∨ (xs.length : Int) < maxsamples
  before : ∀ ys, ys <+: xs → ys ≠ [] → ¬ Converged k close ys

lemma Going.more (h : Going k maxsamples close xs) (hc : ¬ Converged k close (xs ++ [x]))
    (hl : ((xs ++ [x]).length : Int) < maxsamples) : Going k maxsamples close (xs ++ [x]) := by
  refine ⟨.inr hl, fun ys hys hne => ?_⟩
  rcases List.prefix_concat_iff.mp hys with rfl | hys
  · exact hc
  · exact h.before ys hys hne

lemma Going.over (h : Going k maxsamples close xs)
    (hstop : Converged k close (xs ++ [x]) ∨ maxsamples ≤ (xs ++ [x]).length) :
    Series k maxsamples close (xs ++ [x]) := by
  refine ⟨by simp, ?_, hstop, fun ys hys hne hall => ?_⟩
  · rw [List.length_append, List.length_singleton]
    rcases h.few with rfl | hfew
    · exact le_max_left _ _
    · exact le_trans (by omega) (le_max_right 1 maxsamples)
  · exact h.before ys ((List.prefix_concat_iff.mp hys).resolve_left hall) hne

/-- **The loop of `fcyc`**, from any of its rounds on.  Every round it goes on from has made one
measurement more, of fewer than `maxsamples`. -/
lemma fcycLoop_spec (hk : 0 < k) (hm : ∀ st, I st → Ends measure st (fun _ => I)) (fuel : Nat)
    (hfuel : maxsamples.toNat < fuel + xs.length) (h : s.Holds k xs)
    (hgo : Going k maxsamples close xs) (hst : I st) :
    Ends (fcycLoop k maxsamples close measure fuel s) st (fun r st' => ∃ ys,
      Lts.Run (Measures measure) st ys st' ∧ Series k maxsamples close (xs ++ ys) ∧
      r.Holds k (xs ++ ys)) := by
  induction fuel generalizing xs s st with
  | zero =>
    exfalso
    rcases hgo.few with rfl | hfew
    · exact absurd hfuel (Nat.not_lt_zero _)
    · omega
  | succ fuel ih =>
    obtain ⟨x, mid, hx, hinv⟩ := hm st hst
    have hadd : (addSample k s x).Holds k (xs ++ [x]) := addSample_holds hk h
    have hlen : (xs ++ [x]).length = xs.length + 1 := List.length_append
    have htest : (¬ hasConverged k close (addSample k s x) ∧
        ((addSample k s x).samplecount : Int) < maxsamples) ↔
        (¬ Converged k close (xs ++ [x]) ∧ ((xs ++ [x]).length : Int) < maxsamples) := by
      rw [hasConverged_iff hk hadd, hadd.count]
    unfold fcycLoop
    rw [ends_bind, ends_of_run hx]
    by_cases hgoes : ¬ Converged k close (xs ++ [x]) ∧ ((xs ++ [x]).length : Int) < maxsamples
    · rw [ends_ite_pos (htest.mpr hgoes)]
      refine (ih (by omega) hadd (hgo.more hgoes.1 hgoes.2) hinv).mono fun r st' ⟨ys, hrun, hser, hr⟩ => ?_
      rw [List.append_assoc] at hser hr
      exact ⟨x :: ys, Lts.run_cons.mpr ⟨mid, hx, hrun⟩, hser, hr⟩
    · rw [ends_ite_neg (mt htest.mp hgoes), ends_pure]
      rw [not_and_or, not_not, not_lt] at hgoes
      exact ⟨[x], Lts.Run.single hx, hgo.over hgoes, hadd⟩

/-- **fcyc.c: the K-best scheme.**  `fcyc` returns the smallest of its measurements, which
it makes one behind the other.  It ends with the first of them behind which, in order, the first and
the `kbest`-th are close, and makes no more than `maxsamples`, but always one. -/
theorem fcyc_best (k : Nat) (maxsamples : Int) (close : α → α → Bool) (zero : α)
    (measure : Prog σ α) (st : σ) (I : σ → Prop) (hk : 0 < k)
    (hm : ∀ st, I st → Ends measure st (fun _ => I)) (hst : I st) :
    Ends (fcyc k maxsamples close zero measure) st (fun r st' => ∃ xs,
      Lts.Run (Measures measure) st xs st' ∧ Series k maxsamples close xs ∧
      IsLeast {x | x ∈ xs} r) := by
  have hgo : Going k maxsamples close ([] : List α) :=
    ⟨.inl rfl, fun ys hys hne => absurd (List.prefix_nil.mp hys) hne⟩
  unfold fcyc
  rw [ends_bind]
  refine (fcycLoop_spec hk hm _ (by omega) (initSampler_holds k zero) hgo hst).mono ?_
  rintro s st' ⟨xs, hrun, hser, hs⟩
  rw [List.nil_append] at hser hs
  rw [ends_pure]
  refine ⟨xs, hrun, hser, ?_⟩
  -- `values[0]` is the first of the smallest
  obtain ⟨j, hj⟩ : ∃ j, min k xs.length = j + 1 :=
    ⟨min k xs.length - 1, by have := List.length_pos_iff.mpr hser.nonempty; omega⟩
  have hsmall := hs.smallest
  rw [hj] at hsmall
  have hfront : front (j + 1) s.values = s.values 0 :: front j (fun i => s.values (i + 1)) := by
    unfold front
    rw [List.range_succ_eq_map, List.map_cons, List.map_map]
    rfl
  rw [hfront] at hsmall
  exact hsmall.least

/-- a clock with given readings, and then 4 again and again -/
def Sample.readings : Prog (List Nat) Nat
  | [] => some (4, [])
  | x :: xs => some (x, xs)

theorem fcyc_best_sample : fcyc 3 20 (fun a b => decide (b ≤ a + 2)) 0 Sample.readings [9, 7, 8, 5, 6] =
      some (7, [5, 6]) ∧
    Ends (fcyc 3 20 (fun a b => decide (b ≤ a + 2)) 0 Sample.readings) [9, 7, 8, 5, 6]
      (fun r st => ∃ xs, Lts.Run (Measures Sample.readings) [9, 7, 8, 5, 6] xs st ∧
        Series 3 20 (fun a b => decide (b ≤ a + 2)) xs ∧ IsLeast {x | x ∈ xs} r) :=
  ⟨by decide +kernel, fcyc_best 3 20 _ 0 Sample.readings [9, 7, 8, 5, 6] (fun _ => True) (by decide)
    (fun st _ => match st with
      | [] => ⟨4, [], rfl, trivial⟩
      | x :: xs => ⟨x, xs, rfl, trivial⟩) trivial⟩

end SegList

import SegList.Refine.Package

/-!
# The first heap

`mem_init` and `mm_init` turn any memory into a heap that represents the first pool: the bucket
table is cleared, the prologue and the epilogue are written, and `extend_heap` adds the first free
block.

* `clearBuckets_spec`   the loop of `buckets_init`, by induction on the buckets that are left;
* `Rep.of_empty`        what makes a heap without blocks;
* `mmInit_spec`         the whole initialisation.
-/

set_option linter.unusedSectionVars false

open Bytes Prog Tile

namespace SegList
open Pool

/-- the loop of `buckets_init` writes `0` to the words from `bucket` on -/
lemma clearBuckets_spec (n : Nat) {bucket : Nat} (s : Heap) (hlt : bucket + 4 * n < 2 ^ 32) :
    Ends (clearBuckets n bucket) s (fun _ t =>
      Touches (fun p => ∃ i < n, p = bucket + 4 * i) s t ∧ ∀ i < n, t.word (bucket + 4 * i) = 0) := by
  induction n generalizing bucket s with
  | zero =>
    rw [clearBuckets, ends_pure]
    exact ⟨Touches.refl _ s, fun i hi => absurd hi (by omega)⟩
  | succ n ih =>
    have e : addW bucket WSIZE = bucket + 4 := addW_eq (show bucket + 4 < 2 ^ 32 by omega)
    rw [clearBuckets, ends_bind, ends_put, e]
    refine (ih (s.store bucket 0) (by omega)).mono ?_
    rintro - t ⟨hT, hz⟩
    have hT' : Touches (fun p => ∃ i < n + 1, p = bucket + 4 * i) (s.store bucket 0) t := by
      refine hT.mono ?_
      rintro p ⟨i, hi, rfl⟩
      exact ⟨i + 1, by omega, by omega⟩
    refine ⟨((Touches.refl _ s).store ⟨0, by omega, rfl⟩).trans hT', fun i hi => ?_⟩
    cases i with
    | zero =>
      show t.word bucket = 0
      rw [hT.word (fun p hp => ?_)]
      · exact Heap.word_store_self _ _ (by omega)
      · obtain ⟨j, -, rfl⟩ := hp
        omega
    | succ i =>
      have h1 := hz i (by omega)
      have h2 : bucket + 4 + 4 * i = bucket + 4 * (i + 1) := by omega
      rwa [h2] at h1

section
variable {A : Arena} {s : Heap}

lemma Rep.of_empty (h1 : s.memStartBrk = A.lo) (h2 : s.memBrk = A.base)
    (h3 : s.memMaxAddr = A.limit) (h4 : s.heapListp = A.lo + 136)
    (h5 : s.word (A.lo + 132) = 9 ∧ s.word (A.lo + 136) = 9) (h6 : s.word (A.lo + 140) = 1)
    (h7 : ∀ k < 32, s.word (A.lo + 4 * k) = 0) (h8 : s.Clean) : Rep A s (empty A.base) := by
  refine ⟨⟨h1, h2, h3, h4, rfl, fun b hb => absurd hb (List.not_mem_nil), ?_, h5, h6,
    fun b hb => absurd hb (List.not_mem_nil)⟩, ⟨fun k b hb => absurd hb (List.not_mem_nil),
    fun _ => List.nodup_nil, h7⟩, h8⟩
  show A.lo + 144 ≤ A.lo + 20971520
  omega

lemma Rep.of_cleared (h1 : s.memStartBrk = A.lo) (h2 : s.memBrk = A.base)
    (h3 : s.memMaxAddr = A.limit) (hz : ∀ k < 32, s.word (A.lo + 4 * k) = 0) (h4 : s.Clean) :
    Rep A { (({ s with heapListp := A.lo + 128 }.store (A.lo + 128) 0).store (A.lo + 132) 9
      |>.store (A.lo + 136) 9 |>.store (A.lo + 140) 1) with heapListp := A.lo + 136 }
      (empty A.base) := by
  have hpos := A.pos
  have h8 := A.aligned
  have hfit : A.lo + 20971520 < 4294967296 := A.room
  have hbase : A.base = A.lo + 144 := rfl
  refine Rep.of_empty h1 h2 h3 rfl ⟨?_, ?_⟩ ?_ (fun k hk => ?_) (fun ev hev => ?_)
  · show Heap.word (Heap.store _ _ _) (A.lo + 132) = 9
    simp (disch := omega) only [Heap.word_store_of_apart, Heap.word_store_self]
  · show Heap.word (Heap.store _ _ _) (A.lo + 136) = 9
    simp (disch := omega) only [Heap.word_store_of_apart, Heap.word_store_self]
  · exact Heap.word_store_self _ _ (by omega)
  · show Heap.word (Heap.store _ _ _) (A.lo + 4 * k) = 0
    simp (disch := omega) only [Heap.word_store_of_apart]
    exact hz k hk
  · simp only [Heap.store_trace, List.mem_cons] at hev
    show ev.Ok s.memStartBrk
    rcases hev with rfl | rfl | rfl | rfl | hev
    · exact ⟨by omega, by omega, by simp only [Heap.store_memBrk]; omega⟩
    · exact ⟨by omega, by omega, by simp only [Heap.store_memBrk]; omega⟩
    · exact ⟨by omega, by omega, by simp only [Heap.store_memBrk]; omega⟩
    · exact ⟨by omega, by omega, by omega⟩
    · exact h4 ev hev

/-- **`mm_init` on a fresh arena succeeds** and makes the first pool. -/
theorem mmInit_spec (h1 : s.memStartBrk = A.lo) (h2 : s.memBrk = A.lo)
    (h3 : s.memMaxAddr = A.limit) (h4 : s.Clean) :
    Ends mmInit s (fun r t => r = 0 ∧ Rep A t (initial A.base)) := by
  have hpos := A.pos
  have h8 := A.aligned
  have hfit : A.lo + 20971520 < 4294967296 := A.room
  have hlim : A.limit = A.lo + 20971520 := rfl
  have hbase : A.base = A.lo + 144 := rfl
  have hmo : A.lo ≠ minusOne := by
    show A.lo ≠ 4294967295
    omega
  have hrun1 := memSbrk_ok (s := s) (n := 4 * WSIZE) (by show s.memBrk + 16 ≤ _; omega) (by omega)
  rw [h2] at hrun1
  unfold mmInit
  simp only [ends_bind]
  rw [ends_of_run hrun1, ends_setHeapListp, ends_ite_neg hmo]
  simp only [bucketsInit, ends_bind]
  rw [ends_of_run (memSbrk_ok (n := WSIZE * BUCKETS_COUNT)
    (by show A.lo + 16 + 128 ≤ s.memMaxAddr; omega) (by show s.memMaxAddr < _; omega))]
  refine (clearBuckets_spec 32 _ (by omega)).mono ?_
  rintro - u ⟨hT, hz⟩
  have e0 : addW A.lo (BUCKETS_COUNT * WSIZE) = A.lo + 128 :=
    addW_eq (show A.lo + 128 < 2 ^ 32 by omega)
  have e1 : addW (A.lo + 128) (1 * WSIZE) = A.lo + 132 :=
    addW_eq (show A.lo + 128 + 4 < 2 ^ 32 by omega)
  have e2 : addW (A.lo + 128) (2 * WSIZE) = A.lo + 136 :=
    addW_eq (show A.lo + 128 + 8 < 2 ^ 32 by omega)
  have e3 : addW (A.lo + 128) (3 * WSIZE) = A.lo + 140 :=
    addW_eq (show A.lo + 128 + 12 < 2 ^ 32 by omega)
  simp only [ends_setHeapListp, ends_put, e0, e1, e2, e3]
  have hb : u.memBrk = A.base := hT.fixed.brk
  have hst : u.memStartBrk = A.lo := hT.fixed.start.trans h1
  have hclean : u.Clean := by
    refine hT.clean (fun p hp => ?_) (fun ev hev => ?_)
    · obtain ⟨i, hi, rfl⟩ := hp
      refine ⟨by omega, ?_, ?_⟩
      · show s.memStartBrk ≤ _
        omega
      · show A.lo + 4 * i + 4 ≤ A.lo + 16 + 128
        omega
    · rcases List.mem_cons.mp hev with rfl | hev
      · trivial
      · rcases List.mem_cons.mp hev with rfl | hev
        · trivial
        · exact h4 ev hev
  have ep : pack DSIZE 1 = 9 := rfl
  have eq : pack 0 1 = 1 := rfl
  rw [ep, eq]
  have R := Rep.of_cleared hst hb (hT.fixed.maxAddr.trans h3) hz hclean
  have hgrow := extendHeap_grow (e := 4096) R (empty_wf A.base) (by omega) (by omega)
    (by show A.base + 4096 ≤ _; omega)
  rw [initial_eq] at hgrow
  refine hgrow.mono ?_
  rintro r t ⟨rfl, R1, -⟩
  rw [ends_ite_neg (show A.base ≠ 0 by omega), ends_pure]
  exact ⟨rfl, R1⟩

end
end SegList

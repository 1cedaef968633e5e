import SegList.Lib.Classes
import SegList.Safety.Complete

/-!
# A good fit

The search goes through the buckets upward and takes the first block that is large enough.

* `fit_first`   so no bucket further down has such a block, and none stands in front of it;
* `good_fit`    as the buckets are the powers of two, the block taken is less than twice as large as
                the best one.
-/

set_option linter.unusedSectionVars false

open Bytes Prog

namespace SegList
open Pool

/-- one of the blocks `bps`, free and of at least `sz` bytes -/
def FreeFor (s : Heap) (sz : Nat) (bps : List Nat) (bp : Nat) : Prop :=
  bp ∈ bps ∧ s.getAlloc (hdrp bp) = 0 ∧ sz ≤ s.getSize (hdrp bp)

/-- a free block for `sz` bytes, less than twice as large as any other; in its bucket it is the first
with so many bytes, and no bucket further down has one -/
structure GoodFit (s : Heap) (sz bp : Nat) : Prop where
  close : ∃ bps, s.blocks = some bps ∧ FreeFor s sz bps bp ∧
    ∀ q, FreeFor s sz bps q → s.getSize (hdrp bp) < 2 * s.getSize (hdrp q)
  first : ∃ k < 32, ∃ front back, s.bucket k = some (front ++ bp :: back) ∧
    (∀ q ∈ front, s.getSize (hdrp q) < sz) ∧
    ∀ j < k, ∃ l, s.bucket j = some l ∧ ∀ q ∈ l, s.getSize (hdrp q) < sz

section
variable {A : Arena} {s : Heap} {a : Pool} {b c : Block} {n sz : Nat}

lemma fit_first (h : WF A.base a) (hb : a.fit sz = some b) :
    ∃ front back, a.lists (cls b.size) = front ++ b :: back ∧ (∀ c ∈ front, c.size < sz) ∧
      ∀ j < cls b.size, ∀ c ∈ a.lists j, c.size < sz := by
  obtain ⟨j, front, back, h1, h2, h3, h4, h5⟩ := Classes.search_eq_some hb
  have hj : cls b.size = j := ((h.listed j b).mp (h3 ▸ List.mem_append_right _ List.mem_cons_self)).2.2
  subst hj
  refine ⟨front, back, h3, fun c hc => by simpa using h4 c hc, fun i hi c hc => ?_⟩
  by_cases hlow : cls sz ≤ i
  · simpa using h5 i hlow hi c hc
  · -- a class below that of `sz`
    have hcls : cls c.size = i := ((h.listed i c).mp hc).2.2
    by_contra hge
    have hmono : cls sz ≤ cls c.size := Nat.clog_mono_right 2 (Nat.le_of_not_lt hge)
    omega

lemma fit_cls_le (h : WF A.base a) (hb : a.fit sz = some b) (hc : c ∈ a.blocks)
    (hf : c.alloc = false) (hle : sz ≤ c.size) : cls b.size ≤ cls c.size := by
  obtain ⟨-, -, -, -, hlow⟩ := fit_first h hb
  by_contra hlt
  have hlist : c ∈ a.lists (cls c.size) := (h.listed _ c).mpr ⟨hc, hf, rfl⟩
  exact absurd (hlow _ (Nat.lt_of_not_le hlt) c hlist) (Nat.not_lt.mpr hle)

lemma Rep.goodFit (R : Rep A s a) (h : WF A.base a) (hsz : 1 < sz) (hb : a.fit sz = some b) :
    GoodFit s sz b.addr := by
  obtain ⟨hmem, hfree, hle⟩ := fit_some h hb
  obtain ⟨front, back, hlist, hfront, hlow⟩ := fit_first h hb
  have hsize : ∀ {c}, c ∈ a.blocks → s.getSize (hdrp c.addr) = c.size := fun hc =>
    (R.shows.tags _ hc).1
  have hlisted : ∀ {k c}, c ∈ a.lists k → c ∈ a.blocks := fun hc => ((h.listed _ _).mp hc).1
  refine ⟨⟨_, R.blocks_eq, ⟨List.mem_map_of_mem hmem, (R.getAlloc_eq_zero hmem).mpr hfree, ?_⟩, ?_⟩,
    cls b.size, R.laid.cls_lt hmem, front.map Block.addr, back.map Block.addr, ?_, ?_, ?_⟩
  · rw [hsize hmem]
    exact hle
  · rintro q ⟨hq, hqf, hqs⟩
    obtain ⟨c, hc, rfl⟩ := List.mem_map.mp hq
    have hcf : c.alloc = false := (R.getAlloc_eq_zero hc).mp hqf
    rw [hsize hc] at hqs ⊢
    rw [hsize hmem]
    exact Classes.lt_two_mul (fit_cls_le h hb hc hcf hqs) (Nat.lt_of_lt_of_le hsz hqs)
  · rw [R.bucket_eq (R.laid.cls_lt hmem), hlist, List.map_append, List.map_cons]
  · intro q hq
    obtain ⟨c, hc, rfl⟩ := List.mem_map.mp hq
    rw [hsize (hlisted (hlist ▸ List.mem_append_left _ hc))]
    exact hfront c hc
  · intro j hj
    refine ⟨_, R.bucket_eq (hj.trans (R.laid.cls_lt hmem)), fun q hq => ?_⟩
    obtain ⟨c, hc, rfl⟩ := List.mem_map.mp hq
    rw [hsize (hlisted hc)]
    exact hlow j hj c hc

variable {lo : Nat} {t : Client}

/-- **`mm_malloc` takes a good fit**: in every state of an ordinary run a request that some free block
is large enough for is answered from one that is less than twice as large as the best, and the first
one in its bucket. -/
theorem good_fit (h : Ordinary lo t) (h0 : 0 < n) (hz : n ≤ MAX_HEAP)
    (hfit : HasFit t.heap (align (addW n OVERHEAD))) : Ends (mmMalloc n) t.heap (fun r u =>
      ∃ bp, r = bp + 8 ∧ GoodFit t.heap (align (addW n OVERHEAD)) bp ∧ u.memBrk = t.heap.memBrk) := by
  obtain ⟨A, -, a, hT⟩ := h.tracks
  have hsmall := fits_of_le hT.rep hz
  have hsz := le_fitSize n
  rw [align_eq hsmall.1] at hfit ⊢
  obtain ⟨b, hb⟩ := (hT.rep.hasFit_iff a.wf).mp hfit
  have e := malloc_of_fit A.limit (Nat.ne_of_gt h0) hb
  refine (mmMalloc_spec hT.rep a.wf hsmall).mono fun r u hu => ?_
  refine ⟨b.addr, ?_, hT.rep.goodFit a.wf (by omega) hb, ?_⟩
  · rw [hu.1, e]
  · rw [hu.2.1.laid.brk, e, hT.rep.laid.brk]
    exact place_brk _ _ _

theorem good_fit_sample : Ends (mmMalloc 8) Sample.client.heap (fun r u =>
    ∃ bp, r = bp + 8 ∧ GoodFit Sample.client.heap (align (addW 8 OVERHEAD)) bp ∧
      u.memBrk = Sample.client.heap.memBrk) := by
  have hwf := malloc_wf (Pool.initial_wf Sample.arena.base) Sample.arena.limit 40
  have hfit : HasFit Sample.client.heap (align (addW 8 OVERHEAD)) :=
    (Sample.malloc_run.2.hasFit_iff hwf).mpr (Option.isSome_iff_exists.mp (by decide))
  exact good_fit Sample.client_ordinary (by decide) (by decide) hfit

end
end SegList

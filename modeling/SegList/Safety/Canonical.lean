import SegList.Safety.Confluence

/-!
# The heap does not remember its history

Blocks are merged at once, so the free blocks of a heap are the gaps between those in use, and each
is in the bucket of its size: two clients with the same live pointers, of blocks with the same sizes,
and the same break have the same heap, up to the order in the buckets, whatever calls they made
(`layout_canonical`).
-/

set_option linter.unusedSectionVars false

open Bytes Prog

namespace SegList
open Pool

/-- the same live pointers, and in their headers the same sizes; the sizes they were requested with may
differ -/
structure SameLive (c c' : Client) : Prop where
  live : ∀ p, (∃ m, (p, m) ∈ c'.live) ↔ ∃ m, (p, m) ∈ c.live
  size : ∀ p m, (p, m) ∈ c.live →
    c'.heap.getSize (hdrp (subW p DSIZE)) = c.heap.getSize (hdrp (subW p DSIZE))

section
variable {A : Arena} {lo : Nat} {c c' : Client} {a a' : SoundPool A.base A.limit}

lemma Tracks.mem_use (h : Tracks A c a) {b : Block} : b ∈ a.blocks ∧ b.alloc = true ↔
    b.alloc = true ∧ (∃ m, (b.addr + 8, m) ∈ c.live) ∧
      c.heap.getSize (hdrp (subW (b.addr + 8) DSIZE)) = b.size := by
  constructor
  · rintro ⟨hb, hu⟩
    exact ⟨hu, h.owns.owned b hb hu, h.rep.size_of_payload hb⟩
  · rintro ⟨hu, ⟨m, hm⟩, hs⟩
    obtain ⟨d, hd, hdu, e, -⟩ := h.owns.backed _ m hm
    have haddr : b.addr = d.addr := by omega
    have hsize : b.size = d.size := by rw [← hs, e, h.rep.size_of_payload hd]
    obtain rfl : b = d := by
      cases b
      cases d
      simp only at haddr hsize hu hdu
      rw [haddr, hsize, hu, hdu]
    exact ⟨hd, hdu⟩

lemma SameLive.sameUse (h : SameLive c c') (hT : Tracks A c a) (hT' : Tracks A c' a') :
    SameUse a.toPool a'.toPool := by
  intro b
  show b ∈ a'.blocks ∧ b.alloc = true ↔ b ∈ a.blocks ∧ b.alloc = true
  rw [hT.mem_use, hT'.mem_use, h.live]
  refine and_congr_right fun _ => and_congr_right fun ⟨m, hm⟩ => ?_
  rw [h.size _ m hm]

/-- **The live blocks and the break determine the heap.** -/
theorem layout_canonical (h : Ordinary lo c) (h' : Ordinary lo c') (hl : SameLive c c')
    (hbrk : c'.heap.memBrk = c.heap.memBrk) :
    SamePartition c.heap c'.heap ∧ SameBuckets c.heap c'.heap := by
  obtain ⟨A, hA, a, hT⟩ := h.tracks
  obtain ⟨B, hB, b, hT'⟩ := h'.tracks
  obtain rfl : A = B := by
    obtain ⟨⟨x, _, _, _⟩, _⟩ := A
    obtain ⟨⟨y, _, _, _⟩, _⟩ := B
    obtain rfl : x = y := hA.trans hB.symm
    rfl
  have hsame : Same a.toPool b.toPool := a.wf.same b.wf
    (by rw [← hT.rep.laid.brk, ← hT'.rep.laid.brk, hbrk]) (hl.sameUse hT hT')
  exact hT.rep.same hT'.rep hsame

/-- the first block given back and handed out again -/
lemma Sample.again : ∃ c, Trail 8 (fun _ => 0) [.call (.malloc 40) 160, .call (.malloc 8) 232,
      .call (.free 160) 0, .call (.malloc 40) 160] c ∧ SameLive Sample.pair c ∧
    c.heap.memBrk = Sample.pair.heap.memBrk := by
  have hT := Sample.pair_tracks
  obtain ⟨c₁, h1, hl1, hT1⟩ := hT.call_step (k := .free 160)
    ⟨40, List.mem_cons_of_mem _ List.mem_cons_self⟩ trivial trivial
  obtain ⟨c₂, h2, hl2, hT2⟩ := hT1.call_step (k := .malloc 40) trivial (show 40 ≤ MAX_HEAP by decide)
    trivial
  have hr : ((Sample.pairPool.call (.free 160)).2.call (.malloc 40)).1 = 160 := by decide +kernel
  rw [hr] at h2 hl2
  have hlive : c₂.live = [(160, 40), (232, 8)] := by
    rw [hl2, hl1]
    rfl
  refine ⟨c₂, (Sample.pair_trail.snoc h1).snoc h2, ⟨fun p => ?_, fun p m hp => ?_⟩, ?_⟩
  · rw [hlive]
    exact exists_congr fun m => (List.Perm.swap (232, 8) (160, 40) []).mem_iff
  · -- the blocks of both pointers are in both pools
    have hsame : ∀ b : Block, b ∈ Sample.pairPool.blocks →
        b ∈ ((Sample.pairPool.call (.free 160)).2.call (.malloc 40)).2.blocks →
        c₂.heap.getSize (hdrp (subW (b.addr + 8) DSIZE)) =
          Sample.pair.heap.getSize (hdrp (subW (b.addr + 8) DSIZE)) := fun b hb hb' => by
      rw [hT2.rep.size_of_payload hb', hT.rep.size_of_payload hb]
    rcases List.mem_cons.mp hp with e | hp
    · obtain ⟨rfl, -⟩ := Prod.mk.inj e
      exact hsame ⟨224, 40, true⟩ (by decide +kernel) (by decide +kernel)
    · obtain ⟨rfl, -⟩ := Prod.mk.inj (List.mem_singleton.mp hp)
      exact hsame ⟨152, 72, true⟩ (by decide +kernel) (by decide +kernel)
  · rw [hT2.rep.laid.brk, hT.rep.laid.brk]
    decide +kernel

theorem layout_canonical_sample : ∃ c, Trail 8 (fun _ => 0) [.call (.malloc 40) 160,
      .call (.malloc 8) 232, .call (.free 160) 0, .call (.malloc 40) 160] c ∧
    SamePartition Sample.pair.heap c.heap ∧ SameBuckets Sample.pair.heap c.heap := by
  obtain ⟨c, hc, hl, hb⟩ := Sample.again
  exact ⟨c, hc, layout_canonical Sample.pair_ordinary ⟨_, _, hc⟩ hl hb⟩

end
end SegList

import SegList.Refine.Readout

/-!
# The layout of the heap in every ordinary run

* `tags_tile_heap`     the blocks found by the forward walk are contiguous from behind the prologue
                       to the break, header and footer of each agree, and `PREV_BLKP` retraces the
                       walk;
* `eagerly_coalesced`  no two neighbours among them are both free.
-/

set_option linter.unusedSectionVars false

open Bytes Prog Tile

namespace SegList
open Pool

/-- the boundary tags of the blocks `bps`, from behind the prologue to the break -/
structure BoundaryTags (s : Heap) (bps : List Nat) : Prop where
  /-- the first block is behind the prologue, each ends where the next one starts, the last one at
  the break -/
  contiguous : bps ++ [s.memBrk] = (s.memStartBrk + 144) :: bps.map (fun bp => bp + s.getSize (hdrp bp))
  sizes : ∀ bp ∈ bps, 32 ≤ s.getSize (hdrp bp) ∧ s.getSize (hdrp bp) % 8 = 0 ∧ bp % 8 = 0
  footers : ∀ bp ∈ bps, s.word (s.ftrp bp) = s.word (hdrp bp)
  epilogue : s.getSize (s.memBrk - 4) = 0 ∧ s.getAlloc (s.memBrk - 4) = 1
  prologue : s.heapListp = s.memStartBrk + 136 ∧ s.getSize (hdrp s.heapListp) = 8 ∧
    s.getAlloc (hdrp s.heapListp) = 1
  /-- `PREV_BLKP` of each block and of the break is the block before, the prologue at the start -/
  back : (bps ++ [s.memBrk]).map s.prevBlkp = s.heapListp :: bps
  sum : s.memStartBrk + 144 + (bps.map (fun bp => s.getSize (hdrp bp))).sum = s.memBrk

section
variable {A : Arena} {s : Heap} {a : Pool}

lemma contiguous_of_tiled {u brk : Nat} {bs : List Block} (h : Tiling u bs brk) :
    bs.map Block.addr ++ [brk] = u :: bs.map (fun b => b.addr + b.size) := by
  induction bs generalizing u with
  | nil =>
    have h0 : u = brk := h
    rw [h0]
    rfl
  | cons b bs ih =>
    obtain ⟨h1, -, h3⟩ := h
    rw [List.map_cons, List.cons_append, ih h3, h1, List.map_cons, h1]

lemma back_of_tiled {prev : Nat → Nat} {u brk q : Nat} {bs : List Block} (h : Tiling u bs brk)
    (hu : prev u = q) (hp : ∀ b ∈ bs, prev (b.addr + b.size) = b.addr) :
    (bs.map Block.addr ++ [brk]).map prev = q :: bs.map Block.addr := by
  rw [contiguous_of_tiled h, List.map_cons, hu, List.map_map]
  congr 1
  exact List.map_congr_left hp

theorem Rep.boundaryTags (R : Rep A s a) : BoundaryTags s (a.blocks.map Block.addr) := by
  have h0 := R.laid.arena
  have hsize : ∀ b ∈ a.blocks, s.getSize (hdrp b.addr) = b.size := fun b hb => (R.shows.tags b hb).1
  refine ⟨?_, ?_, ?_, ?_, ⟨?_, ?_, ?_⟩, ?_, ?_⟩
  · rw [R.laid.brk, R.laid.start, contiguous_of_tiled R.laid.tiled, List.map_map]
    refine congrArg (A.base :: ·) (List.map_congr_left (fun b hb => ?_))
    show b.addr + b.size = b.addr + s.getSize (hdrp b.addr)
    rw [hsize b hb]
  · intro bp hbp
    obtain ⟨b, hb, rfl⟩ := List.mem_map.mp hbp
    have h1 := R.laid.block hb
    rw [hsize b hb]
    exact ⟨h1.2.2.1, h1.2.2.2.1, h1.2.1⟩
  · intro bp hbp
    obtain ⟨b, hb, rfl⟩ := List.mem_map.mp hbp
    rw [R.laid.ftrp_eq hb, R.laid.hdrp_eq hb]
    exact (R.laid.tags b hb).2.trans (R.laid.tags b hb).1.symm
  · rw [R.laid.brk]
    have h1 : s.word (a.brk - 4) = 0 + 1 := R.laid.epilogue
    exact ⟨Heap.getSize_of_tag h1 rfl (by omega), Heap.getAlloc_of_tag h1 rfl (by omega)⟩
  · rw [R.laid.listp, R.laid.start]
  · rw [R.laid.listp, R.laid.hdrp_prologue]
    exact Heap.getSize_of_tag (show _ = 8 + 1 from R.laid.prologue.1) rfl (by omega)
  · rw [R.laid.listp, R.laid.hdrp_prologue]
    exact Heap.getAlloc_of_tag (show _ = 8 + 1 from R.laid.prologue.1) rfl (by omega)
  · rw [R.laid.brk, R.laid.listp]
    exact back_of_tiled R.laid.tiled R.laid.prevBlkp_base (fun b hb => R.laid.prevBlkp_eq hb)
  · have h1 := R.laid.tiled.sum
    have h2 : a.blocks.map (fun b => s.getSize (hdrp b.addr)) = a.blocks.map Block.size :=
      List.map_congr_left hsize
    rw [R.laid.brk, R.laid.start, List.map_map]
    show A.base + (a.blocks.map (fun b => s.getSize (hdrp b.addr))).sum = a.brk
    rw [h2]
    exact h1

theorem Rep.isChain_blocks (R : Rep A s a) (h : WF A.base a) : (a.blocks.map Block.addr).IsChain
    (fun x y => ¬ (s.getAlloc (hdrp x) = 0 ∧ s.getAlloc (hdrp y) = 0)) := by
  rw [List.isChain_map]
  refine List.IsChain.imp_of_mem_imp ?_ h.eager
  intro x y hx hy hxy
  rw [R.getAlloc_eq_zero hx, R.getAlloc_eq_zero hy]
  rintro ⟨h1, h2⟩
  rw [h1, h2] at hxy
  exact absurd hxy (by simp)

end

section
variable {lo : Nat} {c : Client}

/-- **Boundary tags tile the heap** in every state of an ordinary run. -/
theorem tags_tile_heap (h : Ordinary lo c) :
    ∃ bps, c.heap.blocks = some bps ∧ BoundaryTags c.heap bps := by
  obtain ⟨A, -, a, hT⟩ := h.tracks
  exact ⟨_, hT.rep.blocks_eq, hT.rep.boundaryTags⟩

theorem tags_tile_heap_sample : ∃ bps, Sample.client.heap.blocks = some bps ∧
    BoundaryTags Sample.client.heap bps := tags_tile_heap Sample.client_ordinary

/-- **No two neighbours are both free** in any state of an ordinary run. -/
theorem eagerly_coalesced (h : Ordinary lo c) :
    ∃ bps, c.heap.blocks = some bps ∧ bps.IsChain (fun x y =>
      ¬ (c.heap.getAlloc (hdrp x) = 0 ∧ c.heap.getAlloc (hdrp y) = 0)) := by
  obtain ⟨A, -, a, hT⟩ := h.tracks
  exact ⟨_, hT.rep.blocks_eq, hT.rep.isChain_blocks a.wf⟩

theorem eagerly_coalesced_sample : ∃ bps, Sample.client.heap.blocks = some bps ∧
    bps.IsChain (fun x y => ¬ (Sample.client.heap.getAlloc (hdrp x) = 0 ∧
      Sample.client.heap.getAlloc (hdrp y) = 0)) := eagerly_coalesced Sample.client_ordinary

end
end SegList

import SegList.Lib.Walk
import SegList.Refine.Run

/-!
# Reading a heap back

The blocks and the lists as a reader finds them in memory, by walking: `Heap.blocks` follows
`NEXT_BLKP` from the first block to the break, `Heap.bucket k` follows the first word of the nodes
from the `k`-th bucket to `0`.  Both are `none` when the walk never ends.

* `Rep.blocks_eq`, `Rep.bucket_eq`   in a heap that represents a pool the walks find the blocks and
                                     the sequences of the pool;
* `Rep.shows`                        so the pool can be read off the heap.
-/

set_option linter.unusedSectionVars false

open Bytes Prog Tile Walk

namespace SegList
open Pool

namespace Heap
variable (s : Heap)

/-- the forward walk from the first block after the prologue to the break -/
def blocks : Option (List Nat) :=
  walk s.nextBlkp (fun bp => bp = s.memBrk) addrSpace (s.memStartBrk + 144)

/-- the nodes of the `k`-th bucket's list -/
def bucket (k : Nat) : Option (List Nat) :=
  walk s.word (fun node => node = 0) addrSpace (s.word (s.memStartBrk + 4 * k))

/-- the walks through the heap find the blocks and the sequences of the pool `a` -/
structure Shows (s : Heap) (a : Pool) : Prop where
  brk : s.memBrk = a.brk
  blocks : s.blocks = some (a.blocks.map Block.addr)
  tags : ∀ b ∈ a.blocks, s.getSize (hdrp b.addr) = b.size ∧
    s.getAlloc (hdrp b.addr) = b.alloc.toNat
  lists : ∀ k < 32, s.bucket k = some ((a.lists k).map Block.addr)

end Heap

lemma path_of_linked {next prev : Nat → Nat} {p n : Nat} {l : List Nat}
    (h : DList.Linked next prev 0 p n l) : Path next (fun x => x = 0) n l := by
  induction l generalizing p n with
  | nil =>
    have h0 : n = 0 := h
    exact decide_eq_true h0
  | cons x xs ih => exact ⟨h.1, decide_eq_false h.2.1, ih h.2.2.2⟩

lemma path_of_tiled {next : Nat → Nat} {brk u : Nat} {bs : List Block} (h : Tiling u bs brk)
    (hn : ∀ b ∈ bs, next b.addr = b.addr + b.size) :
    Path next (fun x => x = brk) u (bs.map Block.addr) := by
  induction bs generalizing u with
  | nil =>
    have h0 : u = brk := h
    exact decide_eq_true h0
  | cons b bs ih =>
    obtain ⟨h1, h2, h3⟩ := h
    have h4 := h3.le
    refine ⟨h1.symm, decide_eq_false (show b.addr ≠ brk by omega), ?_⟩
    rw [hn b List.mem_cons_self, h1]
    exact ih h3 (fun c hc => hn c (List.mem_cons_of_mem _ hc))

namespace Rep
variable {A : Area} {s : Heap} {a : Pool}

theorem blocks_eq (R : Rep A s a) : s.blocks = some (a.blocks.map Block.addr) := by
  have h0 := R.laid.arena
  have hp := path_of_tiled R.laid.tiled (fun b hb => R.laid.nextBlkp_eq hb)
  unfold Heap.blocks
  rw [R.laid.start, R.laid.brk]
  exact walk_of_bounded hp (show A.base < 2 ^ 32 by omega) (fun x => addW_lt _ _)

theorem bucket_eq (R : Rep A s a) {k : Nat} (hk : k < 32) :
    s.bucket k = some ((a.lists k).map Block.addr) := by
  unfold Heap.bucket
  rw [R.laid.start]
  exact walk_of_bounded (path_of_linked (R.threaded.chains k hk)) (s.word_lt _) s.word_lt

/-- **The pool is read off the heap.** -/
theorem shows (R : Rep A s a) : s.Shows a := by
  refine ⟨R.laid.brk, R.blocks_eq, fun b hb => ?_, fun k hk => R.bucket_eq hk⟩
  rw [R.laid.hdrp_eq hb]
  exact ⟨R.laid.getSize_header hb, R.laid.getAlloc_header hb⟩

lemma size_of_payload (R : Rep A s a) {b : Block} (hb : b ∈ a.blocks) :
    s.getSize (hdrp (subW (b.addr + 8) DSIZE)) = b.size := by
  rw [R.laid.of_payload hb]
  exact (R.shows.tags b hb).1

lemma getAlloc_eq_zero (R : Rep A s a) {b : Block} (hb : b ∈ a.blocks) :
    s.getAlloc (hdrp b.addr) = 0 ↔ b.alloc = false := by
  rw [(R.shows.tags b hb).2]
  cases b.alloc with
  | false => exact ⟨fun _ => rfl, fun _ => rfl⟩
  | true => exact ⟨fun h => absurd h (by decide), fun h => absurd h (by decide)⟩

end Rep
end SegList

import SegList.Safety.Overhead
import SegList.Safety.Payload
import SegList.Safety.Realloc

/-!
# `mm_realloc` keeps what the client wrote

When `mm_malloc` finds memory for the new size.

* `Tracks.malloc_block`     the block that `mm_malloc` returns, next to those in use before;
* `Tracks.realloc_copied`   the copy into it misses the old payload and its own footer;
* `Tracks.realloc_freed`    the old block is free afterwards, perhaps as a part of a larger one;
* `realloc_preserves`       so the new payload starts with the bytes of the old one.
-/

set_option linter.unusedSectionVars false

open Bytes Prog

namespace SegList
open Pool

/-- the one copy of a call from `s` to `t`, made in the heap `u`: `len` bytes from `p` to `q`, the two
ranges apart, and all of them before the footer of the block of `q` -/
structure Copied (s u t : Heap) (p q len : Nat) : Prop where
  log : ∃ evs, t.trace = evs ++ s.trace ∧ copies evs = [(q, p, len)]
  apart : Disj q len p len
  before_footer : q + len ≤ u.ftrp (subW q DSIZE)

/-- from `s` to `t` the block of the payload `p` was given back and that of `q` is in use: some free
block covers what was the block of `p` -/
structure Moved (s t : Heap) (p q : Nat) : Prop where
  used : ∃ bps, t.blocks = some bps ∧ subW q DSIZE ∈ bps ∧ t.getAlloc (hdrp (subW q DSIZE)) = 1
  freed : ∃ bps, t.blocks = some bps ∧ ∃ bp ∈ bps, t.getAlloc (hdrp bp) = 0 ∧
    bp ≤ subW p DSIZE ∧ subW p DSIZE + s.headerSize p ≤ bp + t.getSize (hdrp bp)

section
variable {A : Arena} {c : Client} {a : SoundPool A.base A.limit} {p m n q r : Nat} {t u : Heap}
  {b d : Block}

lemma Tracks.malloc_block (h : Tracks A c a) (hz : n ≤ MAX_HEAP)
    (hrun : mmMalloc n c.heap = some (q, u)) (hq : q ≠ 0) :
    ∃ d, q = d.addr + 8 ∧ Rep A u (a.malloc n).2.toPool ∧
      Taken a.toPool (a.malloc n).2.toPool n d := by
  obtain ⟨rfl, R1, -⟩ := (mmMalloc_spec h.rep a.wf (fits_of_le h.rep hz)).of_run hrun
  obtain ⟨d, hd, hT⟩ := malloc_spec a.wf hq
  exact ⟨d, hd, R1, hT⟩

/-- **The copy is in order**: the two blocks are apart, and the new one has room for the request
before its footer. -/
lemma Tracks.realloc_copied (h : Tracks A c a) (hp : (p, m) ∈ c.live) (h0 : 0 < n)
    (hz : n ≤ MAX_HEAP) (hrun : mmMalloc n c.heap = some (q, u)) (hq : q ≠ 0)
    (ht : mmRealloc p n c.heap = some (r, t)) : ∃ len, Copied c.heap u t p q len := by
  have hM : MAX_HEAP = 20971520 := rfl
  obtain ⟨evs, he⟩ := (Call.realloc p n).run_grows _ r t ht
  obtain ⟨v, hv, hc⟩ := copies_of_log (h.owns.ne_zero hp) (Nat.ne_of_gt h0) ht he.symm
  rw [hrun] at hv
  obtain ⟨rfl, rfl⟩ := Prod.mk.inj (Option.some.inj hv)
  have hlen : copyLen u p n ≤ n ∧ copyLen u p n ≤ c.heap.headerSize p := by
    unfold copyLen Heap.headerSize
    rw [h.header_kept hp (by omega) (Or.inl hz) hrun]
    split <;> omega
  obtain ⟨d, rfl, R1, hT⟩ := h.malloc_block hz hrun hq
  obtain ⟨b, hb, hu, rfl, -⟩ := h.owns.backed p m hp
  rw [h.headerSize_eq hb] at hlen
  have hb1 := hT.keeps hb hu
  have h2 := R1.laid.block hT.mem
  have h3 := R1.laid.block hb1
  have h4 := R1.laid.apart hT.mem hb1 (hT.ne hb hu)
  have h5 := le_fitSize n
  have h6 := hT.size_ge
  refine ⟨copyLen u (b.addr + 8) n, ⟨evs, he.symm, hc⟩, ?_, ?_⟩
  · unfold Disj
    omega
  · rw [R1.laid.of_payload hT.mem, R1.laid.ftrp_eq hT.mem]
    omega

/-- **The old block is free**, and the new one in use. -/
lemma Tracks.realloc_freed (h : Tracks A c a) (hp : (p, m) ∈ c.live) (h0 : 0 < n)
    (hz : n ≤ MAX_HEAP) (hrun : mmMalloc n c.heap = some (q, u)) (hq : q ≠ 0)
    (hd : Does A c.heap a (.realloc p n) r t) : Moved c.heap t p q := by
  obtain ⟨d, rfl, R1, hT⟩ := h.malloc_block hz hrun hq
  have e : a.call (.realloc p n) = ((a.malloc n).1, (a.malloc n).2.free p) :=
    a.realloc_of_ne (h.owns.ne_zero hp) (Nat.ne_of_gt h0)
  have R2 := hd.rep
  rw [e] at R2
  obtain ⟨b, hb, hu, rfl, -⟩ := h.owns.backed p m hp
  have hb1 := hT.keeps hb hu
  have eb : subW (b.addr + 8) DSIZE = b.addr := h.rep.laid.of_payload hb
  have ed : subW (d.addr + 8) DSIZE = d.addr := R1.laid.of_payload hT.mem
  constructor
  · have hd2 := mem_free (a.malloc n).2.wf hb1 hu hT.mem hT.alloc (hT.ne hb hu)
    refine ⟨_, R2.blocks_eq, ?_, ?_⟩
    · rw [ed]
      exact List.mem_map_of_mem hd2
    · rw [ed, (R2.shows.tags d hd2).2, hT.alloc]
      rfl
  · obtain ⟨x, hx, hxf, h4, h5⟩ := free_covers (a.malloc n).2.wf hb1 hu
    refine ⟨_, R2.blocks_eq, x.addr, List.mem_map_of_mem hx, ?_, ?_, ?_⟩
    · rw [(R2.shows.tags x hx).2, hxf]
      rfl
    · rwa [eb]
    · rw [eb, h.headerSize_eq hb, (R2.shows.tags x hx).1]
      exact h5

end

section
variable {lo p m n q : Nat} {c : Client} {u : Heap}

/-- **`mm_realloc` preserves contents**: in every state of an ordinary run, when `mm_malloc` finds
memory for the new size, `mm_realloc` returns it with the bytes that both sizes have room for. -/
theorem realloc_preserves (h : Ordinary lo c) (hp : (p, m) ∈ c.live) (h0 : 0 < n)
    (hz : n ≤ MAX_HEAP) (hrun : mmMalloc n c.heap = some (q, u)) (hq : q ≠ 0) :
    Ends (mmRealloc p n) c.heap (fun r t => r = q ∧ (∃ len, Copied c.heap u t p q len) ∧
      (∀ i < min m n, t.mem (q + i) = c.heap.mem (p + i)) ∧ Moved c.heap t p q) := by
  obtain ⟨A, -, a, hT⟩ := h.tracks
  have hp0 : p ≠ 0 := hT.owns.ne_zero hp
  have hn0 : n ≠ 0 := Nat.ne_of_gt h0
  have hfinds : (Call.realloc p n).Finds c.heap := fun _ => ⟨q, u, hrun, hq⟩
  obtain ⟨r, t, ht, hd⟩ :=
    call_spec (k := .realloc p n) hT (Or.inr ⟨m, hp⟩) hz (hfinds.found hT hz)
  have hr : r = q := by
    obtain ⟨v, hv⟩ := mmRealloc_ret hp0 hn0 ht
    rw [hrun] at hv
    exact (Prod.mk.inj (Option.some.inj hv)).1.symm
  refine ⟨r, t, ht, hr, hT.realloc_copied hp h0 hz hrun hq ht, fun i hi => ?_,
    hT.realloc_freed hp h0 hz hrun hq hd⟩
  -- a live payload ends before the last 16 bytes of its block
  obtain ⟨b, hb, hu, hpb, hsz⟩ := hT.block hp
  rw [← hr]
  exact hd.copies p n rfl hn0 b hb hu hpb i (by omega) (by omega)

/-- the block at 160, to be of 8 bytes: `mm_malloc(8)` returns 232 -/
theorem realloc_preserves_sample : Ends (mmRealloc 160 8) Sample.client.heap (fun r t => r = 232 ∧
    (∃ len, Copied Sample.client.heap Sample.filled t 160 232 len) ∧
      (∀ i < min 40 8, t.mem (232 + i) = Sample.client.heap.mem (160 + i)) ∧
      Moved Sample.client.heap t 160 232) :=
  realloc_preserves Sample.client_ordinary (List.mem_singleton.mpr rfl) (by decide) (by decide)
    Sample.second_run.1 (by decide)

end
end SegList

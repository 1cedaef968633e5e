import SegList.Refine.Merge
import SegList.Safety.Failure

/-!
# A break that wraps

When the sum of the break and the size is `2^32` or more, `mem_sbrk` moves the break below the
arena, and `extend_heap` still makes a block: it begins at the old break, or at the last block
below it when that one is free, and most of it is not in the heap.  What lies below the block stays
as it was, and the lists run through the free blocks there and through one node outside.

* `Below A s a u o L t`     what is left of the pool `a` below `u`, with the node `o` outside;
* `extendHeap_wrapped`      a break that wraps still gives a block;
* `Rep.malloc_wrapped`      and so does `mm_malloc`, which changes no payload.
-/

set_option linter.unusedSectionVars false

open Bytes Prog Tile

namespace SegList
open Pool

/-- `u` is the end of a block, or where the blocks begin, and no block behind it is in use -/
structure Cut (A : Area) (a : Pool) (u : Nat) : Prop where
  range : A.base ≤ u ∧ u ≤ a.brk ∧ u % 8 = 0
  side : ∀ c ∈ a.blocks, c.addr + c.size ≤ u ∨ u ≤ c.addr ∧ c.alloc = false

/-- the tags below `u` and all payloads in use are as in `s` -/
structure Core (A : Area) (s : Heap) (a : Pool) (u : Nat) (t : Heap) : Prop where
  prologue : t.word (A.lo + 132) = 9 ∧ t.word (A.lo + 136) = 9
  tags : ∀ c ∈ a.blocks, c.addr + c.size ≤ u → Tagged t c
  keeps : Keeps a.blocks s t

/-- so they are, and the lists `L` run through the free blocks below `u` and perhaps through one
node outside, `o`, which is `0` when there is none -/
structure Below (A : Area) (s : Heap) (a : Pool) (u o : Nat) (L : Nat → List Nat) (t : Heap) :
    Prop extends Core A s a u t where
  strung : Strung A t L
  nodes : ∀ k, ∀ y ∈ L k, y = o ∨ ∃ c ∈ a.blocks, c.alloc = false ∧ c.addr + c.size ≤ u ∧ y = c.addr
  linked : ∀ c ∈ a.blocks, c.alloc = false → c.addr + c.size ≤ u → c.addr ∈ L (cls c.size)
  outer : u ≤ o ∨ o + 8 ≤ A.lo

/-- a word that shares no byte with the tags below `u` and the payloads in use -/
structure Spare (A : Area) (a : Pool) (u p : Nat) : Prop where
  prologue : p + 4 ≤ A.lo + 132 ∨ A.lo + 140 ≤ p
  tags : ∀ c ∈ a.blocks, c.addr + c.size ≤ u →
    (p + 8 ≤ c.addr ∨ c.addr ≤ p) ∧ (p + 12 ≤ c.addr + c.size ∨ c.addr + c.size ≤ p + 4)
  payload : ∀ c ∈ a.blocks, c.alloc = true → p + 4 ≤ c.addr ∨ c.addr + c.size ≤ p + 8

section
variable {A : Arena} {s t v : Heap} {a : Pool} {n p sz u o w : Nat} {L : Nat → List Nat} {b c x : Block}
  {C : Nat → Prop}

lemma tag_of_free (hf : b.alloc = false) : b.tag = b.size + 0 := by
  unfold Block.tag
  rw [hf]
  rfl

lemma tag_of_used (hu : b.alloc = true) : b.tag = b.size + 1 := by
  unfold Block.tag
  rw [hu]
  rfl

lemma Core.write (h : Core A s a u t) (R : Rep A s a) (hW : Writes C t v) (hC : ∀ p, C p → Spare A a u p) :
    Core A s a u v := by
  have h0 := R.laid.arena
  refine ⟨⟨?_, ?_⟩, fun c hc hle => ⟨?_, ?_⟩, fun c hc hu x h1 h2 => ?_⟩
  · rw [hW.word fun p hp => ?_]
    · exact h.prologue.1
    · have := (hC p hp).prologue
      omega
  · rw [hW.word fun p hp => ?_]
    · exact h.prologue.2
    · have := (hC p hp).prologue
      omega
  · rw [hW.word fun p hp => ?_]
    · exact (h.tags c hc hle).1
    · have := ((hC p hp).tags c hc hle).1
      have := R.laid.block hc
      omega
  · rw [hW.word fun p hp => ?_]
    · exact (h.tags c hc hle).2
    · have := ((hC p hp).tags c hc hle).2
      have := R.laid.block hc
      omega
  · rw [hW.mem x fun p hp => ?_]
    · exact h.keeps c hc hu x h1 h2
    · have := (hC p hp).payload c hc hu
      omega

lemma Core.mono (h : Core A s a u t) (hu : w ≤ u) : Core A s a w t :=
  ⟨h.prologue, fun c hc hle => h.tags c hc (le_trans hle hu), h.keeps⟩

lemma Rep.cut_top (R : Rep A s a) : Cut A a a.brk := by
  have h0 := R.laid.arena
  exact ⟨⟨h0.2.2.2.2.1, le_refl _, h0.2.2.2.2.2.2⟩, fun c hc => Or.inl (R.laid.block hc).2.2.2.2⟩

lemma Cut.spare (h : Cut A a u) (R : Rep A s a) (hp : p + 4 ≤ A.lo ∨ u ≤ p + 4) : Spare A a u p := by
  have h0 := R.laid.arena
  have h1 := h.range
  refine ⟨by omega, fun c hc hle => ?_, fun c hc hu => ?_⟩
  · have := R.laid.block hc
    omega
  · have := R.laid.block hc
    rcases h.side c hc with h2 | h2
    · omega
    · rw [hu] at h2
      exact absurd h2.2 (by simp)

lemma Cut.spare_cell (h : Cut A a u) (R : Rep A s a) (hp : Cell A L p)
    (hL : ∀ k, ∀ y ∈ L k, (u ≤ y ∨ y + 8 ≤ A.lo) ∨ ∃ c ∈ a.blocks, c.alloc = false ∧ y = c.addr) :
    Spare A a u p := by
  have h0 := R.laid.arena
  rcases hp with ⟨k, hk, rfl⟩ | ⟨k, y, hy, hpy⟩
  · refine ⟨by omega, fun c hc _ => ?_, fun c hc _ => ?_⟩
    · have := R.laid.block hc
      omega
    · have := R.laid.block hc
      omega
  · rcases hL k y hy with ho | ⟨d, hd, hf, rfl⟩
    · exact h.spare R (by omega)
    · have h1 := R.laid.block hd
      refine ⟨by omega, fun c hc _ => ?_, fun c hc hu => ?_⟩
      · have h2 := R.laid.block hc
        by_cases e : c = d
        · subst e
          omega
        · have h3 := R.laid.apart hc hd e
          omega
      · have h2 := R.laid.block hc
        have e : c ≠ d := by
          rintro rfl
          rw [hu] at hf
          exact absurd hf (by simp)
        have h3 := R.laid.apart hc hd e
        omega

namespace Below

lemma spare_cell (h : Below A s a u o L t) (hc : Cut A a u) (R : Rep A s a) (hp : Cell A L p) :
    Spare A a u p := by
  refine hc.spare_cell R hp fun k y hy => ?_
  rcases h.nodes k y hy with rfl | ⟨c, hc, hf, -, e⟩
  · exact Or.inl h.outer
  · exact Or.inr ⟨c, hc, hf, e⟩

lemma write (h : Below A s a u o L t) (hc : Cut A a u) (R : Rep A s a) (hW : Writes C t v)
    (hC : ∀ p, C p → (p + 4 ≤ A.lo ∨ u ≤ p + 4) ∧ (o = 0 ∨ p + 4 ≤ o ∨ o + 8 ≤ p)) :
    Below A s a u o L v := by
  have h0 := R.laid.arena
  have h1 := hc.range
  refine ⟨h.toCore.write R hW fun p hp => hc.spare R (hC p hp).1,
    h.strung.congr hW.start fun q hq => hW.word fun p hp => ?_, h.nodes, h.linked, h.outer⟩
  have h2 := hC p hp
  rcases hq with ⟨k, hk, rfl⟩ | ⟨k, y, hy, hqy⟩
  · omega
  · rcases h.nodes k y hy with rfl | ⟨c, hcb, -, hle, rfl⟩
    · have h3 := (h.strung.node k _ hy).pos
      omega
    · have h3 := R.laid.block hcb
      omega

lemma of_rep (R : Rep A s a) (h : WF A.base a) :
    Below A s a a.brk 0 (fun k => (a.lists k).map Block.addr) s := by
  have h0 := R.laid.arena
  refine ⟨⟨R.laid.prologue, fun c hc _ => R.laid.tags c hc, Keeps.refl _ _⟩, R.strung,
    fun k y hy => ?_, fun c hc hf _ => ?_, Or.inr (by omega)⟩
  · obtain ⟨c, hc, rfl⟩ := List.mem_map.mp hy
    obtain ⟨h1, h2, -⟩ := R.threaded.listed k c hc
    exact Or.inr ⟨c, h1, h2, (R.laid.block h1).2.2.2.2, rfl⟩
  · exact List.mem_map_of_mem (h.mem_lists hc hf)

end Below

/-! ## `extend_heap` -/

/-- the words a wrapping `extend_heap` writes at the ends of the new block -/
def WrapWord (brk sz p : Nat) : Prop :=
  p = brk - 4 ∨ p = subW (brk + sz - 2 ^ 32) 8 ∨ p = subW (brk + sz - 2 ^ 32) 4

lemma Laid.wrapWord (R : Laid A s a.blocks a.brk) (h8 : sz % 8 = 0) (h31 : sz < 2 ^ 31)
    (hw : 2 ^ 32 ≤ a.brk + sz) (hp : WrapWord a.brk sz p) :
    p + 4 ≤ A.lo ∨ a.brk ≤ p + 4 := by
  have h1 := R.arena
  unfold WrapWord subW at hp
  omega

/-- the footer and the next block, where the header of the new block puts them -/
lemma Laid.of_header (R : Laid A s a.blocks a.brk) (h8 : sz % 8 = 0) (h31 : sz < 2 ^ 31)
    (hw : 2 ^ 32 ≤ a.brk + sz) (hu : t.word (a.brk - 4) = sz) :
    t.ftrp a.brk = subW (a.brk + sz - 2 ^ 32) 8 ∧ t.nextBlkp a.brk = a.brk + sz - 2 ^ 32 := by
  have h1 := R.arena
  have e4 : hdrp a.brk = a.brk - 4 := SegList.hdrp_eq (by omega) (by omega)
  have e4' : subW a.brk WSIZE = a.brk - 4 := e4
  have hsz : t.getSize (a.brk - 4) = sz :=
    Heap.getSize_of_tag (show t.word (a.brk - 4) = sz + 0 from hu) h8 (by omega)
  have hadd : addW a.brk sz = a.brk + sz - 2 ^ 32 := by
    unfold addW
    omega
  unfold Heap.ftrp Heap.nextBlkp
  rw [e4, e4', hsz, hadd]
  exact ⟨rfl, rfl⟩

/-- before `q` ends a free block, or the tags there say that what ends is in use -/
lemma before_of_tags {q : Nat} {pre post : List Block} (R : Rep A s a) (e : a.blocks = pre ++ post)
    (hq : Tiling A.base pre q) (hpro : t.word (A.lo + 132) = 9 ∧ t.word (A.lo + 136) = 9)
    (htag : ∀ c ∈ a.blocks, c.addr + c.size ≤ q → Tagged t c) :
    t.getAlloc (t.ftrp (t.prevBlkp q)) = 1 ∨
      ∃ x ∈ a.blocks, x.alloc = false ∧ x.addr + x.size = q := by
  have h0 := R.laid.arena
  rcases List.eq_nil_or_concat' pre with rfl | ⟨pre', x, rfl⟩
  · have hbase : A.base = q := hq
    have e1 : q - 8 = A.lo + 136 := by omega
    have e2 : q - 8 - 4 = A.lo + 132 := by omega
    exact Or.inl (prev_of_tags (k := 8) (by rw [e1]; exact hpro.2) (by rw [e2]; exact hpro.1) rfl
      (by omega) (by omega) (by omega) (by omega)).2
  · have hx : x ∈ a.blocks := by simp [e]
    have h3 := R.laid.block hx
    obtain ⟨m, -, hm⟩ := tiled_append.mp hq
    have hend : x.addr + x.size = q := by
      rw [hm.1]
      exact hm.2.2
    have htx := htag x hx (by omega)
    cases hxa : x.alloc with
    | false => exact Or.inr ⟨x, hx, hxa, hend⟩
    | true =>
      have e1 : q - 8 = x.addr + x.size - 8 := by omega
      have e2 : q - x.size - 4 = x.addr - 4 := by omega
      have hbit := tag_of_used hxa
      exact Or.inl (prev_of_tags (by rw [e1, htx.2, hbit]) (by rw [e2, htx.1, hbit])
        h3.2.2.2.1 (by omega) (by omega) (by omega) (by omega)).2

/-- `r` is the break, or where the last block begins, and that block is free -/
structure Tail (A : Area) (a : Pool) (r : Nat) : Prop extends Cut A a r where
  last : r = a.brk ∨ ∃ x ∈ a.blocks, x.alloc = false ∧ x.addr = r ∧ r + x.size = a.brk

/-- the block at `r` that `extend_heap` made of the `sz` bytes at the old break and, if it was free,
the last block -/
structure Grew (A : Arena) (s : Heap) (a : Pool) (sz r : Nat) (t : Heap) : Prop where
  tail : Tail A a r
  linked : a.brk + sz - r ≤ 2 ^ 31 → ∃ L, Below A s a r r L t ∧ r ∈ L (cls (a.brk + sz - r)) ∧
    t.word (r - 4) = a.brk + sz - r

lemma Grew.alone (R : Rep A s a) (B : Below A s a a.brk 0 L t) (h8 : sz % 8 = 0) (h31 : sz < 2 ^ 31)
    (hw : 2 ^ 32 ≤ a.brk + sz) (hh : t.word (a.brk - 4) = sz)
    (hp : t.getAlloc (t.ftrp (t.prevBlkp a.brk)) = 1) (hn : t.getAlloc (hdrp (t.nextBlkp a.brk)) = 1) :
    Ends (coalesce a.brk) t (Grew A s a sz) := by
  have h0 := R.laid.arena
  have habove := A.above
  have e4 : hdrp a.brk = a.brk - 4 := hdrp_eq (by omega) (by omega)
  have hcut := R.cut_top
  have hlink : LinkAt A a.brk := ⟨h0.2.2.2.2.2.2, by omega, by omega, Or.inr (by omega)⟩
  have hin : ∀ j, ∀ y ∈ L j, y + 32 ≤ a.brk := by
    intro j y hy
    rcases B.nodes j y hy with rfl | ⟨c, hc, -, -, rfl⟩
    · exact absurd (B.strung.node j _ hy).pos (by omega)
    · have := R.laid.block hc
      omega
  have hno : ∀ j, a.brk ∉ L j := fun j hj => by
    have := hin j _ hj
    omega
  refine (B.strung.coalesce_alone (by omega) (by omega) hp hn (by rw [e4]; exact hh) h8 (by omega)
    hlink hno ?_).mono ?_
  · rw [e4]
    rintro q (⟨k, hk, rfl⟩ | ⟨k, y, hy, hqy⟩)
    · omega
    · have := hin k y hy
      omega
  · rintro r v ⟨rfl, ⟨⟨L', S', hL⟩, hhead⟩, hW⟩
    rw [e4] at hhead
    have e : a.brk + sz - a.brk = sz := by omega
    refine ⟨⟨hcut, Or.inl rfl⟩, fun _ => ⟨L', ⟨B.toCore.write R hW fun p hp => ?_, S',
      fun k y hy => ?_, fun c hc hf hle => ?_, Or.inl (le_refl _)⟩, ?_, ?_⟩⟩
    · rcases hp with rfl | rfl | hp
      · exact hcut.spare R (by omega)
      · exact hcut.spare R (by omega)
      · exact B.spare_cell hcut R hp
    · rcases (hL k y).mp hy with ⟨-, rfl⟩ | ⟨hy, -⟩
      · exact Or.inl rfl
      · rcases B.nodes k y hy with rfl | hc
        · exact absurd (B.strung.node k _ hy).pos (by omega)
        · exact Or.inr hc
    · have := R.laid.block hc
      exact (hL _ _).mpr (Or.inr ⟨B.linked c hc hf hle, by omega⟩)
    · rw [e]
      exact (hL _ _).mpr (Or.inl ⟨rfl, rfl⟩)
    · rw [e]
      exact hhead

lemma Rep.cut_last (R : Rep A s a) (hx : x ∈ a.blocks) (hf : x.alloc = false)
    (hend : x.addr + x.size = a.brk) : Cut A a x.addr := by
  have h1 := R.laid.block hx
  refine ⟨⟨h1.1, by omega, h1.2.1⟩, fun c hc => ?_⟩
  by_cases e : c = x
  · exact Or.inr ⟨by rw [e], e ▸ hf⟩
  · have h2 := R.laid.apart hc hx e
    have h3 := R.laid.block hc
    omega

lemma Grew.joined (R : Rep A s a) (B : Below A s a a.brk 0 L t) (h8 : sz % 8 = 0)
    (h31 : sz < 2 ^ 31) (hw : 2 ^ 32 ≤ a.brk + sz) (hh : t.word (a.brk - 4) = sz)
    (hn : t.getAlloc (hdrp (t.nextBlkp a.brk)) = 1) (hx : x ∈ a.blocks) (hf : x.alloc = false)
    (hend : x.addr + x.size = a.brk) : Ends (coalesce a.brk) t (Grew A s a sz) := by
  have h0 := R.laid.arena
  have habove := A.above
  have h1 := R.laid.block hx
  have hcut := R.cut_last hx hf hend
  have e4 : hdrp a.brk = a.brk - 4 := hdrp_eq (by omega) (by omega)
  have e4x : hdrp x.addr = x.addr - 4 := R.laid.hdrp_eq hx
  have eb : a.brk - x.size = x.addr := by omega
  have htag := B.tags x hx h1.2.2.2.2
  have hbit := tag_of_free hf
  have hF := R.laid.wrapWord h8 h31 hw (Or.inr (Or.inl rfl))
  have hin : ∀ j, ∀ y ∈ L j, ∃ c ∈ a.blocks, c.alloc = false ∧ y = c.addr := by
    intro j y hy
    rcases B.nodes j y hy with rfl | ⟨c, hc, hcf, -, e⟩
    · exact absurd (B.strung.node j _ hy).pos (by omega)
    · exact ⟨c, hc, hcf, e⟩
  -- no node of a list has its links where the tags are
  have hnc : ∀ q, (q = x.addr - 4 ∨ a.brk ≤ q + 8 ∨ q + 4 ≤ A.lo) → NoCell A L q := by
    rintro q hq p (⟨k, hk, rfl⟩ | ⟨k, y, hy, hpy⟩)
    · omega
    · obtain ⟨c, hc, -, rfl⟩ := hin k y hy
      have h2 := R.laid.block hc
      by_cases e : c = x
      · subst e
        omega
      · have h3 := R.laid.apart hc hx e
        omega
  have hP : PrevFree A L t a.brk x.size (subW (a.brk + sz - 2 ^ 32) 8) := by
    refine ⟨⟨h1.2.2.2.1, by omega, by omega⟩, ⟨h0.2.2.2.2.2.2, by omega, by omega⟩, ?_, ?_,
      (R.laid.of_header h8 h31 hw hh).1, by omega, ?_, hnc _ (Or.inl (by omega)),
      hnc _ (Or.inr (Or.inl (by omega))), hnc _ (Or.inr (Or.inl (by omega))), hnc _ ?_⟩
    · rw [eb, ← hbit]
      exact htag.1
    · rw [← hend, ← hbit]
      exact htag.2
    · rw [eb]
      exact B.linked x hx hf h1.2.2.2.2
    · omega
  refine (B.strung.coalesce_prev (by omega) (by omega) hP hn (by rw [e4]; exact hh) h8 h31).mono ?_
  rintro r v ⟨hr, hL⟩
  rw [eb] at hr hL
  subst hr
  refine ⟨⟨hcut, Or.inr ⟨x, hx, hf, rfl, hend⟩⟩, fun hle => ?_⟩
  have ew : a.brk + sz - x.addr = sz + x.size := by omega
  rw [ew] at hle ⊢
  obtain ⟨⟨⟨L', S', hL'⟩, hhead⟩, hW⟩ := hL hle
  rw [e4x] at hhead
  refine ⟨L', ⟨(B.toCore.mono (by omega)).write R hW fun p hp => ?_, S', fun k y hy => ?_,
    fun c hc hcf hle => ?_, Or.inl (le_refl _)⟩, (hL' _ _).mpr (Or.inl ⟨rfl, rfl⟩), hhead⟩
  · unfold MergeWord at hp
    rcases hp with hp | hp | hp
    · exact hcut.spare R (by omega)
    · exact hcut.spare R (by omega)
    · exact hcut.spare_cell R hp fun k y hy => Or.inr (hin k y hy)
  · rcases (hL' k y).mp hy with ⟨-, rfl⟩ | ⟨hy, hne⟩
    · exact Or.inl rfl
    · obtain ⟨c, hc, hcf, rfl⟩ := hin k y hy
      have h2 := R.laid.block hc
      rcases hcut.side c hc with h3 | h3
      · exact Or.inr ⟨c, hc, hcf, h3, rfl⟩
      · have e : c ≠ x := fun e => hne (by rw [e])
        have h4 := R.laid.apart hc hx e
        omega
  · have := R.laid.block hc
    exact (hL' _ _).mpr (Or.inr ⟨B.linked c hc hcf (by omega), by omega⟩)

/-- **A break that wraps still gives a block**: `extend_heap` returns the old break or the last
block, and the new break is below the arena. -/
theorem extendHeap_wrapped (R : Rep A s a) (h : WF A.base a) (h8 : sz % 8 = 0) (h31 : sz < 2 ^ 31)
    (hw : 2 ^ 32 ≤ a.brk + sz) :
    Ends (extendHeap (sz / WSIZE)) s (fun r t => Grew A s a sz r t ∧ t.memBrk < A.lo) := by
  have h1 := R.laid.arena
  have hb := R.laid.brk
  have hm := R.laid.maxAddr
  have hlim : A.limit = A.lo + 20971520 := rfl
  have hoff : offset s.memBrk sz + 2 ^ 32 = s.memBrk + sz := by
    unfold offset
    omega
  have e4 : hdrp a.brk = a.brk - 4 := hdrp_eq (by omega) (by omega)
  have hF := R.laid.wrapWord h8 h31 hw (Or.inr (Or.inl rfl))
  have hN := R.laid.wrapWord h8 h31 hw (Or.inr (Or.inr rfl))
  have hNF : subW (a.brk + sz - 2 ^ 32) 8 + 4 ≤ subW (a.brk + sz - 2 ^ 32) 4 ∧
      (subW (a.brk + sz - 2 ^ 32) 4 + 4 ≤ A.lo ∨ a.brk ≤ subW (a.brk + sz - 2 ^ 32) 8) := by
    unfold subW
    omega
  have hcut := R.cut_top
  have hends : Ends (extendHeap (sz / WSIZE)) s (Grew A s a sz) := by
    have hrun : memSbrk (toInt sz) s = some (a.brk,
        { s with memBrk := offset s.memBrk sz }.log (.sbrk sz a.brk)) := by
      rw [toInt_eq h31]
      unfold memSbrk
      rw [← hb]
      exact if_neg (by omega)
    unfold extendHeap
    simp only [ends_bind, even_words h8 (show sz < 2 ^ 32 by omega)]
    have hmo : a.brk ≠ minusOne := by
      show a.brk ≠ 4294967295
      omega
    rw [ends_of_run hrun, ends_ite_neg hmo]
    simp only [ends_bind]
    have ep : pack sz 0 = sz := pack_eq h8 (by omega)
    have ep' : pack 0 1 = 1 := rfl
    rw [ep, ep', ends_put, e4]
    -- the three words written are outside, and no node is there
    have B0 := Below.of_rep R h
    have hC : ∀ p, WrapWord a.brk sz p →
        (p + 4 ≤ A.lo ∨ a.brk ≤ p + 4) ∧ (0 = 0 ∨ p + 4 ≤ 0 ∨ 0 + 8 ≤ p) := fun p hp =>
      ⟨R.laid.wrapWord h8 h31 hw hp, Or.inl rfl⟩
    have hW0 : Writes (WrapWord a.brk sz) s
        ({ s with memBrk := offset s.memBrk sz }.log (.sbrk sz a.brk)) := ⟨rfl, fun _ _ => rfl⟩
    have hW1 := hW0.store (p := a.brk - 4) (v := sz) (Or.inl rfl)
    generalize hu : Heap.store _ (a.brk - 4) sz = u at hW1 ⊢
    have hu4 : u.word (a.brk - 4) = sz := by
      rw [← hu]
      exact Heap.word_store_self _ _ (by omega)
    rw [ends_ftrp, (R.laid.of_header h8 h31 hw hu4).1, ends_put]
    have hW2 := (hW1.log (.load (hdrp a.brk) u.memBrk)).store
      (p := subW (a.brk + sz - 2 ^ 32) 8) (v := sz) (Or.inr (Or.inl rfl))
    generalize hv : Heap.store _ (subW (a.brk + sz - 2 ^ 32) 8) sz = v at hW2 ⊢
    have hv4 : v.word (a.brk - 4) = sz := by
      rw [← hv, Heap.word_store_of_apart _ (by omega)]
      exact hu4
    rw [ends_nextBlkp, (R.laid.of_header h8 h31 hw hv4).2, hdrp_def, ends_put]
    have hW3 := (hW2.log (.load (subW a.brk WSIZE) v.memBrk)).store
      (p := subW (a.brk + sz - 2 ^ 32) 4) (v := 1) (Or.inr (Or.inr rfl))
    generalize hz : Heap.store _ (subW (a.brk + sz - 2 ^ 32) 4) 1 = z at hW3 ⊢
    have hz4 : z.word (a.brk - 4) = sz := by
      rw [← hz, Heap.word_store_of_apart _ (by omega)]
      exact hv4
    have B := B0.write hcut R hW3 hC
    have hn : z.getAlloc (hdrp (z.nextBlkp a.brk)) = 1 := by
      rw [(R.laid.of_header h8 h31 hw hz4).2, Heap.getAlloc_eq, hdrp_def, ← hz,
        Heap.word_store_self _ _ (Nat.one_lt_two_pow (by omega))]
    rcases before_of_tags R (List.append_nil _).symm R.laid.tiled B.prologue
      (fun c hc _ => B.tags c hc (R.laid.block hc).2.2.2.2) with hp | ⟨x, hx, hf, hend⟩
    · exact Grew.alone R B h8 h31 hw hz4 hp hn
    · exact Grew.joined R B h8 h31 hw hz4 hn hx hf hend
  obtain ⟨r, t, hrun, hr⟩ := hends
  have hbrk := (extendHeap_wraps R h8 h31 hw hrun).1
  exact ⟨r, t, hrun, hr, by omega⟩

/-! ## `place` and `mm_malloc` -/

/-- the block is in use, and what is left of it, if there is anything left, is the node outside -/
structure Placed (A : Arena) (s : Heap) (a : Pool) (sz r : Nat) (t : Heap) : Prop where
  keeps : Keeps a.blocks s t
  below : r = a.brk ∨ r + sz ≠ 2 ^ 32 → ∃ o L, Below A s a r o L t ∧ t.word (r - 4) % 2 = 1 ∧
    (o = 0 ∨ o = addW r sz)

lemma Below.cell_le (B : Below A s a u 0 L t) (R : Rep A s a) (hp : Cell A L p) :
    p + 4 ≤ A.lo + 128 ∧ A.lo ≤ p ∨ A.base ≤ p ∧ p + 28 ≤ u := by
  rcases hp with ⟨k, hk, rfl⟩ | ⟨k, y, hy, hpy⟩
  · omega
  · rcases B.nodes k y hy with rfl | ⟨c, hc, -, hle, rfl⟩
    · exact absurd (B.strung.node k _ hy).pos (by omega)
    · have h1 := R.laid.block hc
      omega

lemma Below.unlink {r : Nat} (B : Below A s a r r L t) (G : Cut A a r) (R : Rep A s a)
    (hr : r ∈ L (cls w)) (hh : t.word (r - 4) = w) (hw8 : w % 8 = 0) (hw : w ≤ 2 ^ 31) :
    Ends (removeFromSeglist r) t (fun _ v => ∃ L', Below A s a r 0 L' v ∧
      v.word (r - 4) = w) := by
  have h0 := R.laid.arena
  have h1 := G.range
  have e4 : hdrp r = r - 4 := hdrp_eq (by omega) (by omega)
  refine (B.strung.remove (by omega) (by omega) hr (by rw [e4]; exact hh) hw8 hw).mono ?_
  rintro - v ⟨⟨L', S', hL⟩, hW⟩
  refine ⟨L', ⟨B.toCore.write R hW fun p hp => B.spare_cell G R hp, S', fun k y hy => ?_,
    fun c hc hf hle => ?_, Or.inr (by omega)⟩, ?_⟩
  · obtain ⟨hy, hne⟩ := (hL k y).mp hy
    exact Or.inr ((B.nodes k y hy).resolve_left hne)
  · have := R.laid.block hc
    exact (hL _ _).mpr ⟨B.linked c hc hf hle, by omega⟩
  · rw [hW.word fun p hp => ?_]
    · exact hh
    · rcases hp with ⟨k, hk, rfl⟩ | ⟨k, y, hy, hpy⟩
      · omega
      · rcases B.nodes k y hy with rfl | ⟨c, hc, -, hle, rfl⟩
        · omega
        · have := R.laid.block hc
          omega

lemma Below.link {r e k : Nat} (B : Below A s a r 0 L t) (G : Cut A a r) (R : Rep A s a)
    (he : e % 8 = 0 ∧ e < 2 ^ 32 ∧ (e + 8 ≤ A.lo ∨ r + 8 ≤ e)) (hh : t.word (hdrp e) = k)
    (hk : k % 8 = 0) (h31 : k ≤ 2 ^ 31) (hr : t.word (r - 4) % 2 = 1) :
    Ends (addToSeglist e) t (fun _ v => Keeps a.blocks s v ∧
      (e ≠ 0 → ∃ L', Below A s a r e L' v ∧ v.word (r - 4) % 2 = 1)) := by
  have h0 := R.laid.arena
  have h1 := G.range
  have hcore : ∀ v, Writes (fun p => p = e ∨ p = e + 4 ∨ Cell A L p) t v → Core A s a r v := by
    intro v hW
    refine B.toCore.write R hW fun p hp => ?_
    rcases hp with rfl | rfl | hp
    · exact G.spare R (by omega)
    · exact G.spare R (by omega)
    · exact B.spare_cell G R hp
  by_cases he0 : e = 0
  · refine (B.strung.add_writes (by omega) (by omega) hh hk h31).mono fun _ v hW => ?_
    exact ⟨(hcore v hW).keeps, fun h => absurd he0 h⟩
  · have e4 : hdrp e = e - 4 := hdrp_eq (by omega) (by omega)
    have hno : ∀ j, e ∉ L j := fun j hj => by
      have := B.cell_le R (Or.inr ⟨j, e, hj, Or.inl rfl⟩)
      omega
    refine (B.strung.relink (by omega) (by omega) ⟨he.1, by omega, by omega, by omega⟩ hno hk h31 hh
      fun p hp => ?_).mono ?_
    · have := B.cell_le R hp
      omega
    · rintro - v ⟨⟨⟨L', S', hL⟩, -⟩, hW⟩
      refine ⟨(hcore v hW).keeps, fun _ => ⟨L', ⟨hcore v hW, S', fun k y hy => ?_,
        fun c hc hf hle => ?_, by omega⟩, ?_⟩⟩
      · rcases (hL k y).mp hy with ⟨-, rfl⟩ | ⟨hy, -⟩
        · exact Or.inl rfl
        · rcases B.nodes k y hy with rfl | hc
          · exact absurd (B.strung.node k _ hy).pos (by omega)
          · exact Or.inr hc
      · have := R.laid.block hc
        exact (hL _ _).mpr (Or.inr ⟨B.linked c hc hf hle, by omega⟩)
      · rw [hW.word fun p hp => ?_]
        · exact hr
        · rcases hp with rfl | rfl | hp
          · omega
          · omega
          · have := B.cell_le R hp
            omega

lemma Below.write_outer (B : Below A s a u 0 L t) (G : Cut A a u) (R : Rep A s a) (hW : Writes C t v)
    (hC : ∀ p, C p → p + 4 ≤ A.lo ∨ u ≤ p + 4) : Below A s a u 0 L v :=
  B.write G R hW fun p hp => ⟨hC p hp, Or.inl rfl⟩

/-- where the words lie that `place` writes when `e` is the address of the rest, of `k` bytes -/
lemma Cut.place_words {r e k : Nat} (G : Cut A a r) (R : Rep A s a) (h8 : sz % 8 = 0)
    (h31 : sz < 2 ^ 31) (hw : 2 ^ 32 ≤ a.brk + sz) (he : addW r sz = e) (hk : a.brk - r = k)
    (h32 : 32 ≤ k) :
    (e % 8 = 0 ∧ e < 2 ^ 32 ∧ (e + 8 ≤ A.lo ∨ r + 8 ≤ e)) ∧
      (∀ p, p = r - 4 ∨ p = subW e 8 ∨ p = subW e 4 ∨ p = subW (addW e k) 8 →
        p + 4 ≤ A.lo ∨ r ≤ p + 4) ∧
      (∀ p, p = subW e 8 ∨ p = subW e 4 ∨ p = subW (addW e k) 8 → p + 4 ≤ r - 4 ∨ r ≤ p) ∧
      (subW (addW e k) 8 + 4 ≤ subW e 4 ∨ subW e 4 + 4 ≤ subW (addW e k) 8) := by
  have h0 := R.laid.arena
  have habove := A.above
  have h1 := G.range
  have hnum : e = r + sz ∨ e + 2 ^ 32 = r + sz := by
    rw [← he]
    unfold addW
    omega
  have hlt : e < 2 ^ 32 := he ▸ addW_lt r sz
  refine ⟨by omega, fun p hp => ?_, fun p hp => ?_, ?_⟩
  · unfold subW addW at hp
    omega
  · unfold subW addW at hp
    omega
  · unfold subW addW
    omega

lemma Below.place_split {r e k : Nat} (B : Below A s a r r L t) (G : Cut A a r) (R : Rep A s a)
    (h8 : sz % 8 = 0) (h31 : sz < 2 ^ 31) (hw : 2 ^ 32 ≤ a.brk + sz) (he : addW r sz = e)
    (hk : a.brk - r = k) (h32 : 32 ≤ k) (hr : r ∈ L (cls (sz + k)))
    (hh : t.word (r - 4) = sz + k) (hle : sz + k ≤ 2 ^ 31) :
    Ends (SegList.place r sz) t (fun _ v => Keeps a.blocks s v ∧
      (e ≠ 0 → ∃ L', Below A s a r e L' v ∧ v.word (r - 4) % 2 = 1)) := by
  have h0 := R.laid.arena
  have h1 := G.range
  obtain ⟨hE, hC, hap, hap'⟩ := G.place_words R h8 h31 hw he hk h32
  have hk8 : k % 8 = 0 := by omega
  have e4 : hdrp r = r - 4 := hdrp_eq (by omega) (by omega)
  have hsz : t.getSize (r - 4) = sz + k :=
    Heap.getSize_of_tag (show t.word (r - 4) = sz + k + 0 from hh) (by omega) (by omega)
  have hrest : subW (sz + k) sz = k := by
    rw [subW_eq (by omega) (by omega)]
    omega
  have hword : ∀ v : Heap, v.word (r - 4) = sz + 1 → v.getSize (r - 4) = sz := fun v hv =>
    Heap.getSize_of_tag hv h8 (by omega)
  have ep : pack sz 1 = sz + 1 := pack_eq h8 (by omega)
  have ep' : pack k 0 = k := pack_eq hk8 (by omega)
  have B' : Below A s a r r L (t.log (.load (r - 4) t.memBrk)) :=
    B.write G R (C := fun _ => False) ⟨rfl, fun _ _ => rfl⟩ fun _ hp => hp.elim
  unfold SegList.place
  simp only [ends_bind]
  rw [ends_getSize, e4, hsz, hrest, ends_ite_pos (show k ≥ 4 * DSIZE from h32), ep, ep']
  simp only [ends_bind]
  refine (B'.unlink G R hr hh (by omega) hle).mono ?_
  rintro - u ⟨L1, B1, -⟩
  have hW1 := (Writes.refl (fun p => p = r - 4 ∨ p = subW e 8 ∨ p = subW e 4 ∨
    p = subW (addW e k) 8) u).store (p := r - 4) (v := sz + 1) (Or.inl rfl)
  rw [ends_put]
  generalize hu1 : u.store (r - 4) (sz + 1) = u1 at hW1 ⊢
  have h14 : u1.word (r - 4) = sz + 1 := by
    rw [← hu1]
    exact Heap.word_store_self _ _ (by omega)
  have hf1 : u1.ftrp r = subW e 8 := by
    unfold Heap.ftrp
    rw [e4, hword u1 h14, he]
    rfl
  rw [ends_ftrp, hf1, ends_put]
  have hW2 := (hW1.log (.load (hdrp r) u1.memBrk)).store (p := subW e 8) (v := sz + 1)
    (Or.inr (Or.inl rfl))
  generalize hu2 : Heap.store _ (subW e 8) (sz + 1) = u2 at hW2 ⊢
  have h24 : u2.word (r - 4) = sz + 1 := by
    have := hap _ (Or.inl rfl)
    rw [← hu2, Heap.word_store_of_apart _ (by omega)]
    exact h14
  have hn2 : u2.nextBlkp r = e := by
    unfold Heap.nextBlkp
    rw [show subW r WSIZE = r - 4 from e4, hword u2 h24, he]
  rw [ends_nextBlkp, hn2, hdrp_def e, ends_put]
  have hW3 := (hW2.log (.load (subW r WSIZE) u2.memBrk)).store (p := subW e 4) (v := k)
    (Or.inr (Or.inr (Or.inl rfl)))
  generalize hu3 : Heap.store _ (subW e 4) k = u3 at hW3 ⊢
  have h3e : u3.word (subW e 4) = k := by
    rw [← hu3]
    exact Heap.word_store_self _ _ (by omega)
  have h34 : u3.word (r - 4) = sz + 1 := by
    have := hap _ (Or.inr (Or.inl rfl))
    rw [← hu3, Heap.word_store_of_apart _ (by omega)]
    exact h24
  have hf3 : u3.ftrp e = subW (addW e k) 8 := by
    unfold Heap.ftrp
    rw [hdrp_def, Heap.getSize_of_tag (show u3.word (subW e 4) = k + 0 from h3e) hk8 (by omega)]
    rfl
  rw [ends_ftrp, hf3, ends_put]
  have hW4 := (hW3.log (.load (hdrp e) u3.memBrk)).store (p := subW (addW e k) 8) (v := k)
    (Or.inr (Or.inr (Or.inr rfl)))
  generalize hu4 : Heap.store _ (subW (addW e k) 8) k = u4 at hW4 ⊢
  have h4e : u4.word (hdrp e) = k := by
    rw [hdrp_def, ← hu4, Heap.word_store_of_apart _ hap']
    exact h3e
  have h44 : u4.word (r - 4) = sz + 1 := by
    have := hap _ (Or.inr (Or.inr rfl))
    rw [← hu4, Heap.word_store_of_apart _ (by omega)]
    exact h34
  exact (B1.write_outer G R hW4 hC).link G R hE h4e hk8 (by omega) (by omega)

lemma Below.place_whole (B : Below A s a a.brk a.brk L t) (G : Cut A a a.brk) (R : Rep A s a)
    (h8 : sz % 8 = 0) (h31 : sz < 2 ^ 31) (hw : 2 ^ 32 ≤ a.brk + sz) (hr : a.brk ∈ L (cls sz))
    (hh : t.word (a.brk - 4) = sz) :
    Ends (SegList.place a.brk sz) t (fun _ v => ∃ L', Below A s a a.brk 0 L' v ∧
      v.word (a.brk - 4) % 2 = 1) := by
  have h0 := R.laid.arena
  have e4 : hdrp a.brk = a.brk - 4 := hdrp_eq (by omega) (by omega)
  have hsz : t.getSize (a.brk - 4) = sz :=
    Heap.getSize_of_tag (show t.word (a.brk - 4) = sz + 0 from hh) h8 (by omega)
  have hrest : subW sz sz = 0 := by
    rw [subW_eq (by omega) (by omega), Nat.sub_self]
  have ep : pack sz 1 = sz + 1 := pack_eq h8 (by omega)
  have hadd : addW a.brk sz = a.brk + sz - 2 ^ 32 := by
    unfold addW
    omega
  have hF := R.laid.wrapWord h8 h31 hw (Or.inr (Or.inl rfl))
  have hap : subW (a.brk + sz - 2 ^ 32) 8 + 4 ≤ a.brk - 4 ∨
      a.brk - 4 + 4 ≤ subW (a.brk + sz - 2 ^ 32) 8 := by
    unfold subW
    omega
  have B' : Below A s a a.brk a.brk L (t.log (.load (a.brk - 4) t.memBrk)) :=
    B.write G R (C := fun _ => False) ⟨rfl, fun _ _ => rfl⟩ fun _ hp => hp.elim
  unfold SegList.place
  simp only [ends_bind]
  rw [ends_getSize, e4, hsz, hrest, ends_ite_neg (show ¬ 0 ≥ 4 * DSIZE by decide), ep]
  simp only [ends_bind]
  refine (B'.unlink G R hr hh h8 (by omega)).mono ?_
  rintro - u ⟨L1, B1, -⟩
  have hW1 := (Writes.refl (fun p => p = a.brk - 4 ∨ p = subW (a.brk + sz - 2 ^ 32) 8) u).store
    (p := a.brk - 4) (v := sz + 1) (Or.inl rfl)
  rw [ends_put]
  generalize hu1 : u.store (a.brk - 4) (sz + 1) = u1 at hW1 ⊢
  have h14 : u1.word (a.brk - 4) = sz + 1 := by
    rw [← hu1]
    exact Heap.word_store_self _ _ (by omega)
  have hf1 : u1.ftrp a.brk = subW (a.brk + sz - 2 ^ 32) 8 := by
    unfold Heap.ftrp
    rw [e4, Heap.getSize_of_tag h14 h8 (by omega), hadd]
    rfl
  rw [ends_ftrp, hf1, ends_put]
  have hW2 := (hW1.log (.load (hdrp a.brk) u1.memBrk)).store
    (p := subW (a.brk + sz - 2 ^ 32) 8) (v := sz + 1) (Or.inr rfl)
  refine ⟨L1, B1.write_outer G R hW2 fun p hp => by omega, ?_⟩
  rw [Heap.word_store_of_apart _ hap, Heap.log_word, h14]
  omega

/-- **`place`** on the block that a wrapping `extend_heap` made -/
theorem Grew.place {r : Nat} (G : Grew A s a sz r t) (R : Rep A s a) (h8 : sz % 8 = 0)
    (h31 : sz < 2 ^ 31) (hw : 2 ^ 32 ≤ a.brk + sz) (hle : a.brk + sz - r ≤ 2 ^ 31) :
    Ends (SegList.place r sz) t (fun _ v => Placed A s a sz r v) := by
  have h0 := R.laid.arena
  obtain ⟨⟨hcut, hlast⟩, hlink⟩ := G
  obtain ⟨L, B, hr, hh⟩ := hlink hle
  rcases hlast with rfl | ⟨x, hx, -, -, hend⟩
  · have ew : a.brk + sz - a.brk = sz := by omega
    rw [ew] at hr hh
    refine (B.place_whole hcut R h8 h31 hw hr hh).mono ?_
    rintro - v ⟨L', B', hodd⟩
    exact ⟨B'.keeps, fun _ => ⟨0, L', B', hodd, Or.inl rfl⟩⟩
  · have h1 := R.laid.block hx
    have ew : a.brk + sz - r = sz + x.size := by omega
    rw [ew] at hr hh hle
    refine (B.place_split hcut R h8 h31 hw rfl (by omega) h1.2.2.1 hr hh hle).mono ?_
    rintro - v ⟨hK, hv⟩
    refine ⟨hK, fun hne => ?_⟩
    have hne : r + sz ≠ 2 ^ 32 := hne.resolve_left (by omega)
    obtain ⟨L', B', hodd⟩ := hv (by
      unfold addW
      omega)
    exact ⟨_, L', B', hodd, Or.inr rfl⟩

lemma Below.of_mem {u' : Heap} (B : Below A u' a u o L t) (e : u'.mem = s.mem) :
    Below A s a u o L t :=
  ⟨⟨B.prologue, B.tags, (Keeps.of_mem e).trans B.keeps⟩, B.strung, B.nodes, B.linked, B.outer⟩

/-- **A request whose break wraps** returns the payload of a block at the end of the heap; if the
block has a class, the payloads in use are kept. -/
theorem Rep.malloc_wrapped (R : Rep A s a) (h : WF A.base a) (hgt : MAX_HEAP < n)
    (hn : n + 39 < 2 ^ 32) (h31 : fitSize n < 2 ^ 31) (hw : 2 ^ 32 ≤ a.brk + fitSize n) :
    Ends (mmMalloc n) s (fun p t => ∃ r, p = r + 8 ∧ Tail A a r ∧
      (a.brk + fitSize n - r ≤ 2 ^ 31 → Placed A s a (fitSize n) r t)) := by
  have h1 := R.laid.arena
  have habove := A.above
  have h8 := fitSize_mod n
  have hf := ((hopeless_of_gt R hgt hn).fit_eq_none R h).1
  have hmax : max (fitSize n) CHUNKSIZE = fitSize n := max_eq_left (by
    show 4096 ≤ fitSize n
    omega)
  rw [mmMalloc_ends R.laid.listp_ne (by omega), align_eq hn, hmax]
  refine (findFit_spec R (by omega) (by omega)).mono ?_
  intro bp u hbp
  obtain ⟨e, R1, e1⟩ := hbp
  rw [hf] at e
  refine ⟨fun hne => absurd e hne, fun _ => (extendHeap_wrapped R1 h h8 h31 hw).mono ?_⟩
  rintro r v ⟨G, -⟩
  have h2 := G.tail.range
  have hadd : addW r DSIZE = r + 8 := addW_eq (show r + 8 < 2 ^ 32 by omega)
  rw [hadd]
  refine ⟨fun h0 => by omega, fun _ => ?_⟩
  by_cases hle : a.brk + fitSize n - r ≤ 2 ^ 31
  · refine (G.place R1 h8 h31 hw hle).mono fun _ w hP => ⟨r, rfl, G.tail, fun _ => ⟨?_, fun hne => ?_⟩⟩
    · exact (Keeps.of_mem e1).trans hP.keeps
    · obtain ⟨o, L, B, hodd, ho⟩ := hP.below hne
      exact ⟨o, L, B.of_mem e1, hodd, ho⟩
  · exact (access_ends (place_built r _) v).mono fun _ w _ => ⟨r, rfl, G.tail, fun h => absurd h hle⟩

end
end SegList

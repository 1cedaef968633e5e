import SegList.Refine.Rep

/-!
# Reading tags; linking and unlinking a block

In a heap that represents a pool the macros find what they are meant to find:

* `Laid.getSize_header`, `Laid.nextBlkp`, ...   the tags of a block, and the blocks beside it;
* `Rep.ends_prevAlloc`, `Rep.ends_nextAlloc`    the two alloc bits `coalesce` looks at;
* `addToSeglist_spec`                           `push` on the pool;
* `removeFromSeglist_spec`                      `drop` on the pool.
-/

set_option linter.unusedSectionVars false

open Bytes Prog Tile

namespace SegList

/-! ## macros on a known header -/

namespace Heap
variable {s : Heap} {bp sz bit : Nat}

lemma ftrp_of_tag (h : s.word (bp - 4) = sz + bit) (hsz : sz % 8 = 0) (hb : bit < 2)
    (h4 : 4 ≤ bp) (h8 : 8 ≤ bp + sz) (hlt : bp + sz < 2 ^ 32) : s.ftrp bp = bp + sz - 8 := by
  unfold Heap.ftrp
  rw [hdrp_eq h4 (by omega), s.getSize_of_tag h hsz hb, addW_eq hlt]
  exact subW_eq h8 hlt

lemma nextBlkp_of_tag (h : s.word (bp - 4) = sz + bit) (hsz : sz % 8 = 0) (hb : bit < 2)
    (h4 : 4 ≤ bp) (hlt : bp + sz < 2 ^ 32) : s.nextBlkp bp = bp + sz := by
  have e : subW bp WSIZE = bp - 4 := subW_eq h4 (by omega)
  unfold Heap.nextBlkp
  rw [e, s.getSize_of_tag h hsz hb, addW_eq hlt]

lemma prevBlkp_of_tag (h : s.word (bp - 8) = sz + bit) (hsz : sz % 8 = 0) (hb : bit < 2)
    (h8 : 8 ≤ bp) (hle : sz ≤ bp) (hlt : bp < 2 ^ 32) : s.prevBlkp bp = bp - sz := by
  have e : subW bp DSIZE = bp - 8 := subW_eq h8 hlt
  unfold Heap.prevBlkp
  rw [e, s.getSize_of_tag h hsz hb, subW_eq hle hlt]

end Heap

namespace Laid
variable {A : Area} {s : Heap} {bs : List Block} {brk : Nat} {b : Block}

lemma hdrp_eq (R : Laid A s bs brk) (hb : b ∈ bs) : hdrp b.addr = b.addr - 4 := by
  have := R.arena
  have := R.block hb
  exact SegList.hdrp_eq (by omega) (by omega)

lemma of_payload (R : Laid A s bs brk) (hb : b ∈ bs) : subW (b.addr + 8) DSIZE = b.addr := by
  have := R.arena
  have := R.block hb
  exact subW_payload (by omega)

lemma getSize_header (R : Laid A s bs brk) (hb : b ∈ bs) : s.getSize (b.addr - 4) = b.size :=
  Heap.getSize_of_tag (R.tags b hb).1 (R.block hb).2.2.2.1 (toNat_alloc_lt b)

lemma getAlloc_header (R : Laid A s bs brk) (hb : b ∈ bs) :
    s.getAlloc (b.addr - 4) = b.alloc.toNat :=
  Heap.getAlloc_of_tag (R.tags b hb).1 (R.block hb).2.2.2.1 (toNat_alloc_lt b)

lemma getSize_footer (R : Laid A s bs brk) (hb : b ∈ bs) :
    s.getSize (b.addr + b.size - 8) = b.size :=
  Heap.getSize_of_tag (R.tags b hb).2 (R.block hb).2.2.2.1 (toNat_alloc_lt b)

lemma getAlloc_footer (R : Laid A s bs brk) (hb : b ∈ bs) :
    s.getAlloc (b.addr + b.size - 8) = b.alloc.toNat :=
  Heap.getAlloc_of_tag (R.tags b hb).2 (R.block hb).2.2.2.1 (toNat_alloc_lt b)

lemma ftrp_eq (R : Laid A s bs brk) (hb : b ∈ bs) : s.ftrp b.addr = b.addr + b.size - 8 := by
  have := R.arena
  have h := R.block hb
  exact Heap.ftrp_of_tag (R.tags b hb).1 h.2.2.2.1 (toNat_alloc_lt b) (by omega) (by omega)
    (by omega)

lemma nextBlkp_eq (R : Laid A s bs brk) (hb : b ∈ bs) : s.nextBlkp b.addr = b.addr + b.size := by
  have := R.arena
  have h := R.block hb
  exact Heap.nextBlkp_of_tag (R.tags b hb).1 h.2.2.2.1 (toNat_alloc_lt b) (by omega) (by omega)

lemma prevBlkp_eq (R : Laid A s bs brk) (hb : b ∈ bs) :
    s.prevBlkp (b.addr + b.size) = b.addr := by
  have := R.arena
  have h := R.block hb
  rw [Heap.prevBlkp_of_tag (R.tags b hb).2 h.2.2.2.1 (toNat_alloc_lt b) (by omega) (by omega)
    (by omega)]
  omega

lemma prevBlkp_base (R : Laid A s bs brk) : s.prevBlkp A.base = A.lo + 136 := by
  have h := R.arena
  have e : s.word (A.base - 8) = 8 + 1 := R.prologue.2
  rw [Heap.prevBlkp_of_tag e rfl (by omega) (by omega) (by omega) (by omega)]
  omega

lemma nextBlkp_prologue (R : Laid A s bs brk) : s.nextBlkp (A.lo + 136) = A.base := by
  have h := R.arena
  have e : s.word (A.lo + 136 - 4) = 8 + 1 := R.prologue.1
  rw [Heap.nextBlkp_of_tag e rfl (by omega) (by omega) (by omega)]
  omega

lemma hdrp_prologue (R : Laid A s bs brk) : hdrp (A.lo + 136) = A.lo + 132 := by
  have h := R.arena
  exact SegList.hdrp_eq (by omega) (by omega)

lemma ftrp_prologue (R : Laid A s bs brk) : s.ftrp (A.lo + 136) = A.lo + 136 := by
  have h := R.arena
  have e : s.word (A.lo + 136 - 4) = 8 + 1 := R.prologue.1
  rw [Heap.ftrp_of_tag e rfl (by omega) (by omega) (by omega) (by omega)]
  omega

end Laid

namespace Rep
variable {A : Area} {s : Heap} {a : Pool} {pre post : List Block} {b : Block}

lemma ends_get (R : Rep A s a) {p : Nat} (hp : p % 4 = 0) (h1 : A.lo ≤ p) (h2 : p + 4 ≤ a.brk)
    {Q : Nat → Heap → Prop} (hQ : ∀ t, Rep A t a → t.mem = s.mem → Q (s.word p) t) :
    Ends (get p) s Q :=
  SegList.ends_get.mpr (hQ _ (R.load (R.laid.inHeap hp h1 h2)) rfl)

/-- the alloc bit of the block before `b`; the prologue is in use -/
def prevBit (pre : List Block) : Nat := (pre.getLast?.elim true Block.alloc).toNat

/-- the alloc bit of the block after `b`; the epilogue is in use -/
def nextBit (post : List Block) : Nat := (post.head?.elim true Block.alloc).toNat

lemma prev_words (R : Rep A s a) (e : a.blocks = pre ++ b :: post) :
    s.InHeap (b.addr - 8) ∧ s.InHeap (hdrp (s.prevBlkp b.addr)) ∧
      s.InHeap (s.ftrp (s.prevBlkp b.addr)) ∧
      s.getAlloc (s.ftrp (s.prevBlkp b.addr)) = prevBit pre := by
  have h0 := R.laid.arena
  have hb : b ∈ a.blocks := by simp [e]
  have h1 := R.laid.block hb
  have ht := R.laid.tiled
  rw [e] at ht
  obtain ⟨h2, -, -⟩ := ht.split
  refine ⟨R.laid.inHeap (by omega) (by omega) (by omega), ?_⟩
  rcases List.eq_nil_or_concat pre with rfl | ⟨pre', c, rfl⟩
  · have h3 : A.base = b.addr := h2
    rw [← h3, R.laid.prevBlkp_base, R.laid.ftrp_prologue, R.laid.hdrp_prologue]
    exact ⟨R.laid.inHeap (by omega) (by omega) (by omega),
      R.laid.inHeap (by omega) (by omega) (by omega),
      Heap.getAlloc_of_tag (show _ = 8 + 1 from R.laid.prologue.2) rfl Nat.one_lt_two⟩
  · have hc : c ∈ a.blocks := by simp [e]
    have h3 := R.laid.block hc
    rw [List.concat_eq_append] at h2
    obtain ⟨m, -, h4⟩ := tiled_append.mp h2
    have h5 : c.addr + c.size = b.addr := by
      rw [h4.1]
      exact h4.2.2
    rw [← h5, R.laid.prevBlkp_eq hc, R.laid.ftrp_eq hc, R.laid.hdrp_eq hc,
      R.laid.getAlloc_footer hc]
    refine ⟨R.laid.inHeap (by omega) (by omega) (by omega),
      R.laid.inHeap (by omega) (by omega) (by omega), ?_⟩
    show _ = (((pre'.concat c).getLast?).elim true Block.alloc).toNat
    rw [List.concat_eq_append, List.getLast?_concat]
    rfl

lemma next_words (R : Rep A s a) (e : a.blocks = pre ++ b :: post) :
    s.InHeap (b.addr - 4) ∧ s.InHeap (hdrp (s.nextBlkp b.addr)) ∧
      s.getAlloc (hdrp (s.nextBlkp b.addr)) = nextBit post := by
  have h0 := R.laid.arena
  have hb : b ∈ a.blocks := by simp [e]
  have h1 := R.laid.block hb
  have ht := R.laid.tiled
  rw [e] at ht
  obtain ⟨-, -, h2⟩ := ht.split
  refine ⟨R.laid.inHeap (by omega) (by omega) (by omega), ?_⟩
  rw [R.laid.nextBlkp_eq hb, SegList.hdrp_eq (by omega) (by omega)]
  refine ⟨R.laid.inHeap (by omega) (by omega) (by omega), ?_⟩
  cases post with
  | nil =>
    have h3 : b.addr + b.size = a.brk := h2
    rw [h3]
    exact Heap.getAlloc_of_tag (show _ = 0 + 1 from R.laid.epilogue) rfl Nat.one_lt_two
  | cons c post =>
    have hc : c ∈ a.blocks := by simp [e]
    have h3 : c.addr = b.addr + b.size := h2.1
    rw [← h3]
    exact R.laid.getAlloc_header hc

/-- **The alloc bit before `b`**, as `coalesce` reads it -/
theorem ends_prevAlloc (R : Rep A s a) (e : a.blocks = pre ++ b :: post) {Q : Nat → Heap → Prop}
    (hQ : ∀ t, Rep A t a → t.mem = s.mem → Q (prevBit pre) t) :
    Ends (ftrpOf (prevBlkp b.addr)) s (fun q t => Ends (getAlloc q) t Q) := by
  have h0 := R.laid.arena
  have hb : b ∈ a.blocks := by simp [e]
  have h1 := R.laid.block hb
  have e8 : subW b.addr DSIZE = b.addr - 8 := subW_eq (show 8 ≤ b.addr by omega) (by omega)
  obtain ⟨h2, h3, h4, h5⟩ := R.prev_words e
  simp only [ends_ftrpOf_prev, ends_getAlloc, Heap.log_getAlloc, e8, h5]
  exact hQ _ ((((R.load h2).load h2).load h3).load h4) rfl

/-- **The alloc bit after `b`**, as `coalesce` reads it -/
theorem ends_nextAlloc (R : Rep A s a) (e : a.blocks = pre ++ b :: post) {Q : Nat → Heap → Prop}
    (hQ : ∀ t, Rep A t a → t.mem = s.mem → Q (nextBit post) t) :
    Ends (nextBlkp b.addr) s (fun p t => Ends (getAlloc (hdrp p)) t Q) := by
  have h0 := R.laid.arena
  have hb : b ∈ a.blocks := by simp [e]
  have h1 := R.laid.block hb
  have e4 : subW b.addr WSIZE = b.addr - 4 := subW_eq (show 4 ≤ b.addr by omega) (by omega)
  obtain ⟨h2, h3, h4⟩ := R.next_words e
  simp only [ends_nextBlkp, ends_getAlloc, Heap.log_getAlloc, e4, h4]
  exact hQ _ ((R.load h2).load h3) rfl

lemma ends_getSize (R : Rep A s a) (hb : b ∈ a.blocks) {Q : Nat → Heap → Prop}
    (hQ : ∀ t, Rep A t a → t.mem = s.mem → Q b.size t) : Ends (getSize (hdrp b.addr)) s Q := by
  have h0 := R.laid.arena
  have h1 := R.laid.block hb
  rw [SegList.ends_getSize, R.laid.hdrp_eq hb, R.laid.getSize_header hb]
  exact hQ _ (R.load (R.laid.inHeap (by omega) (by omega) (by omega))) rfl

end Rep

/-! ## linking and unlinking -/

section
variable {A : Area} {s : Heap} {a : Pool} {b : Block}

lemma Rep.findBucket_eq (R : Rep A s a) (hb : b ∈ a.blocks) :
    findBucket (b.size / WSIZE) s = some (A.lo + 4 * cls b.size, s) := by
  have h0 := R.laid.arena
  have h1 := R.laid.block hb
  have hk := R.laid.cls_lt hb
  have e : addW s.memStartBrk (WSIZE * Nat.clog 2 b.size) = A.lo + 4 * cls b.size := by
    rw [R.laid.start]
    exact addW_eq (show A.lo + 4 * cls b.size < 2 ^ 32 by omega)
  rw [findBucket_run s b.size (by omega) (by omega), if_pos (by omega), e]

lemma Rep.ends_bucket (R : Rep A s a) (hb : b ∈ a.blocks) {Q : Nat → Heap → Prop}
    (hQ : Q (A.lo + 4 * cls b.size) s) : Ends (findBucket (b.size / WSIZE)) s Q :=
  (ends_of_run (R.findBucket_eq hb)).mpr hQ

/-- **`add_to_seglist` pushes a free block** that is in no list so far. -/
theorem addToSeglist_spec (R : Rep A s a) (hb : b ∈ a.blocks) (hf : b.alloc = false)
    (hn : b ∉ a.lists (cls b.size)) :
    Ends (addToSeglist b.addr) s (fun _ t =>
      Rep A t ⟨a.blocks, push a.lists b, a.brk⟩ ∧ Keeps a.blocks s t) := by
  have hk := R.laid.cls_lt hb
  unfold addToSeglist
  simp only [ends_bind]
  apply R.ends_getSize hb
  intro u R1 e1
  apply R1.ends_bucket hb
  have hl : ∀ c ∈ b :: a.lists (cls b.size),
      c ∈ a.blocks ∧ c.alloc = false ∧ cls c.size = cls b.size := by
    intro c hc
    rcases List.mem_cons.mp hc with rfl | hc
    · exact ⟨hb, hf, rfl⟩
    · exact R.threaded.listed _ c hc
  have hnd : (b :: a.lists (cls b.size)).Nodup :=
    List.nodup_cons.mpr ⟨hn, R.threaded.nodup _⟩
  have ha := R1.laid.apart_links hk (fun c hc => (hl c hc).1) hnd
  refine (addToBucket_spec (R1.threaded.chains _ hk) ha).mono ?_
  rintro - t ⟨hc, hT⟩
  have hC : ∀ p, addCells (A.lo + 4 * cls b.size) b.addr ((a.lists (cls b.size)).map Block.addr) p →
      Rep.ListWord A a (cls b.size) p := by
    rintro p (rfl | rfl | rfl | ⟨y, hy, rfl⟩)
    · exact Or.inl rfl
    · exact Or.inr ⟨b, hb, hf, rfl, Or.inl rfl⟩
    · exact Or.inr ⟨b, hb, hf, rfl, Or.inr rfl⟩
    · rw [List.head?_map] at hy
      obtain ⟨c, hc, rfl⟩ := Option.mem_map.mp hy
      obtain ⟨h3, h4, h5⟩ := R.threaded.listed _ c (List.mem_of_mem_head? hc)
      exact Or.inr ⟨c, h3, h4, h5, Or.inr rfl⟩
  obtain ⟨h1, h2⟩ := R1.relist hk hl hnd hc hT hC
  exact ⟨h1, (Keeps.of_mem e1).trans h2⟩

/-- a block unlinked, in any heap that has the list of its class: only this list is touched -/
theorem Rep.unlink (R : Rep A s a) (hb : b ∈ a.lists (cls b.size)) {w : Heap}
    (hw : Chain w (A.lo + 4 * cls b.size) ((a.lists (cls b.size)).map Block.addr)) :
    Ends (removeFromBucket b.addr (A.lo + 4 * cls b.size)) w (fun _ t =>
      Chain t (A.lo + 4 * cls b.size) (((a.lists (cls b.size)).erase b).map Block.addr) ∧
        Touches (Rep.ListWord A a (cls b.size)) w t) := by
  obtain ⟨hbb, hf, -⟩ := R.threaded.listed _ b hb
  have hk := R.laid.cls_lt hbb
  obtain ⟨pre, post, e⟩ := List.append_of_mem hb
  have hnd := R.threaded.nodup (cls b.size)
  have hl := R.threaded.listed (cls b.size)
  have ha := R.laid.apart_links hk (fun c hc => (hl c hc).1) hnd
  have he : (a.lists (cls b.size)).erase b = pre ++ post := by
    rw [e] at hnd ⊢
    have h1 : b ∉ pre := fun h => (List.nodup_append.mp hnd).2.2 b h b List.mem_cons_self rfl
    rw [List.erase_append_right _ h1, List.erase_cons_head]
  rw [e, List.map_append, List.map_cons] at hw ha
  refine (removeFromBucket_spec hw ha).mono ?_
  rintro - t ⟨hc, hT⟩
  rw [← List.map_append, ← he] at hc
  have hlink : ∀ c ∈ a.lists (cls b.size), ∀ q, q = c.addr ∨ q = c.addr + 4 →
      Rep.ListWord A a (cls b.size) q := by
    intro c hc q hq
    obtain ⟨h3, h4, h5⟩ := hl c hc
    exact Or.inr ⟨c, h3, h4, h5, hq⟩
  -- the touched links are those of `b`, of the node before it and of the node after it
  refine ⟨hc, hT.mono ?_⟩
  rintro p (rfl | rfl | rfl | hp | ⟨y, hy, rfl⟩)
  · exact Or.inl rfl
  · exact hlink b hb _ (Or.inl rfl)
  · exact hlink b hb _ (Or.inr rfl)
  · rw [List.getLast?_map] at hp
    obtain ⟨c, hc, rfl⟩ := Option.mem_map.mp hp
    refine hlink c ?_ _ (Or.inl rfl)
    rw [e]
    exact List.mem_append_left _ (List.mem_of_getLast? hc)
  · rw [List.head?_map] at hy
    obtain ⟨c, hc, rfl⟩ := Option.mem_map.mp hy
    refine hlink c ?_ _ (Or.inr rfl)
    rw [e]
    exact List.mem_append_right _ (List.mem_cons_of_mem _ (List.mem_of_mem_head? hc))

/-- **`remove_from_seglist` drops a block** from the list of its class. -/
theorem removeFromSeglist_spec (R : Rep A s a) (hb : b ∈ a.lists (cls b.size)) :
    Ends (removeFromSeglist b.addr) s (fun _ t =>
      Rep A t ⟨a.blocks, drop a.lists b, a.brk⟩ ∧ Keeps a.blocks s t) := by
  have hbb := (R.threaded.listed _ b hb).1
  have hk := R.laid.cls_lt hbb
  have hl := R.threaded.listed (cls b.size)
  unfold removeFromSeglist
  simp only [ends_bind]
  apply R.ends_getSize hbb
  intro u R1 e1
  apply R1.ends_bucket hbb
  refine (R1.unlink hb (R1.threaded.chains _ hk)).mono ?_
  rintro - t ⟨hc, hT⟩
  obtain ⟨h1, h2⟩ := R1.relist hk (fun c hc => hl c (List.mem_of_mem_erase hc))
    ((R.threaded.nodup _).erase b) hc hT (fun _ hp => hp)
  exact ⟨h1, (Keeps.of_mem e1).trans h2⟩

end
end SegList

import SegList.Refine.Seglist

/-!
# Splitting and merging in memory

The steps that write tags, each on a heap that represents a pool:

* `ends_tag`        header, then footer through the header just written;
* `place_spec`      `place` is `Pool.place`;
* `coalesce_spec`   `coalesce` is `Pool.join`, in its four cases.

In all of them the lists are unlinked before a header changes and relinked after, because the
class of a block is read from its header.
-/

set_option linter.unusedSectionVars false

open Bytes Prog Tile

namespace SegList
open Pool

/-! ## writing tags -/

/-- the heap after the tags of a block at `bp` are written: header, then footer -/
def Heap.tagged (s : Heap) (bp sz bit : Nat) : Heap :=
  ((s.store (bp - 4) (sz + bit)).log (.load (bp - 4) s.memBrk)).store (bp + sz - 8) (sz + bit)

section
variable {s : Heap} {bp sz bit : Nat}

lemma tagged_header (h4 : 4 ≤ bp) (h8 : 8 ≤ sz ∨ sz = 0 ∧ 8 ≤ bp) (hlt : sz + bit < 2 ^ 32) :
    (s.tagged bp sz bit).word (bp - 4) = sz + bit := by
  unfold Heap.tagged
  rw [Heap.word_store_of_apart _ (by omega), Heap.log_word, Heap.word_store_self _ _ hlt]

lemma tagged_footer (hlt : sz + bit < 2 ^ 32) :
    (s.tagged bp sz bit).word (bp + sz - 8) = sz + bit := Heap.word_store_self _ _ hlt

lemma tagged_of_apart {q : Nat} (h4 : 4 ≤ bp) (h8 : 8 ≤ bp + sz) (h1 : bp ≤ q ∨ q + 8 ≤ bp)
    (h2 : bp + sz ≤ q + 4 ∨ q + 12 ≤ bp + sz) : (s.tagged bp sz bit).word q = s.word q := by
  unfold Heap.tagged
  rw [Heap.word_store_of_apart _ (by omega), Heap.log_word, Heap.word_store_of_apart _ (by omega)]

lemma Touches.tagged {C : Nat → Prop} {t : Heap} (h : Touches C s t) (h1 : C (bp - 4))
    (h2 : C (bp + sz - 8)) : Touches C s (t.tagged bp sz bit) :=
  ((h.store h1).load h1).store h2

/-- **Both tags written**, the footer found through the header just written -/
theorem ends_tag (h8 : sz % 8 = 0) (hb : bit < 2) (h4 : 4 ≤ bp) (hsz : 8 ≤ bp + sz)
    (hlt : bp + sz < 2 ^ 32) {Q : Unit → Heap → Prop} :
    Ends (put (hdrp bp) (pack sz bit)) s
      (fun _ t => Ends (ftrp bp) t (fun q u => Ends (put q (pack sz bit)) u Q))
      ↔ Q () (s.tagged bp sz bit) := by
  have e : (s.store (bp - 4) (sz + bit)).ftrp bp = bp + sz - 8 :=
    Heap.ftrp_of_tag (Heap.word_store_self _ _ (by omega)) h8 hb h4 (by omega) hlt
  rw [ends_put, ends_ftrp, ends_put, hdrp_eq h4 (by omega), pack_eq h8 hb, e]
  exact Iff.rfl

end

/-- the word at `p` lies between the header word of a block at `u` and its end `v` -/
def Within (u v p : Nat) : Prop := p % 4 = 0 ∧ u ≤ p + 4 ∧ p + 8 ≤ v

namespace Rep
variable {A : Area} {s : Heap} {a : Pool} {pre post : List Block} {b c : Block}

lemma ends_nextBlkp (R : Rep A s a) (hb : b ∈ a.blocks) {Q : Nat → Heap → Prop}
    (hQ : ∀ t, Rep A t a → t.mem = s.mem → Q (b.addr + b.size) t) :
    Ends (nextBlkp b.addr) s Q := by
  have h0 := R.laid.arena
  have h1 := R.laid.block hb
  have e4 : subW b.addr WSIZE = b.addr - 4 := subW_eq (show 4 ≤ b.addr by omega) (by omega)
  rw [SegList.ends_nextBlkp, R.laid.nextBlkp_eq hb, e4]
  exact hQ _ (R.load (R.laid.inHeap (by omega) (by omega) (by omega))) rfl

lemma ends_prevBlkp (R : Rep A s a) (hc : c ∈ a.blocks) {Q : Nat → Heap → Prop}
    (hQ : ∀ t, Rep A t a → t.mem = s.mem → Q c.addr t) :
    Ends (prevBlkp (c.addr + c.size)) s Q := by
  have h0 := R.laid.arena
  have h1 := R.laid.block hc
  have e8 : subW (c.addr + c.size) DSIZE = c.addr + c.size - 8 :=
    subW_eq (show 8 ≤ c.addr + c.size by omega) (by omega)
  rw [SegList.ends_prevBlkp, R.laid.prevBlkp_eq hc, e8]
  exact hQ _ (R.load (R.laid.inHeap (by omega) (by omega) (by omega))) rfl

lemma ends_ftrp (R : Rep A s a) (hb : b ∈ a.blocks) {Q : Nat → Heap → Prop}
    (hQ : ∀ t, Rep A t a → t.mem = s.mem → Q (b.addr + b.size - 8) t) :
    Ends (ftrp b.addr) s Q := by
  have h0 := R.laid.arena
  have h1 := R.laid.block hb
  rw [SegList.ends_ftrp, R.laid.ftrp_eq hb, R.laid.hdrp_eq hb]
  exact hQ _ (R.load (R.laid.inHeap (by omega) (by omega) (by omega))) rfl

lemma ends_ftrpOf_next (R : Rep A s a) (hb : b ∈ a.blocks) (hc : c ∈ a.blocks)
    (e : c.addr = b.addr + b.size) {Q : Nat → Heap → Prop}
    (hQ : ∀ t, Rep A t a → t.mem = s.mem → Q (c.addr + c.size - 8) t) :
    Ends (ftrpOf (nextBlkp b.addr)) s Q := by
  have h0 := R.laid.arena
  have h1 := R.laid.block hb
  have h2 := R.laid.block hc
  have e4 : subW b.addr WSIZE = b.addr - 4 := subW_eq (show 4 ≤ b.addr by omega) (by omega)
  have h3 := R.laid.inHeap (p := b.addr - 4) (by omega) (by omega) (by omega)
  have h4 := R.laid.inHeap (p := c.addr - 4) (by omega) (by omega) (by omega)
  rw [SegList.ends_ftrpOf_next, R.laid.nextBlkp_eq hb, ← e, R.laid.ftrp_eq hc, R.laid.hdrp_eq hc, e4]
  exact hQ _ (((R.load h3).load h3).load h4) rfl

lemma ends_getSize_footer (R : Rep A s a) (hb : b ∈ a.blocks) {Q : Nat → Heap → Prop}
    (hQ : ∀ t, Rep A t a → t.mem = s.mem → Q b.size t) :
    Ends (getSize (b.addr + b.size - 8)) s Q := by
  have h0 := R.laid.arena
  have h1 := R.laid.block hb
  rw [SegList.ends_getSize, R.laid.getSize_footer hb]
  exact hQ _ (R.load (R.laid.inHeap (by omega) (by omega) (by omega))) rfl

end Rep

/-! ## placing -/

section
variable {A : Area} {s t : Heap} {a : Pool} {pre mid post : List Block} {b : Block} {sz : Nat}

lemma mem_stays (e : a.blocks = pre ++ b :: post) (hf : b.alloc = false) (mid : List Block) :
    ∀ c ∈ a.blocks, c.alloc = true → c ∈ pre ++ mid ++ post := by
  intro c hc hu
  rw [e, List.mem_append, List.mem_cons] at hc
  rw [List.mem_append, List.mem_append]
  rcases hc with hc | rfl | hc
  · exact Or.inl (Or.inl hc)
  · rw [hf] at hu
    exact absurd hu (by simp)
  · exact Or.inr hc

/-- a free block in no list is exchanged for blocks that cover the same space -/
lemma Rep.exchange (R : Rep A s a) (e : a.blocks = pre ++ b :: post) (hf : b.alloc = false)
    (hL : ∀ k, b ∉ a.lists k) (ht : Tiling b.addr mid (b.addr + b.size)) (hz : Sized mid)
    (hT : Touches (Within b.addr (b.addr + b.size)) s t) (htag : ∀ c ∈ mid, Tagged t c) :
    Rep A t ⟨pre ++ mid ++ post, a.lists, a.brk⟩ ∧ Keeps a.blocks s t := by
  have hb : b ∈ a.blocks := by simp [e]
  have h1 := R.laid.block hb
  have e' : a.blocks = pre ++ [b] ++ post := by simpa using e
  obtain ⟨h2, h3⟩ := R.retile e' (by simp) (tiled_single.mpr ⟨rfl, by omega, rfl⟩) ht hz
    (fun k c hc hcb => hL k (List.mem_singleton.mp hcb ▸ hc)) hT (fun p hp => hp) htag
  refine ⟨h2, h3.mono fun c hc hu => ?_⟩
  simpa using mem_stays e hf [] c hc hu

lemma split_tags (h4 : 4 ≤ b.addr) (h32 : 32 ≤ sz) (hsp : 32 ≤ b.size - sz)
    (hlt : b.size < 4294967295) {ev : Event} :
    ∀ c ∈ [⟨b.addr, sz, true⟩, (⟨b.addr + sz, b.size - sz, false⟩ : Block)],
      Tagged (((s.tagged b.addr sz 1).log ev).tagged (b.addr + sz) (b.size - sz) 0) c := by
  intro c hc
  simp only [List.mem_cons, List.not_mem_nil, or_false] at hc
  rcases hc with rfl | rfl
  · refine ⟨?_, ?_⟩
    · show Heap.word _ (b.addr - 4) = sz + 1
      rw [tagged_of_apart (by omega) (by omega) (by omega) (by omega), Heap.log_word,
        tagged_header (by omega) (by omega) (by omega)]
    · show Heap.word _ (b.addr + sz - 8) = sz + 1
      rw [tagged_of_apart (by omega) (by omega) (by omega) (by omega), Heap.log_word,
        tagged_footer (by omega)]
  · exact ⟨tagged_header (by omega) (by omega) (by omega), tagged_footer (by omega)⟩

/-- **`place` hands out a free block**, split when the rest is a block of its own. -/
theorem place_spec (R : Rep A s a) (h : WF A.base a) (hb : b ∈ a.blocks) (hf : b.alloc = false)
    (h32 : 32 ≤ sz) (h8 : sz % 8 = 0) (hsb : sz ≤ b.size) :
    Ends (place b.addr sz) s (fun _ t => Rep A t (a.place b sz) ∧ Keeps a.blocks s t) := by
  have h0 := R.laid.arena
  have h1 := R.laid.block hb
  obtain ⟨pre, post, e⟩ := List.append_of_mem hb
  have hL : ∀ k, b ∉ drop a.lists b k := by
    intro k hm
    obtain ⟨h2, h3⟩ := (mem_drop h.nodup).mp hm
    exact h3 ⟨rfl, ((h.listed k b).mp h2).2.2.symm⟩
  have hsub : subW b.size sz = b.size - sz := subW_eq hsb (by omega)
  have e4 : subW b.addr WSIZE = b.addr - 4 := subW_eq (show 4 ≤ b.addr by omega) (by omega)
  unfold place
  simp only [ends_bind]
  apply R.ends_getSize hb
  intro u R1 e1
  rw [hsub]
  by_cases hsp : 32 ≤ b.size - sz
  · rw [ends_ite_pos (show b.size - sz ≥ 4 * DSIZE from hsp), place_split h e hsp]
    simp only [ends_bind]
    refine (removeFromSeglist_spec R1 (h.mem_lists hb hf)).mono ?_
    rintro - v ⟨R2, K2⟩
    rw [ends_tag h8 (by omega) (by omega) (by omega) (by omega), SegList.ends_nextBlkp,
      Heap.nextBlkp_of_tag (tagged_header (by omega) (by omega) (by omega)) h8 (by omega)
        (by omega) (by omega),
      ends_tag (by omega) (by omega) (by omega) (by omega) (by omega), e4]
    have hH : Within b.addr (b.addr + b.size) (b.addr - 4) := ⟨by omega, by omega, by omega⟩
    have hT : Touches (Within b.addr (b.addr + b.size)) v
        (((v.tagged b.addr sz 1).log (.load (b.addr - 4) v.memBrk)).tagged
          (b.addr + sz) (b.size - sz) 0) :=
      (((Touches.refl _ v).tagged hH ⟨by omega, by omega, by omega⟩).load hH).tagged
        ⟨by omega, by omega, by omega⟩ ⟨by omega, by omega, by omega⟩
    have ht : Tiling b.addr [⟨b.addr, sz, true⟩, ⟨b.addr + sz, b.size - sz, false⟩]
        (b.addr + b.size) := split_tiling (by omega) (by omega)
    obtain ⟨R3, K3⟩ := R2.exchange e hf hL ht (split_sized h32 h8 hsp h1.2.2.2.1) hT
      (split_tags (by omega) h32 hsp (by omega))
    have hr : (⟨b.addr + sz, b.size - sz, false⟩ : Block) ∉
        drop a.lists b (cls (b.size - sz)) := fun hm =>
      h.not_mem_rest hb (by omega) (by omega)
        ((h.listed _ _).mp ((mem_drop h.nodup).mp hm).1).1
    refine (addToSeglist_spec (b := ⟨b.addr + sz, b.size - sz, false⟩) R3 (by simp) rfl hr).mono ?_
    rintro - t ⟨R4, K4⟩
    have hp : placed b sz = ⟨b.addr, sz, true⟩ := if_pos hsp
    rw [hp]
    exact ⟨by simpa using R4, (Keeps.of_mem e1).trans (K2.trans (K3.trans
      (K4.mono (mem_stays e hf _))))⟩
  · rw [ends_ite_neg (show ¬ b.size - sz ≥ 4 * DSIZE from hsp), place_whole h e hsp]
    simp only [ends_bind]
    refine (removeFromSeglist_spec R1 (h.mem_lists hb hf)).mono ?_
    rintro - v ⟨R2, K2⟩
    rw [ends_tag (by omega) (by omega) (by omega) (by omega) (by omega)]
    have hT : Touches (Within b.addr (b.addr + b.size)) v (v.tagged b.addr b.size 1) :=
      (Touches.refl _ v).tagged ⟨by omega, by omega, by omega⟩ ⟨by omega, by omega, by omega⟩
    have htag : ∀ c ∈ [(⟨b.addr, b.size, true⟩ : Block)], Tagged (v.tagged b.addr b.size 1) c := by
      intro c hc
      rw [List.mem_singleton.mp hc]
      exact ⟨tagged_header (by omega) (by omega) (by omega), tagged_footer (by omega)⟩
    obtain ⟨R3, K3⟩ := R2.exchange e hf hL (whole_tiling (by omega)) (whole_sized h1.2.2.1 h1.2.2.2.1)
      hT htag
    have hp : placed b sz = ⟨b.addr, b.size, true⟩ := if_neg hsp
    rw [hp]
    exact ⟨by simpa using R3, (Keeps.of_mem e1).trans (K2.trans K3)⟩

end
/-! ## merging -/

namespace Pool
variable {A : Area} {s v w : Heap} {pre post before after : List Block} {p n : Option Block}
  {b x y : Block} {L : Nat → List Block} {brk : Nat}

lemma Sides.prevBit_none (hs : Sides pre post before none n after) : Rep.prevBit pre = 1 := by
  have e : pre = before := by simpa using hs.pre_eq
  have h := hs.p_none rfl
  unfold Rep.prevBit
  rw [e]
  cases hx : before.getLast? with
  | none => rfl
  | some x =>
    rw [hx] at h
    show x.alloc.toNat = 1
    rw [h x rfl]
    rfl

lemma Sides.prevBit_some (hs : Sides pre post before (some x) n after) : Rep.prevBit pre = 0 := by
  have e : pre = before ++ [x] := hs.pre_eq
  unfold Rep.prevBit
  rw [e, List.getLast?_concat]
  show x.alloc.toNat = 0
  rw [hs.p_free x rfl]
  rfl

lemma Sides.nextBit_none (hs : Sides pre post before p none after) : Rep.nextBit post = 1 := by
  have e : post = after := by simpa using hs.post_eq
  have h := hs.n_none rfl
  unfold Rep.nextBit
  rw [e]
  cases hy : after.head? with
  | none => rfl
  | some y =>
    rw [hy] at h
    show y.alloc.toNat = 1
    rw [h y rfl]
    rfl

lemma Sides.nextBit_some (hs : Sides pre post before p (some y) after) : Rep.nextBit post = 0 := by
  have e : post = y :: after := hs.post_eq
  rw [e]
  show y.alloc.toNat = 0
  rw [hs.n_free y rfl]
  rfl

lemma Loose.prev_adjacent {base : Nat} (h : Loose base brk pre b post L)
    (hs : Sides pre post before (some x) n after) : x ∈ pre ++ b :: post ∧ x.addr + x.size = b.addr := by
  have e : pre = before ++ [x] := hs.pre_eq
  obtain ⟨h1, -, -⟩ := h.tiled.split
  rw [e] at h1
  obtain ⟨m, -, h2⟩ := tiled_append.mp h1
  refine ⟨by simp [e], ?_⟩
  rw [h2.1]
  exact h2.2.2

lemma Loose.next_adjacent {base : Nat} (h : Loose base brk pre b post L)
    (hs : Sides pre post before p (some y) after) : y ∈ pre ++ b :: post ∧ y.addr = b.addr + b.size := by
  have e : post = y :: after := hs.post_eq
  obtain ⟨-, -, h1⟩ := h.tiled.split
  rw [e] at h1
  exact ⟨by simp [e], h1.1⟩

lemma Loose.mem_list {base : Nat} (h : Loose base brk pre b post L) (hx : x ∈ pre ∨ x ∈ post)
    (hf : x.alloc = false) : x ∈ L (cls x.size) := (h.listed _ x).mpr ⟨hx, hf, rfl⟩

/-- **The last step of every case**: the neighbours are unlinked, the tags of the merged block are
written, and it is linked. -/
theorem Loose.relink (h : Loose A.base brk pre b post L) (hs : Sides pre post before p n after)
    (R : Rep A v ⟨pre ++ b :: post, dropOpt (dropOpt L n) p, brk⟩)
    (hT : Touches (Within (merged p b n).addr ((merged p b n).addr + (merged p b n).size)) v w)
    (hg : Tagged w (merged p b n)) (hK : Keeps (pre ++ post) s v) :
    Ends (addToSeglist (merged p b n).addr) w (fun _ t =>
      Rep A t ⟨before ++ merged p b n :: after,
        push (dropOpt (dropOpt L n) p) (merged p b n), brk⟩ ∧ Keeps (pre ++ post) s t) := by
  have ht := h.tiled
  rw [hs.blocks_eq] at ht
  obtain ⟨z, h1, -⟩ := tiled_append.mp ht
  obtain ⟨u, -, h2⟩ := tiled_append.mp h1
  have h3 := merged_tiled h2
  obtain ⟨h4, -, h5⟩ := h3
  have h5' : u + (merged p b n).size = z := h5
  subst h5'
  subst h4
  obtain ⟨h6, h7⟩ := merged_size_mod h.sized hs
  have hout : ∀ k, ∀ c ∈ dropOpt (dropOpt L n) p k, c ∉ p.toList ++ b :: n.toList := by
    intro k c hc hm
    obtain ⟨h8, h9, h10⟩ := h.mem_stays hs ((h.mem_dropped hs).mp hc).1
    simp only [List.mem_append, List.mem_cons, Option.mem_toList] at hm
    rcases hm with hm | hm | hm
    · exact h8 hm
    · exact h10 hm
    · exact h9 hm
  have ht := merged_tiled h2
  obtain ⟨R1, K1⟩ := R.retile hs.blocks_eq (by simp) h2 ht
    (fun c hc => by rw [List.mem_singleton.mp hc]; exact ⟨h6, h7⟩) hout hT (fun q hq => hq)
    (fun c hc => by rw [List.mem_singleton.mp hc]; exact hg)
  have hm : merged p b n ∉ dropOpt (dropOpt L n) p (cls (merged p b n).size) := by
    intro hm
    have hnd := (h.tiled_merged hs).nodup
    rw [List.nodup_append, List.nodup_cons] at hnd
    rcases ((h.mem_dropped hs).mp hm).1 with h8 | h8
    · exact hnd.2.2 _ h8 _ List.mem_cons_self rfl
    · exact hnd.2.1.1 h8
  have hstay : ∀ c ∈ pre ++ post, c.alloc = true → c ∈ before ++ after := by
    intro c hc hu
    rw [List.mem_append, hs.mem_pre, hs.mem_post] at hc
    rw [List.mem_append]
    rcases hc with (hc | hc) | hc | hc
    · exact Or.inl hc
    · rw [hs.p_free c hc] at hu
      exact absurd hu (by simp)
    · rw [hs.n_free c hc] at hu
      exact absurd hu (by simp)
    · exact Or.inr hc
  refine (addToSeglist_spec (b := merged p b n) R1 (by simp) rfl hm).mono ?_
  rintro - t ⟨R2, K2⟩
  refine ⟨by simpa using R2, hK.trans ((K1.mono hstay).trans (K2.mono fun c hc hu => ?_))⟩
  have h8 := hstay c hc hu
  rw [List.mem_append] at h8
  show c ∈ before ++ [merged p b n] ++ after
  rw [List.mem_append, List.mem_append]
  rcases h8 with h8 | h8
  · exact Or.inl (Or.inl h8)
  · exact Or.inr h8

end Pool

section
variable {A : Area} {s : Heap} {pre post before after : List Block} {b x y : Block}
  {L : Nat → List Block} {brk : Nat}

lemma merged_alone (hf : b.alloc = false) : merged none b none = b := by
  show (⟨b.addr, 0 + b.size + 0, false⟩ : Block) = b
  rw [Nat.zero_add, Nat.add_zero, ← hf]

lemma Rep.numbers (R : Rep A s ⟨pre ++ b :: post, L, brk⟩) (hx : x ∈ pre ++ b :: post) :
    8 ≤ x.addr ∧ x.addr % 8 = 0 ∧ 32 ≤ x.size ∧ x.size % 8 = 0 ∧ x.addr + x.size < 4294967289 := by
  have h0 := R.laid.arena
  have h1 := R.laid.block hx
  have h2 : x.addr + x.size ≤ brk := h1.2.2.2.2
  have h3 : brk ≤ A.lo + 20971520 := h0.2.2.2.2.2.1
  omega

/-- what `coalesce` reads first: the two alloc bits beside `b`, and its size -/
lemma Rep.ends_around (R : Rep A s ⟨pre ++ b :: post, L, brk⟩) {Q : Nat → Nat → Nat → Heap → Prop}
    (hQ : ∀ t, Rep A t ⟨pre ++ b :: post, L, brk⟩ → t.mem = s.mem →
      Q (prevBit pre) (nextBit post) b.size t) :
    Ends (ftrpOf (prevBlkp b.addr)) s (fun y t1 => Ends (getAlloc y) t1
      (fun pa t2 => Ends (nextBlkp b.addr) t2 (fun z t3 => Ends (getAlloc (hdrp z)) t3
        (fun na t4 => Ends (getSize (hdrp b.addr)) t4 (Q pa na))))) := by
  apply R.ends_prevAlloc rfl
  intro t1 R1 e1
  apply R1.ends_nextAlloc rfl
  intro t2 R2 e2
  apply R2.ends_getSize (by simp)
  intro t3 R3 e3
  exact hQ t3 R3 (e3.trans (e2.trans e1))

lemma Keeps.around {t : Heap} (h : Keeps (pre ++ b :: post) s t) : Keeps (pre ++ post) s t := by
  refine h.mono fun c hc _ => ?_
  rw [List.mem_append] at hc
  rw [List.mem_append, List.mem_cons]
  rcases hc with hc | hc
  · exact Or.inl hc
  · exact Or.inr (Or.inr hc)

section
variable {t : Heap}

lemma Rep.prevBlkp_of (R : Rep A s ⟨pre ++ b :: post, L, brk⟩) (hx : x ∈ pre ++ b :: post)
    (ax : x.addr + x.size = b.addr) (ht : t.word (b.addr - 8) = s.word (b.addr - 8)) :
    t.prevBlkp b.addr = x.addr := by
  have nx := R.numbers hx
  have h1 : s.word (b.addr - 8) = x.size + x.alloc.toNat := by
    rw [← ax]
    exact (R.laid.tags x hx).2
  rw [Heap.prevBlkp_of_tag (ht.trans h1) (by omega) (toNat_alloc_lt x) (by omega) (by omega)
    (by omega)]
  omega

lemma Rep.nextBlkp_of (R : Rep A s ⟨pre ++ b :: post, L, brk⟩) (hx : x ∈ pre ++ b :: post)
    (ht : t.word (x.addr - 4) = s.word (x.addr - 4)) : t.nextBlkp x.addr = x.addr + x.size := by
  have nx := R.numbers hx
  exact Heap.nextBlkp_of_tag (ht.trans (R.laid.tags x hx).1) (by omega) (toNat_alloc_lt x)
    (by omega) (by omega)

lemma Rep.ftrp_of (R : Rep A s ⟨pre ++ b :: post, L, brk⟩) (hx : x ∈ pre ++ b :: post)
    (ht : t.word (x.addr - 4) = s.word (x.addr - 4)) : t.ftrp x.addr = x.addr + x.size - 8 := by
  have nx := R.numbers hx
  exact Heap.ftrp_of_tag (ht.trans (R.laid.tags x hx).1) (by omega) (toNat_alloc_lt x)
    (by omega) (by omega) (by omega)

end

variable {p n : Option Block}

/-- what a case of `coalesce` reaches -/
def Merges (A : Area) (s : Heap) (pre post before : List Block) (p : Option Block) (b : Block)
    (n : Option Block) (after : List Block) (L : Nat → List Block) (brk r : Nat) (t : Heap) : Prop :=
  r = (merged p b n).addr ∧
    Rep A t ⟨before ++ merged p b n :: after,
      push (dropOpt (dropOpt L n) p) (merged p b n), brk⟩ ∧ Keeps (pre ++ post) s t

/-- case 1: both neighbours in use -/
lemma coalesce_alone (R : Rep A s ⟨pre ++ b :: post, L, brk⟩) (h : Loose A.base brk pre b post L)
    (hs : Sides pre post before none none after) :
    Ends (coalesce b.addr) s (Merges A s pre post before none b none after L brk) := by
  unfold coalesce
  simp only [ends_bind]
  apply R.ends_around
  intro v R1 e1
  rw [hs.prevBit_none, hs.nextBit_none, ends_ite_pos (by decide)]
  simp only [ends_bind, ends_pure]
  have hm := merged_alone h.free
  have hg : Tagged v (merged none b none) := by
    rw [hm]
    exact R1.laid.tags b (by simp)
  have h1 := h.relink hs R1 (Touches.refl _ v) hg (Keeps.of_mem e1)
  rw [hm] at h1
  refine h1.mono fun _ t ht => ⟨?_, ?_⟩
  · rw [hm]
  · rwa [hm]

/-- case 2: the next block is free -/
lemma coalesce_next (R : Rep A s ⟨pre ++ b :: post, L, brk⟩) (h : Loose A.base brk pre b post L)
    (hs : Sides pre post before none (some y) after) :
    Ends (coalesce b.addr) s (Merges A s pre post before none b (some y) after L brk) := by
  have hb : b ∈ pre ++ b :: post := by simp
  have nb := R.numbers hb
  obtain ⟨hy, ay⟩ := h.next_adjacent hs
  have ny := R.numbers hy
  have hyl := h.mem_list (x := y) (Or.inr (hs.mem_post.mpr (Or.inl rfl))) (hs.n_free y rfl)
  have esz : addW b.size y.size = b.size + y.size := addW_eq (by omega)
  have hm : merged none b (some y) = ⟨b.addr, b.size + y.size, false⟩ := by
    show (⟨b.addr, 0 + b.size + y.size, false⟩ : Block) = _
    rw [Nat.zero_add]
  unfold coalesce
  simp only [ends_bind]
  apply R.ends_around
  intro t1 R1 e1
  rw [hs.prevBit_none, hs.nextBit_some, ends_ite_neg (by decide), ends_ite_pos (by decide)]
  simp only [ends_bind, ends_pure]
  apply R1.ends_nextBlkp hb
  intro t2 R2 e2
  rw [← ay]
  apply R2.ends_getSize hy
  intro t3 R3 e3
  apply R3.ends_nextBlkp hb
  intro t4 R4 e4
  rw [← ay, esz]
  refine (removeFromSeglist_spec R4 hyl).mono ?_
  rintro - v ⟨R5, K5⟩
  rw [ends_tag (by omega) (by omega) (by omega) (by omega) (by omega)]
  have hT : Touches (Within b.addr (b.addr + (b.size + y.size))) v
      (v.tagged b.addr (b.size + y.size) 0) :=
    (Touches.refl _ v).tagged ⟨by omega, by omega, by omega⟩ ⟨by omega, by omega, by omega⟩
  have hg : Tagged (v.tagged b.addr (b.size + y.size) 0) (merged none b (some y)) := by
    rw [hm]
    exact ⟨tagged_header (by omega) (by omega) (by omega), tagged_footer (by omega)⟩
  have hK := ((Keeps.of_mem (e4.trans (e3.trans (e2.trans e1)))).trans K5).around
  have h1 := h.relink hs R5 (by rw [hm]; exact hT) hg hK
  rw [hm] at h1
  refine h1.mono fun _ t ht => ⟨?_, ?_⟩
  · rw [hm]
  · rwa [hm]

/-- case 3: the block before is free; the footer is written first -/
lemma coalesce_prev (R : Rep A s ⟨pre ++ b :: post, L, brk⟩) (h : Loose A.base brk pre b post L)
    (hs : Sides pre post before (some x) none after) :
    Ends (coalesce b.addr) s (Merges A s pre post before (some x) b none after L brk) := by
  have hb : b ∈ pre ++ b :: post := by simp
  have nb := R.numbers hb
  obtain ⟨hx, ax⟩ := h.prev_adjacent hs
  have nx := R.numbers hx
  have hxl := h.mem_list (x := x) (Or.inl (hs.mem_pre.mpr (Or.inr rfl))) (hs.p_free x rfl)
  have esz : addW b.size x.size = x.size + b.size := by
    rw [addW_eq (by omega)]
    omega
  have epk : pack (x.size + b.size) 0 = x.size + b.size := pack_eq (by omega) (by omega)
  have e8 : subW b.addr DSIZE = b.addr - 8 := subW_eq (show 8 ≤ b.addr by omega) (by omega)
  have hm : merged (some x) b none = ⟨x.addr, x.size + b.size, false⟩ := rfl
  unfold coalesce
  simp only [ends_bind]
  apply R.ends_around
  intro t1 R1 e1
  rw [hs.prevBit_some, hs.nextBit_none, ends_ite_neg (by decide), ends_ite_neg (by decide),
    ends_ite_pos (by decide)]
  simp only [ends_bind, ends_pure]
  rw [← ax]
  apply R1.ends_prevBlkp hx
  intro t2 R2 e2
  apply R2.ends_getSize hx
  intro t3 R3 e3
  apply R3.ends_prevBlkp hx
  intro t4 R4 e4
  rw [ax, esz, epk]
  refine (removeFromSeglist_spec R4 hxl).mono ?_
  rintro - v ⟨R5, K5⟩
  apply R5.ends_ftrp hb
  intro v' R6 e6
  simp only [ends_put, SegList.ends_prevBlkp, e8]
  rw [R6.prevBlkp_of hx ax (Heap.word_store_of_apart _ (by omega)), hdrp_eq (by omega) (by omega),
    R6.prevBlkp_of hx ax (by
      rw [Heap.word_store_of_apart _ (by omega), Heap.log_word,
        Heap.word_store_of_apart _ (by omega)])]
  have hH : Within x.addr (x.addr + (x.size + b.size)) (x.addr - 4) := ⟨by omega, by omega, by omega⟩
  have hF : Within x.addr (x.addr + (x.size + b.size)) (b.addr + b.size - 8) :=
    ⟨by omega, by omega, by omega⟩
  have hP : Within x.addr (x.addr + (x.size + b.size)) (b.addr - 8) := ⟨by omega, by omega, by omega⟩
  have hT := (((((Touches.refl _ v').store (v := x.size + b.size) hF).load hP).store
    (v := x.size + b.size) hH).load hP)
  have hK := (((Keeps.of_mem (e4.trans (e3.trans (e2.trans e1)))).trans K5).trans
    (Keeps.of_mem e6)).around
  have h1 := h.relink hs R6 hT ?_ hK
  · exact h1.mono fun _ t ht => ⟨rfl, ht⟩
  · rw [hm]
    refine ⟨?_, ?_⟩
    · show Heap.word _ (x.addr - 4) = x.size + b.size
      rw [Heap.log_word, Heap.word_store_self _ _ (by omega)]
    · have e : x.addr + (x.size + b.size) - 8 = b.addr + b.size - 8 := by omega
      show Heap.word _ (x.addr + (x.size + b.size) - 8) = x.size + b.size
      rw [e, Heap.log_word, Heap.word_store_of_apart _ (by omega), Heap.log_word,
        Heap.word_store_self _ _ (by omega)]

lemma Rep.ends_unlink_both (R : Rep A s ⟨pre ++ b :: post, L, brk⟩)
    (h : Loose A.base brk pre b post L) (hs : Sides pre post before (some x) (some y) after)
    {Q : Unit → Heap → Prop} (hQ : ∀ v, Rep A v ⟨pre ++ b :: post, drop (drop L y) x, brk⟩ →
      Keeps (pre ++ post) s v → Q () v) :
    Ends (removeFromSeglist y.addr) s (fun _ t =>
      Ends (prevBlkp b.addr) t (fun q u => Ends (removeFromSeglist q) u Q)) := by
  obtain ⟨hx, ax⟩ := h.prev_adjacent hs
  have nx := R.numbers hx
  obtain ⟨hy, ay⟩ := h.next_adjacent hs
  have hyl := h.mem_list (x := y) (Or.inr (hs.mem_post.mpr (Or.inl rfl))) (hs.n_free y rfl)
  have hxl : x ∈ drop L y (cls x.size) := by
    refine (mem_drop h.nodup).mpr ⟨h.mem_list (Or.inl (hs.mem_pre.mpr (Or.inr rfl)))
      (hs.p_free x rfl), ?_⟩
    rintro ⟨rfl, -⟩
    omega
  refine (removeFromSeglist_spec R hyl).mono ?_
  rintro - t ⟨R1, K1⟩
  rw [← ax]
  apply R1.ends_prevBlkp hx
  intro u R2 e2
  refine (removeFromSeglist_spec R2 hxl).mono ?_
  rintro - v ⟨R3, K3⟩
  exact hQ v R3 ((K1.trans (Keeps.of_mem e2)).trans K3).around

/-- case 4: both neighbours are free -/
lemma coalesce_both (R : Rep A s ⟨pre ++ b :: post, L, brk⟩) (h : Loose A.base brk pre b post L)
    (hs : Sides pre post before (some x) (some y) after) :
    Ends (coalesce b.addr) s (Merges A s pre post before (some x) b (some y) after L brk) := by
  have hb : b ∈ pre ++ b :: post := by simp
  have nb := R.numbers hb
  obtain ⟨hx, ax⟩ := h.prev_adjacent hs
  have nx := R.numbers hx
  obtain ⟨hy, ay⟩ := h.next_adjacent hs
  have ny := R.numbers hy
  have esz : addW b.size (addW x.size y.size) = x.size + b.size + y.size := by
    rw [addW_eq (a := x.size) (by omega), addW_eq (by omega)]
    omega
  have epk : pack (x.size + b.size + y.size) 0 = x.size + b.size + y.size :=
    pack_eq (by omega) (by omega)
  have e8 : subW b.addr DSIZE = b.addr - 8 := subW_eq (show 8 ≤ b.addr by omega) (by omega)
  have e4 : subW b.addr WSIZE = b.addr - 4 := subW_eq (show 4 ≤ b.addr by omega) (by omega)
  unfold coalesce
  simp only [ends_bind]
  apply R.ends_around
  intro t1 R1 e1
  rw [hs.prevBit_some, hs.nextBit_some, ends_ite_neg (by decide), ends_ite_neg (by decide),
    ends_ite_neg (by decide)]
  simp only [ends_bind, ends_pure]
  rw [← ax]
  apply R1.ends_prevBlkp hx
  intro t2 R2 e2
  apply R2.ends_getSize hx
  intro t3 R3 e3
  rw [ax]
  apply R3.ends_ftrpOf_next hb hy ay
  intro t5 R5 e5
  apply R5.ends_getSize_footer hy
  intro t6 R6 e6
  apply R6.ends_nextBlkp hb
  intro t7 R7 e7
  rw [← ay, esz, epk]
  apply R7.ends_unlink_both h hs
  intro v R8 K8
  rw [← ax]
  apply R8.ends_prevBlkp hx
  intro v' R9 e9
  have e4y : hdrp y.addr = y.addr - 4 := hdrp_eq (by omega) (by omega)
  rw [ax]
  simp only [ends_put, SegList.ends_ftrpOf_next, SegList.ends_prevBlkp, e8, e4,
    hdrp_eq (show 4 ≤ x.addr by omega) (show x.addr < 2 ^ 32 by omega)]
  rw [R9.nextBlkp_of hb (Heap.word_store_of_apart _ (by omega)), ← ay,
    R9.ftrp_of hy (Heap.word_store_of_apart _ (by omega)),
    R9.prevBlkp_of hx ax (by
      rw [Heap.word_store_of_apart _ (by omega), Heap.log_word, Heap.log_word, Heap.log_word,
        Heap.word_store_of_apart _ (by omega)]), e4y]
  have hH : Within x.addr (x.addr + (x.size + b.size + y.size)) (x.addr - 4) :=
    ⟨by omega, by omega, by omega⟩
  have hB : Within x.addr (x.addr + (x.size + b.size + y.size)) (b.addr - 4) :=
    ⟨by omega, by omega, by omega⟩
  have hY : Within x.addr (x.addr + (x.size + b.size + y.size)) (y.addr - 4) :=
    ⟨by omega, by omega, by omega⟩
  have hF : Within x.addr (x.addr + (x.size + b.size + y.size)) (y.addr + y.size - 8) :=
    ⟨by omega, by omega, by omega⟩
  have hP : Within x.addr (x.addr + (x.size + b.size + y.size)) (b.addr - 8) :=
    ⟨by omega, by omega, by omega⟩
  have hT := (((((((Touches.refl _ v').store (v := x.size + b.size + y.size) hH).load hB).load
    hB).load hY).store (v := x.size + b.size + y.size) hF).load hP)
  have e71 := e7.trans (e6.trans (e5.trans (e3.trans (e2.trans e1))))
  have hK := ((Keeps.of_mem e71).trans K8).trans (Keeps.of_mem e9)
  have h1 := h.relink hs R9 hT ?_ hK
  · exact h1.mono fun _ t ht => ⟨rfl, ht⟩
  · refine ⟨?_, ?_⟩
    · show Heap.word _ (x.addr - 4) = x.size + b.size + y.size
      rw [Heap.log_word, Heap.word_store_of_apart _ (by omega), Heap.log_word, Heap.log_word,
        Heap.log_word, Heap.word_store_self _ _ (by omega)]
    · have e : x.addr + (x.size + b.size + y.size) - 8 = y.addr + y.size - 8 := by omega
      show Heap.word _ (x.addr + (x.size + b.size + y.size) - 8) = x.size + b.size + y.size
      rw [e, Heap.log_word, Heap.word_store_self _ _ (by omega)]

/-- **`coalesce` merges a free block** that is in no list with its free neighbours, and links the
result. -/
theorem coalesce_spec (R : Rep A s ⟨pre ++ b :: post, L, brk⟩)
    (h : Loose A.base brk pre b post L) :
    Ends (coalesce b.addr) s (fun r t => r = (join pre b post L brk).1.addr ∧
      Rep A t (join pre b post L brk).2 ∧ Keeps (pre ++ post) s t) := by
  obtain ⟨before, p, n, after, hs, e⟩ := join_eq pre b post L brk
  rw [e]
  cases p with
  | none =>
    cases n with
    | none => exact coalesce_alone R h hs
    | some y => exact coalesce_next R h hs
  | some x =>
    cases n with
    | none => exact coalesce_prev R h hs
    | some y => exact coalesce_both R h hs

end
end SegList

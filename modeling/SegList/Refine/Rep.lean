import SegList.Refine.Bucket
import SegList.Pool.Sound

/-!
# A heap represents a pool

`Rep A s a`: in the heap `s` over the area `A` every block of the pool `a` has its size and its
alloc bit in its header and its footer, the prologue and the epilogue stand at the two ends, and
the list of each bucket runs through the blocks of its sequence.  A represented pool need not be
well formed: between the steps of an operation a block may be in no list.

The relation has two halves, `Laid` (static variables, tiling, tags) and `Threaded` (lists), and
three steps keep it; all operations are made of them:

* `Rep.load`     a word is read;
* `Rep.relist`   the sequence of one class changes;
* `Rep.retile`   blocks that are in no list are exchanged for others, with their tags written.

`Keeps bs s t`: the payload of every block in use among `bs` has the same bytes in `s` and `t`.
-/

set_option linter.unusedSectionVars false

open Bytes Prog Tile

namespace SegList

theorem MAX_HEAP_eq : MAX_HEAP = 20971520 := rfl

/-- where the heap lies: an 8-aligned address, not `NULL`, with room for `MAX_HEAP` bytes -/
structure Area where
  lo : Nat
  pos : 0 < lo
  aligned : lo % 8 = 0
  room : lo + MAX_HEAP < 2 ^ 32

namespace Area
variable (A : Area)

/-- the first block, behind the bucket table and the prologue -/
def base : Nat := A.lo + 144

/-- the end of the arena -/
def limit : Nat := A.lo + MAX_HEAP

end Area

/-- where the arena of an ordinary run lies: there is room for three heaps above it -/
structure Arena extends Area where
  fits : lo + 3 * MAX_HEAP < 2 ^ 32

instance : Coe Arena Area := ⟨Arena.toArea⟩

/-- the room above the heap, for `omega` -/
theorem Arena.above (A : Arena) : A.lo + 62914560 < 4294967296 := A.fits

/-- the header and footer word of a block -/
def Block.tag (b : Block) : Nat := b.size + b.alloc.toNat

/-- the header and the footer of `b` are in memory -/
def Tagged (s : Heap) (b : Block) : Prop :=
  s.word (b.addr - 4) = b.tag ∧ s.word (b.addr + b.size - 8) = b.tag

/-- the blocks `bs` tile the space up to `top`, between prologue and epilogue, with their tags -/
structure Laid (A : Area) (s : Heap) (bs : List Block) (top : Nat) : Prop where
  start : s.memStartBrk = A.lo
  brk : s.memBrk = top
  maxAddr : s.memMaxAddr = A.limit
  listp : s.heapListp = A.lo + 136
  tiled : Tiling A.base bs top
  sized : Pool.Sized bs
  brk_le : top ≤ A.limit
  prologue : s.word (A.lo + 132) = 9 ∧ s.word (A.lo + 136) = 9
  epilogue : s.word (top - 4) = 1
  tags : ∀ b ∈ bs, Tagged s b

/-- the lists of the buckets run through free blocks among `bs`, each of its class -/
structure Threaded (A : Area) (s : Heap) (bs : List Block) (L : Nat → List Block) : Prop where
  listed : ∀ k, ∀ b ∈ L k, b ∈ bs ∧ b.alloc = false ∧ cls b.size = k
  nodup : ∀ k, (L k).Nodup
  chains : ∀ k < 32, Chain s (A.lo + 4 * k) ((L k).map Block.addr)

/-- **The heap `s` over the arena `A` represents the pool `a`.** -/
structure Rep (A : Area) (s : Heap) (a : Pool) : Prop where
  laid : Laid A s a.blocks a.brk
  threaded : Threaded A s a.blocks a.lists
  clean : s.Clean

/-- the payloads of the blocks in use among `bs` are the same -/
def Keeps (bs : List Block) (s t : Heap) : Prop :=
  ∀ b ∈ bs, b.alloc = true → ∀ x, b.addr ≤ x → x < b.addr + b.size - 8 → t.mem x = s.mem x

namespace Keeps
variable {bs bs' : List Block} {s t u : Heap}

theorem refl (bs : List Block) (s : Heap) : Keeps bs s s := fun _ _ _ _ _ _ => rfl

theorem of_mem (h : t.mem = s.mem) : Keeps bs s t := fun _ _ _ x _ _ => congrFun h x

theorem trans (h : Keeps bs s t) (h' : Keeps bs t u) : Keeps bs s u :=
  fun b hb hu x h1 h2 => (h' b hb hu x h1 h2).trans (h b hb hu x h1 h2)

theorem mono (h : Keeps bs s t) (hs : ∀ b ∈ bs', b.alloc = true → b ∈ bs) : Keeps bs' s t :=
  fun b hb hu => h b (hs b hb hu) hu

end Keeps

theorem toNat_alloc_lt (b : Block) : b.alloc.toNat < 2 := Bool.toNat_lt b.alloc

/-! ## tags and tiling -/

namespace Laid
variable {A : Area} {s t : Heap} {bs : List Block} {brk : Nat} {b c : Block}

/-- the numbers of the arena, for `omega` -/
theorem arena (R : Laid A s bs brk) : 0 < A.lo ∧ A.lo % 8 = 0 ∧ A.lo + 20971520 < 4294967296 ∧
    A.base = A.lo + 144 ∧ A.base ≤ brk ∧ brk ≤ A.lo + 20971520 ∧ brk % 8 = 0 := by
  have h1 := A.room
  have h2 := R.brk_le
  have h3 := R.tiled.le
  have h4 : A.base = A.lo + 144 := rfl
  have h5 := A.aligned
  have h6 := (R.tiled.dvd_addr (d := 8) (by omega)
    (fun b hb => Nat.dvd_of_mod_eq_zero (R.sized b hb).2)).1
  unfold Area.limit at h2
  rw [MAX_HEAP_eq] at h1 h2
  exact ⟨A.pos, h5, by omega, h4, h3, h2, Nat.mod_eq_zero_of_dvd h6⟩

theorem block (R : Laid A s bs brk) (hb : b ∈ bs) : A.base ≤ b.addr ∧
    b.addr % 8 = 0 ∧ 32 ≤ b.size ∧ b.size % 8 = 0 ∧ b.addr + b.size ≤ brk := by
  obtain ⟨h1, -, h2⟩ := R.tiled.bounds hb
  obtain ⟨h3, h4⟩ := R.sized b hb
  have h5 : A.base = A.lo + 144 := rfl
  have h6 := A.aligned
  have h7 := (R.tiled.dvd_addr (d := 8) (by omega)
    (fun b hb => Nat.dvd_of_mod_eq_zero (R.sized b hb).2)).2 b hb
  exact ⟨h1, Nat.mod_eq_zero_of_dvd h7, h3, h4, h2⟩

theorem apart (R : Laid A s bs brk) (hb : b ∈ bs) (hc : c ∈ bs) (hne : b ≠ c) :
    b.addr + b.size ≤ c.addr ∨ c.addr + c.size ≤ b.addr := R.tiled.apart hb hc hne

theorem cls_lt (R : Laid A s bs brk) (hb : b ∈ bs) : cls b.size < 32 := by
  have h1 := R.arena
  have h2 := R.block hb
  have h3 : Nat.clog 2 b.size ≤ 31 := (Nat.clog_le_iff_le_pow (by omega)).mpr (by omega)
  show Nat.clog 2 b.size < 32
  omega

theorem listp_ne (R : Laid A s bs brk) : s.heapListp ≠ 0 := by
  rw [R.listp]
  omega

theorem inHeap (R : Laid A s bs brk) {p : Nat} (h4 : p % 4 = 0) (h1 : A.lo ≤ p)
    (h2 : p + 4 ≤ brk) : s.InHeap p := ⟨h4, R.start ▸ h1, R.brk ▸ h2⟩

/-- the word at `p` is no prologue or epilogue word and no tag of the blocks -/
structure NoTag (A : Area) (bs : List Block) (brk p : Nat) : Prop where
  ends : p + 4 ≤ A.lo + 132 ∨ A.lo + 140 ≤ p ∧ p + 8 ≤ brk
  header : ∀ c ∈ bs, c.addr ≤ p ∨ p + 8 ≤ c.addr
  footer : ∀ c ∈ bs, c.addr + c.size ≤ p + 4 ∨ p + 12 ≤ c.addr + c.size

theorem noTag_head (R : Laid A s bs brk) {k : Nat} (hk : k < 32) :
    NoTag A bs brk (A.lo + 4 * k) := by
  have h1 := R.arena
  refine ⟨Or.inl (by omega), fun c hc => ?_, fun c hc => ?_⟩
  · have := R.block hc
    omega
  · have := R.block hc
    omega

theorem noTag_link (R : Laid A s bs brk) (hb : b ∈ bs) {p : Nat}
    (hp : p = b.addr ∨ p = b.addr + 4) : NoTag A bs brk p := by
  have h1 := R.arena
  have h2 := R.block hb
  refine ⟨Or.inr (by omega), fun c hc => ?_, fun c hc => ?_⟩
  · by_cases e : b = c
    · subst e
      omega
    · have := R.apart hb hc e
      have := R.block hc
      omega
  · by_cases e : b = c
    · subst e
      omega
    · have := R.apart hb hc e
      have := R.block hc
      omega

theorem frame {C : Nat → Prop} (R : Laid A s bs brk) (hT : Touches C s t)
    (hC : ∀ p, C p → NoTag A bs brk p) : Laid A t bs brk := by
  have h0 := R.arena
  refine ⟨hT.fixed.start.trans R.start, hT.fixed.brk.trans R.brk,
    hT.fixed.maxAddr.trans R.maxAddr, hT.fixed.listp.trans R.listp, R.tiled, R.sized, R.brk_le,
    ⟨?_, ?_⟩, ?_, fun c hc => ⟨?_, ?_⟩⟩
  · rw [hT.word (fun p hp => ?_)]
    · exact R.prologue.1
    · have := (hC p hp).ends
      omega
  · rw [hT.word (fun p hp => ?_)]
    · exact R.prologue.2
    · have := (hC p hp).ends
      omega
  · rw [hT.word (fun p hp => ?_)]
    · exact R.epilogue
    · have := (hC p hp).ends
      omega
  · rw [hT.word (fun p hp => ?_)]
    · exact (R.tags c hc).1
    · have := (hC p hp).header c hc
      have := R.block hc
      omega
  · rw [hT.word (fun p hp => ?_)]
    · exact (R.tags c hc).2
    · have := (hC p hp).footer c hc
      have := R.block hc
      omega

end Laid

/-! ## lists -/

/-- the link words of blocks of the heap overlap neither each other nor the bucket table -/
theorem Laid.apart_links {A : Area} {s : Heap} {bs l : List Block} {brk k : Nat}
    (R : Laid A s bs brk) (hk : k < 32) (hl : ∀ b ∈ l, b ∈ bs) (hn : l.Nodup) :
    Apart (A.lo + 4 * k) (l.map Block.addr) := by
  have h1 := R.arena
  refine ⟨fun y hy => ?_, fun y hy => ?_, ?_⟩
  · obtain ⟨b, hb, rfl⟩ := List.mem_map.mp hy
    have := R.block (hl b hb)
    omega
  · obtain ⟨b, hb, rfl⟩ := List.mem_map.mp hy
    have := R.block (hl b hb)
    omega
  · rw [List.pairwise_map]
    refine hn.imp_of_mem (fun {x y} hx hy hxy => ?_)
    have h2 := R.apart (hl x hx) (hl y hy) hxy
    have h3 := R.block (hl x hx)
    have h4 := R.block (hl y hy)
    omega

namespace Rep
variable {A : Area} {s t : Heap} {a : Pool}

theorem logged (R : Rep A s a) (ev : Event) (h : ev.Ok A.lo) : Rep A (s.log ev) a := by
  obtain ⟨⟨h1, h2, h3, h4, h5, h6, h7, h8, h9, h10⟩, ⟨h11, h12, h13⟩, h14⟩ := R
  refine ⟨⟨h1, h2, h3, h4, h5, h6, h7, h8, h9, h10⟩, ⟨h11, h12, h13⟩, fun e he => ?_⟩
  rcases List.mem_cons.mp he with rfl | he
  · show e.Ok s.memStartBrk
    rwa [h1]
  · exact h14 e he

theorem load (R : Rep A s a) {p : Nat} (hp : s.InHeap p) : Rep A (s.log (.load p s.memBrk)) a :=
  R.logged _ (R.laid.start ▸ hp)

/-- the words of the list of class `k`: its head and the links of free blocks of this class -/
def ListWord (A : Area) (a : Pool) (k p : Nat) : Prop :=
  p = A.lo + 4 * k ∨
    ∃ b ∈ a.blocks, b.alloc = false ∧ cls b.size = k ∧ (p = b.addr ∨ p = b.addr + 4)

theorem chain_other (R : Rep A s a) {j k : Nat} (hj : j < 32) (hk : k < 32) (hne : j ≠ k)
    {C : Nat → Prop} (hT : Touches C s t) (hC : ∀ p, C p → ListWord A a k p) :
    Chain t (A.lo + 4 * j) ((a.lists j).map Block.addr) := by
  have h0 := R.laid.arena
  refine (R.threaded.chains j hj).frame hT (fun p hp => ?_) (fun y hy p hp => ?_)
  · rcases hC p hp with rfl | ⟨b, hb, -, -, hbp⟩
    · omega
    · have := R.laid.block hb
      omega
  · obtain ⟨c, hcl, rfl⟩ := List.mem_map.mp hy
    obtain ⟨hcb, -, hck⟩ := R.threaded.listed j c hcl
    have h1 := R.laid.block hcb
    rcases hC p hp with rfl | ⟨b, hb, -, hbk, hbp⟩
    · omega
    · have h2 := R.laid.block hb
      have h3 := R.laid.apart hb hcb (fun h => hne (by rw [← hck, ← h, hbk]))
      omega

/-- **A sequence changes**: only words of the list of class `k` are touched, and the list runs
through free blocks of this class afterwards. -/
theorem relist (R : Rep A s a) {k : Nat} (hk : k < 32) {l : List Block} {C : Nat → Prop}
    (hl : ∀ b ∈ l, b ∈ a.blocks ∧ b.alloc = false ∧ cls b.size = k) (hn : l.Nodup)
    (hc : Chain t (A.lo + 4 * k) (l.map Block.addr)) (hT : Touches C s t)
    (hC : ∀ p, C p → ListWord A a k p) :
    Rep A t ⟨a.blocks, Function.update a.lists k l, a.brk⟩ ∧ Keeps a.blocks s t := by
  have h0 := R.laid.arena
  have hupd : ∀ j, Function.update a.lists k l j = if j = k then l else a.lists j :=
    fun j => Function.update_apply ..
  refine ⟨⟨R.laid.frame hT (fun p hp => ?_), ⟨fun j b hb => ?_, fun j => ?_, fun j hj => ?_⟩,
    hT.clean (fun p hp => ?_) R.clean⟩, fun c hcb hu x h1 h2 => hT.mem x (fun p hp => ?_)⟩
  · rcases hC p hp with rfl | ⟨b, hb, -, -, hbp⟩
    · exact R.laid.noTag_head hk
    · exact R.laid.noTag_link hb hbp
  · show b ∈ a.blocks ∧ _
    have hb' : b ∈ Function.update a.lists k l j := hb
    rw [hupd] at hb'
    split at hb'
    · next e =>
      rw [e]
      exact hl b hb'
    · exact R.threaded.listed j b hb'
  · show (Function.update a.lists k l j).Nodup
    rw [hupd]
    split
    · exact hn
    · exact R.threaded.nodup j
  · show Chain t _ ((Function.update a.lists k l j).map _)
    rw [hupd]
    split
    · next e =>
      rw [e]
      exact hc
    · next e => exact R.chain_other hj hk e hT hC
  · rcases hC p hp with rfl | ⟨b, hb, -, -, hbp⟩
    · exact R.laid.inHeap (by omega) (by omega) (by omega)
    · have := R.laid.block hb
      exact R.laid.inHeap (by omega) (by omega) (by omega)
  · have h3 := R.laid.block hcb
    rcases hC p hp with rfl | ⟨b, hb, hbf, -, hbp⟩
    · omega
    · have h4 := R.laid.block hb
      have hne : b ≠ c := by
        rintro rfl
        rw [hu] at hbf
        exact absurd hbf (by simp)
      have h5 := R.laid.apart hb hcb hne
      omega

end Rep

/-! ## blocks are exchanged -/

section
variable {A : Area} {s t : Heap} {bs pre mid mid' post : List Block} {brk u v : Nat}
  {C : Nat → Prop}

lemma Laid.beside (R : Laid A s bs brk) (e : bs = pre ++ mid ++ post) (hne : mid ≠ [])
    (hm : Tiling u mid v) : A.base ≤ u ∧ u ≤ v ∧ v ≤ brk ∧
      ∀ b ∈ pre ++ post, b ∈ bs ∧ (b.addr + b.size ≤ u ∨ v ≤ b.addr) := by
  have htl := R.tiled
  rw [e] at htl
  obtain ⟨n, hn, hpost⟩ := tiled_append.mp htl
  obtain ⟨m, hpre, hmid⟩ := tiled_append.mp hn
  obtain ⟨rfl, rfl⟩ := hmid.ends_eq hm hne
  refine ⟨hpre.le, hm.le, hpost.le, fun b hb => ?_⟩
  rw [e]
  rcases List.mem_append.mp hb with hb | hb
  · exact ⟨by simp [hb], Or.inl (hpre.bounds hb).2.2⟩
  · exact ⟨by simp [hb], Or.inr (hpost.bounds hb).1⟩

/-- the tags, when blocks are exchanged for others that cover the same part -/
theorem Laid.retile (R : Laid A s bs brk) (e : bs = pre ++ mid ++ post) (hne : mid ≠ [])
    (hm : Tiling u mid v) (hm' : Tiling u mid' v) (hz : Pool.Sized mid') (hT : Touches C s t)
    (hC : ∀ p, C p → p % 4 = 0 ∧ u ≤ p + 4 ∧ p + 8 ≤ v) (htag : ∀ b ∈ mid', Tagged t b) :
    Laid A t (pre ++ mid' ++ post) brk := by
  have h0 := R.arena
  obtain ⟨hu, huv, hv, hside⟩ := R.beside e hne hm
  have htl := R.tiled
  rw [e] at htl
  have hrest : ∀ b ∈ pre ++ mid' ++ post, b ∉ mid' → b ∈ pre ++ post := by
    intro b hb hb'
    simp only [List.mem_append] at hb ⊢
    tauto
  -- the touched words are those from the header of the first block to the footer of the last
  have hword : ∀ q, q + 8 ≤ u ∨ v ≤ q + 4 → t.word q = s.word q := by
    intro q hq
    refine hT.word fun p hp => ?_
    have := hC p hp
    omega
  refine ⟨hT.fixed.start.trans R.start, hT.fixed.brk.trans R.brk,
    hT.fixed.maxAddr.trans R.maxAddr, hT.fixed.listp.trans R.listp, Tiled.replace htl hne hm hm',
    fun b hb => ?_, R.brk_le, ⟨?_, ?_⟩, ?_, fun b hb => ?_⟩
  · by_cases hb' : b ∈ mid'
    · exact hz b hb'
    · exact R.sized b (hside b (hrest b hb hb')).1
  · rw [hword _ (by omega)]
    exact R.prologue.1
  · rw [hword _ (by omega)]
    exact R.prologue.2
  · rw [hword _ (by omega)]
    exact R.epilogue
  · by_cases hb' : b ∈ mid'
    · exact htag b hb'
    · obtain ⟨h2, h3⟩ := hside b (hrest b hb hb')
      have h4 := R.block h2
      constructor
      · rw [hword _ (by omega)]
        exact (R.tags b h2).1
      · rw [hword _ (by omega)]
        exact (R.tags b h2).2

/-- **Blocks in no list are exchanged** for others that cover the same part `[u, v)`: only words
between the header of the first and the footer of the last are touched, and the new tags are in
memory afterwards. -/
theorem Rep.retile {a : Pool} (R : Rep A s a) (e : a.blocks = pre ++ mid ++ post) (hne : mid ≠ [])
    (hm : Tiling u mid v) (hm' : Tiling u mid' v) (hz : Pool.Sized mid')
    (hu : ∀ k, ∀ b ∈ a.lists k, b ∉ mid) (hT : Touches C s t)
    (hC : ∀ p, C p → p % 4 = 0 ∧ u ≤ p + 4 ∧ p + 8 ≤ v) (htag : ∀ b ∈ mid', Tagged t b) :
    Rep A t ⟨pre ++ mid' ++ post, a.lists, a.brk⟩ ∧ Keeps (pre ++ post) s t := by
  have h0 := R.laid.arena
  obtain ⟨hbase, huv, hv, hside⟩ := R.laid.beside e hne hm
  have hlist : ∀ k, ∀ b ∈ a.lists k, b ∈ pre ++ post := by
    intro k b hb
    have h1 := (R.threaded.listed k b hb).1
    rw [e] at h1
    have h2 := hu k b hb
    simp only [List.mem_append] at h1 ⊢
    tauto
  refine ⟨⟨R.laid.retile e hne hm hm' hz hT hC htag,
    ⟨fun k b hb => ?_, R.threaded.nodup, fun k hk => ?_⟩, hT.clean (fun p hp => ?_) R.clean⟩,
    fun c hcb _ x h1 h2 => hT.mem x (fun p hp => ?_)⟩
  · obtain ⟨-, h2⟩ := R.threaded.listed k b hb
    have h3 := hlist k b hb
    refine ⟨?_, h2⟩
    simp only [List.mem_append] at h3 ⊢
    tauto
  · refine (R.threaded.chains k hk).frame hT (fun p hp => ?_) (fun y hy p hp => ?_)
    · have := hC p hp
      omega
    · obtain ⟨c, hcl, rfl⟩ := List.mem_map.mp hy
      obtain ⟨h2, h3⟩ := hside c (hlist k c hcl)
      have := R.laid.block h2
      have := hC p hp
      omega
  · have := hC p hp
    exact R.laid.inHeap this.1 (by omega) (by omega)
  · obtain ⟨h3, h4⟩ := hside c hcb
    have := R.laid.block h3
    have := hC p hp
    omega

end
end SegList

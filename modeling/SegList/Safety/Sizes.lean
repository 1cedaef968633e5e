import SegList.Safety.Complete
import SegList.Safety.Failure
import SegList.Safety.Layout
import SegList.Safety.Stray
import SegList.Safety.Wrapped

/-!
# Requests of any 32-bit size

`ALIGN(size + OVERHEAD)` is computed modulo `2^32`.  For the 39 largest sizes it wraps to a block
size between 0 and 32, and `mm_malloc` hands out a block that is far too small.

* `HandsOut`            what a successful request should leave behind;
* `not_undersized_iff`  the sizes and states for which no undersized block is handed out.
-/

set_option linter.unusedSectionVars false

open Bytes Prog Tile

namespace SegList
open Pool

/-- `mm_malloc(n)`, from `s` to `t`, returned the payload of a block of the heap that was not in use
before, is in use now, and holds `n` bytes before its footer; the heap is tiled -/
structure HandsOut (s t : Heap) (n p : Nat) : Prop where
  block : ∃ bps, t.blocks = some bps ∧ BoundaryTags t bps ∧ subW p DSIZE ∈ bps
  before : ∀ bps, s.blocks = some bps → subW p DSIZE ∈ bps → s.getAlloc (hdrp (subW p DSIZE)) = 0
  after : t.getAlloc (hdrp (subW p DSIZE)) = 1
  size : n + 16 ≤ t.getSize (hdrp (subW p DSIZE))

/-- whatever `mm_malloc(n)` returns, it is not an undersized block -/
def NotUndersized (s : Heap) (n : Nat) : Prop :=
  ∀ p t, mmMalloc n s = some (p, t) → p ≠ 0 → HandsOut s t n p

/-- the size does not wrap when it is rounded up, and the search and the break can handle it -/
def Rounded (s : Heap) (n : Nat) : Prop := n + 39 < 2 ^ 32 ∧ Reckoned s n

/-- the size wraps when it is rounded up, and there is no free block and no room for one -/
def Exhausted (s : Heap) (n : Nat) : Prop :=
  2 ^ 32 ≤ n + 39 ∧ ¬ HasFit s (align (addW n OVERHEAD)) ∧ ¬ HasRoom s CHUNKSIZE

/-- the size has no class, and the words from address `0` on lead to no node that is large enough,
or to one whose payload would be at `NULL` -/
def Unfound (s : Heap) (n : Nat) : Prop :=
  n + 39 < 2 ^ 32 ∧ 2 ^ 31 < align (addW n OVERHEAD) ∧
    ∀ node, Strays s (align (addW n OVERHEAD)) node → node + 8 = 2 ^ 32

section
variable {A : Arena} {s t : Heap} {a : Pool} {n p r sz : Nat}

lemma HandsOut.le (h : HandsOut s t n p) : t.memStartBrk + 160 + n ≤ t.memBrk := by
  obtain ⟨bps, -, hB, hm⟩ := h.block
  have h1 := h.size
  have h2 := hB.sum
  obtain ⟨l₁, l₂, rfl⟩ := List.append_of_mem hm
  rw [List.map_append, List.map_cons, List.sum_append, List.sum_cons] at h2
  omega

lemma Rep.handsOut (R : Rep A s a) (h : WF A.base a) (hn : Fits a.brk n)
    (hrun : mmMalloc n s = some (p, t)) (hp : p ≠ 0) : HandsOut s t n p := by
  obtain ⟨rfl, R1, -⟩ := (mmMalloc_spec R h hn).of_run hrun
  obtain ⟨b, hb, hT⟩ := malloc_spec h hp
  have hb1 := hT.mem
  have h1 := R1.laid.arena
  have h2 := R1.laid.block hb1
  have h3 := hT.size_ge
  have h4 := le_fitSize n
  have e8 : subW (b.addr + 8) DSIZE = b.addr := R1.laid.of_payload hb1
  rw [hb]
  refine ⟨⟨_, R1.blocks_eq, R1.boundaryTags, ?_⟩, fun bps hbps hm => ?_, ?_, ?_⟩
  · rw [e8]
    exact List.mem_map_of_mem hb1
  · rw [e8] at hm ⊢
    rw [R.blocks_eq] at hbps
    rw [← Option.some.inj hbps] at hm
    obtain ⟨c, hc, hcb⟩ := List.mem_map.mp hm
    rw [← hcb, R.getAlloc_eq_zero hc]
    exact Bool.eq_false_iff.mpr fun hu => hT.fresh c hc hu hcb
  · rw [e8, (R1.shows.tags b hb1).2, hT.alloc]
    rfl
  · rw [e8, (R1.shows.tags b hb1).1]
    omega

/-! ## the bands of sizes -/

/-- a block for more bytes than the arena has is not handed out -/
lemma Rep.not_handsOut (R : Rep A s a) (hn : MAX_HEAP < n) (hrun : mmMalloc n s = some (p, t)) :
    ¬ HandsOut s t n p := by
  intro hout
  have h1 := hout.le
  have hB := stmt_bounded (mmMalloc_built n) s p t hrun
  have hbrk : s.memBrk ≤ s.memMaxAddr := by
    rw [R.laid.brk, R.laid.maxAddr]
    exact R.laid.brk_le
  have h2 := hB.brk hbrk
  have hlim : A.limit = A.lo + MAX_HEAP := rfl
  rw [hB.maxAddr, R.laid.maxAddr] at h2
  rw [hB.start, R.laid.start] at h1
  omega

lemma Rep.notUndersized_iff (R : Rep A s a) (hn : MAX_HEAP < n) :
    NotUndersized s n ↔ ∀ p t, mmMalloc n s = some (p, t) → p = 0 := by
  constructor
  · intro h p t hrun
    by_contra hp
    exact R.not_handsOut hn hrun (h p t hrun hp)
  · intro h p t hrun hp
    exact absurd (h p t hrun) hp

/-- the size itself wraps: a pointer is returned if there is a free block that is large enough for
what is left of it, or room for one -/
lemma Rep.malloc_top (R : Rep A s a) (h : WF A.base a) (hn : n < 2 ^ 32) (ht : 2 ^ 32 ≤ n + 39) :
    Ends (mmMalloc n) s (fun p _ =>
      p ≠ 0 ↔ HasFit s (align (addW n OVERHEAD)) ∨ HasRoom s CHUNKSIZE) := by
  have h1 := R.laid.arena
  have habove := A.above
  obtain ⟨h8, h32⟩ := align_wrapped hn ht
  have hmax : max (align (addW n OVERHEAD)) 4096 = 4096 := max_eq_right (by omega)
  rw [R.hasFit_iff h, R.hasRoom_iff]
  have hgiven : ∀ (b : Block) (u : Heap), (∃ b, a.fit (align (addW n OVERHEAD)) = some b) ∨
      a.brk + CHUNKSIZE ≤ A.limit → Ends (place b.addr (align (addW n OVERHEAD))) u (fun _ _ =>
        b.addr + 8 ≠ 0 ↔ (∃ b, a.fit (align (addW n OVERHEAD)) = some b) ∨
          a.brk + CHUNKSIZE ≤ A.limit) := fun b u hor =>
    (access_ends (place_built b.addr _) u).mono fun _ _ _ => ⟨fun _ => hor, fun _ => by omega⟩
  refine R.ends_request h (by omega) rfl h8 (by omega) (fun b u hf _ _ => ?_)
    (fun b u _ hle _ _ _ => ?_) (fun u hf hlt _ _ => ?_)
  · exact hgiven b u (Or.inl ⟨b, hf⟩)
  · rw [hmax] at hle
    exact hgiven b u (Or.inr hle)
  · rw [hmax] at hlt
    refine ⟨fun h0 => absurd rfl h0, fun hor => ?_⟩
    rcases hor with ⟨b, hb⟩ | hroom
    · rw [hf] at hb
      exact absurd hb (by simp)
    · exact absurd hroom (Nat.not_le_of_lt hlt)

lemma Rep.notUndersized_top (R : Rep A s a) (h : WF A.base a) (hn : n < 2 ^ 32)
    (ht : 2 ^ 32 ≤ n + 39) :
    NotUndersized s n ↔ ¬ HasFit s (align (addW n OVERHEAD)) ∧ ¬ HasRoom s CHUNKSIZE := by
  have hM : MAX_HEAP = 20971520 := rfl
  obtain ⟨p, t, hrun, hp⟩ := R.malloc_top h hn ht
  rw [R.notUndersized_iff (by omega), ← not_or, ← hp, not_not]
  constructor
  · intro hnull
    exact hnull p t hrun
  · intro h0 q u hq
    rw [hrun] at hq
    obtain ⟨rfl, -⟩ := Prod.mk.inj (Option.some.inj hq)
    exact h0

/-- the size has no class: a pointer is returned if the search finds a node where it should not
look -/
lemma Rep.malloc_large (R : Rep A s a) (hn : n + 39 < 2 ^ 32) (h31 : 2 ^ 31 < fitSize n) :
    (∀ p t, mmMalloc n s = some (p, t) → p = 0) ↔
      ∀ node, Strays s (fitSize n) node → node + 8 = 2 ^ 32 := by
  have h1 := R.laid.arena
  have h8 := fitSize_mod n
  have hle := fitSize_le n
  have hst := R.laid.start
  have hn0 : n ≠ 0 := by
    intro h0
    omega
  have hmax : max (fitSize n) CHUNKSIZE = fitSize n := max_eq_left (by
    show 4096 ≤ fitSize n
    omega)
  have hends : ∀ {Q : Nat → Heap → Prop}, Ends (mmMalloc n) s Q ↔ _ := fun {Q} =>
    mmMalloc_ends R.laid.listp_ne hn0
  rw [align_eq hn, hmax] at hends
  have hfind : ∀ {node}, node ≠ 0 → ((∃ u, findFit (fitSize n / WSIZE) s = some (node, u)) ↔
      Strays s (fitSize n) node) := fun h0 =>
    findFit_strays (by omega) h31 (by omega) (by omega) h0
  have hnull : ∀ {node}, Strays s (fitSize n) node → (addW node DSIZE = 0 ↔ node + 8 = 2 ^ 32) := by
    intro node hs
    have hlt := hs.lt
    have h0 := hs.1
    show (node + 8) % 2 ^ 32 = 0 ↔ _
    omega
  constructor
  · intro hp0 node hs
    obtain ⟨u, hu⟩ := (hfind hs.1).mpr hs
    obtain ⟨p, t, hrun, hp⟩ := hends (Q := fun p _ => p = addW node DSIZE) |>.mpr
      ⟨node, u, hu, fun _ => (access_ends (place_built node _) u).mono fun _ _ _ => rfl,
        fun h0 => absurd h0 hs.1⟩
    rw [← hnull hs, ← hp]
    exact hp0 p t hrun
  · intro hstray p t hrun
    obtain ⟨bp, u, hu, h2, h3⟩ := hends (Q := fun q _ => p = q).mp ⟨p, t, hrun, rfl⟩
    by_cases hbp : bp = 0
    · have h4 := h3 hbp
      rw [extendHeap_null h8 (by omega) (Or.inl (by omega))] at h4
      exact h4.1 rfl
    · obtain ⟨_, _, -, hp⟩ := h2 hbp
      have hs := (hfind hbp).mp ⟨u, hu⟩
      rw [hp]
      exact (hnull hs).mpr (hstray bp hs)

end

section
variable {lo n : Nat} {c : Client}

/-- **No undersized block is handed out exactly when the arithmetic handles the size, or there is
nothing to hand out**, in every state of an ordinary run and for every `size_t`. -/
theorem not_undersized_iff (h : Ordinary lo c) (h0 : 0 < n) (hn : n < 2 ^ 32) :
    NotUndersized c.heap n ↔ Rounded c.heap n ∨ Exhausted c.heap n ∨ Unfound c.heap n := by
  obtain ⟨A, -, a, hT⟩ := h.tracks
  have R := hT.rep
  have h1 := R.laid.arena
  have habove := A.above
  have h8 := fitSize_mod n
  have hle := fitSize_le n
  have hM : MAX_HEAP = 20971520 := rfl
  unfold Rounded Exhausted Unfound Reckoned
  by_cases ht : 2 ^ 32 ≤ n + 39
  · -- the size wraps
    rw [R.notUndersized_top a.wf hn ht]
    constructor
    · intro hno
      exact Or.inr (Or.inl ⟨ht, hno⟩)
    · intro hor
      rcases hor with hc | hc | hc
      · omega
      · exact hc.2
      · omega
  have hn39 : n + 39 < 2 ^ 32 := by omega
  rw [align_eq hn39, R.laid.brk]
  by_cases hfits : fitSize n = 2 ^ 31 ∨ fitSize n < 2 ^ 31 ∧ a.brk + fitSize n < 2 ^ 32
  · refine ⟨fun _ => Or.inl ⟨hn39, hfits⟩, fun _ p t hrun hp => ?_⟩
    exact R.handsOut a.wf ⟨hn39, hfits⟩ hrun hp
  rw [R.notUndersized_iff (by omega)]
  by_cases h31 : 2 ^ 31 < fitSize n
  · -- no class
    rw [R.malloc_large hn39 h31]
    constructor
    · intro hstray
      exact Or.inr (Or.inr ⟨hn39, h31, hstray⟩)
    · intro hor
      rcases hor with hc | hc | hc
      · exact absurd hc.2 hfits
      · omega
      · exact hc.2.2
  · -- the break wraps
    obtain ⟨p, t, hrun, r, hr, -⟩ := R.malloc_wrapped a.wf (by omega) hn39 (by omega) (by omega)
    constructor
    · intro hnull
      have := hnull p t hrun
      omega
    · intro hor
      rcases hor with hc | hc | hc
      · exact absurd hc.2 hfits
      · omega
      · omega

/-- a thousand bytes asked for after `mm_init` -/
theorem not_undersized_iff_sample : NotUndersized Sample.idle.heap 1000 := by
  obtain ⟨A, -, a, hT⟩ := Sample.idle_ordinary.tracks
  have h1 := hT.rep.laid.arena
  have habove := A.above
  have e : align (addW 1000 OVERHEAD) = 1032 := by decide
  refine (not_undersized_iff Sample.idle_ordinary (by decide) (by decide)).mpr (Or.inl ?_)
  refine ⟨by decide, Or.inr ?_⟩
  rw [e, hT.rep.laid.brk]
  omega

/-- the largest `size_t` asked for after `mm_init`: the block has 32 bytes -/
theorem largest_size_undersized : Ordinary 8 Sample.idle ∧
    ¬ NotUndersized Sample.idle.heap (2 ^ 32 - 1) := by
  have R : Rep Sample.arena Sample.idle.heap (Pool.initial Sample.arena.base) := Sample.boot_run.2
  refine ⟨Sample.idle_ordinary, fun hnot => ?_⟩
  have hroom : HasRoom Sample.idle.heap CHUNKSIZE := R.hasRoom_iff.mpr (by decide)
  exact ((R.notUndersized_top (Pool.initial_wf _) (by omega) (by omega)).mp hnot).2 hroom

end
end SegList

import SegList.Refine.Readout

/-!
# The client's payloads in every ordinary run

* `payloads_sound`    a live payload is aligned, inside the heap, and apart from the other live
                      payloads and from every word the allocator keeps in the heap;
* `Tracks.kept`       a call with a size that fits changes no byte of a live payload it is not about.
-/

set_option linter.unusedSectionVars false

open Bytes Prog

namespace SegList
open Pool

/-- `n` bytes from `p` on and `m` bytes from `q` on have no byte in common -/
def Disj (p n q m : Nat) : Prop := p + n ≤ q ∨ q + m ≤ p

/-- the `n` bytes at `p` are a payload in order, in the heap with the blocks `bps` -/
structure SoundPayload (s : Heap) (bps : List Nat) (p n : Nat) : Prop where
  aligned : p % 8 = 0
  inHeap : s.memStartBrk ≤ p ∧ p + n ≤ s.heapHi + 1
  table : ∀ k < 32, Disj p n (s.memStartBrk + 4 * k) 4
  /-- header and footer of the prologue -/
  prologue : Disj p n (hdrp s.heapListp) 4 ∧ Disj p n (s.ftrp s.heapListp) 4
  epilogue : Disj p n (hdrp s.memBrk) 4
  tags : ∀ bp ∈ bps, Disj p n (hdrp bp) 4 ∧ Disj p n (s.ftrp bp) 4
  links : ∀ bp ∈ bps, s.getAlloc (hdrp bp) = 0 → Disj p n bp 4 ∧ Disj p n (bp + 4) 4

section
variable {A : Arena} {c : Client} {a : SoundPool A.base A.limit} {p n q m : Nat}

lemma Tracks.block (h : Tracks A c a) (hp : (p, n) ∈ c.live) :
    ∃ b ∈ a.blocks, b.alloc = true ∧ p = b.addr + 8 ∧ p + n + 24 ≤ b.addr + b.size := by
  obtain ⟨b, hb, hu, h1, h2, -⟩ := h.owns.backed p n hp
  have h3 := le_fitSize n
  exact ⟨b, hb, hu, h1, by omega⟩

lemma Tracks.soundPayload (h : Tracks A c a) (hp : (p, n) ∈ c.live) :
    SoundPayload c.heap (a.blocks.map Block.addr) p n := by
  have R := h.rep
  have h0 := R.laid.arena
  obtain ⟨b, hb, hu, rfl, hsz⟩ := h.block hp
  have h1 := R.laid.block hb
  have hhi : c.heap.heapHi = a.brk - 1 := by
    unfold Heap.heapHi
    rw [R.laid.brk]
    exact subW_eq (by omega) (by omega)
  refine ⟨by omega, ⟨?_, ?_⟩, fun k hk => ?_, ⟨?_, ?_⟩, ?_, fun bp hbp => ?_, fun bp hbp hf => ?_⟩
  · rw [R.laid.start]
    omega
  · rw [hhi]
    omega
  · rw [R.laid.start]
    exact Or.inr (by omega)
  · rw [R.laid.listp, R.laid.hdrp_prologue]
    exact Or.inr (by omega)
  · rw [R.laid.listp, R.laid.ftrp_prologue]
    exact Or.inr (by omega)
  · rw [R.laid.brk, hdrp_eq (by omega) (by omega)]
    exact Or.inl (by omega)
  · obtain ⟨d, hd, rfl⟩ := List.mem_map.mp hbp
    have h2 := R.laid.block hd
    have h3 := R.laid.tag_outside hb hd
    rw [R.laid.hdrp_eq hd, R.laid.ftrp_eq hd]
    unfold Disj
    omega
  · obtain ⟨d, hd, rfl⟩ := List.mem_map.mp hbp
    have h2 := R.laid.block hd
    have h3 : d.alloc = false := (R.getAlloc_eq_zero hd).mp hf
    have hne : b ≠ d := by
      rintro rfl
      rw [hu] at h3
      exact absurd h3 (by simp)
    have h4 := R.laid.apart hb hd hne
    unfold Disj
    omega

lemma Tracks.disj (h : Tracks A c a) (hp : (p, n) ∈ c.live) (hq : (q, m) ∈ c.live) (hne : p ≠ q) :
    Disj p n q m := by
  obtain ⟨b, hb, -, rfl, h1⟩ := h.block hp
  obtain ⟨d, hd, -, rfl, h2⟩ := h.block hq
  have h3 := h.rep.laid.apart hb hd (by rintro rfl; exact hne rfl)
  unfold Disj
  omega

end

section
variable {lo : Nat} {c : Client}

/-- **Live payloads are sound** in every state of an ordinary run. -/
theorem payloads_sound (h : Ordinary lo c) : ∃ bps, c.heap.blocks = some bps ∧
    c.live.Pairwise (fun e f => Disj e.1 e.2 f.1 f.2) ∧
    ∀ p n, (p, n) ∈ c.live → SoundPayload c.heap bps p n := by
  obtain ⟨A, -, a, hT⟩ := h.tracks
  refine ⟨_, hT.rep.blocks_eq, ?_, fun p n hp => hT.soundPayload hp⟩
  have hnd := hT.owns.nodup
  rw [List.Nodup, List.pairwise_map] at hnd
  exact hnd.imp_of_mem fun {e f} he hf hne => hT.disj he hf hne

/-- `mm_malloc(40)` and `mm_malloc(8)` -/
theorem payloads_sound_sample : ∃ bps, Sample.pair.heap.blocks = some bps ∧
    Sample.pair.live.Pairwise (fun e f => Disj e.1 e.2 f.1 f.2) ∧
    ∀ p n, (p, n) ∈ Sample.pair.live → SoundPayload Sample.pair.heap bps p n :=
  payloads_sound Sample.pair_ordinary

lemma Tracks.kept {A : Arena} {a : SoundPool A.base A.limit} (h : Tracks A c a) {k : Call}
    {r q m : Nat} {t : Heap} (hd : Does A c.heap a k r t) (hk : k.Names c.live)
    (hq : (q, m) ∈ c.live) (hne : k.subject ≠ q) :
    ∀ x, q ≤ x → x < q + m → t.mem x = c.heap.mem x := by
  obtain ⟨b, hb, hu, rfl, hsz⟩ := h.block hq
  intro x hx1 hx2
  refine hd.keeps b ?_ hu x (by omega) (by omega)
  by_cases h0 : k.subject = 0
  · rw [h0]
    show b ∈ (a.toPool.free 0).blocks
    rw [free_null h.rep]
    exact hb
  · -- the block given back is another one
    have hs : ∃ n, (k.subject, n) ∈ c.live := by
      cases k with
      | malloc n => exact absurd rfl h0
      | free p => exact hk
      | realloc p n => exact hk.resolve_left h0
    obtain ⟨n, hn⟩ := hs
    obtain ⟨d, hd', hdu, hdp, -⟩ := h.block hn
    have hbd : b ≠ d := by
      rintro rfl
      exact hne hdp
    rw [hdp]
    exact mem_free a.wf hd' hdu hb hu hbd

end
end SegList

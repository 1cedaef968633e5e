import SegList.Refine.Readout
import Mathlib.Data.List.Nodup
import Mathlib.Data.Set.Function

/-!
# The free lists and the blocks in use in every ordinary run

* `lists_exact`        the 32 lists end, their backward links mirror them, and they hold the free
                       blocks of the heap, each once and in the bucket `find_bucket` selects for
                       its size;
* `live_bijective`     the live pointers are the payloads of the blocks in use, one for one, and
                       with no live pointer the heap is one free block.
-/

set_option linter.unusedSectionVars false

open Bytes Prog

namespace SegList
open Pool

/-- the backward links of a list: `0`, then each node before the next one -/
def BackLinks (s : Heap) (l : List Nat) : Prop :=
  l.map (fun node => s.word (node + 4)) = (0 :: l).take l.length

/-- the lists `nodes` in the buckets hold the free blocks among `bps` -/
structure ExactLists (s : Heap) (bps : List Nat) (nodes : Nat → List Nat) : Prop where
  /-- from each bucket head the links reach `0` -/
  ends : ∀ k < 32, s.bucket k = some (nodes k)
  back : ∀ k < 32, BackLinks s (nodes k)
  /-- a free block is once in the list of its bucket, and in no other -/
  once : ∀ bp ∈ bps, s.getAlloc (hdrp bp) = 0 → ∃ j < 32,
    findBucket (s.getSize (hdrp bp) / WSIZE) s = some (s.memStartBrk + 4 * j, s) ∧
    s.getSize (hdrp bp) ≤ 2 ^ j ∧ (∀ i, s.getSize (hdrp bp) ≤ 2 ^ i → j ≤ i) ∧
    ∀ k < 32, (nodes k).count bp = if k = j then 1 else 0
  /-- nothing else is in a list -/
  only : ∀ k < 32, ∀ node ∈ nodes k, node ∈ bps ∧ s.getAlloc (hdrp node) = 0

lemma backLinks_of_linked {next prev : Nat → Nat} {p n : Nat} {l : List Nat}
    (h : DList.Linked next prev 0 p n l) : l.map prev = (p :: l).take l.length := by
  induction l generalizing p n with
  | nil => rfl
  | cons x xs ih =>
    rw [List.map_cons, List.length_cons, List.take_succ_cons, h.2.2.1, ih h.2.2.2]

section
variable {A : Arena} {s : Heap} {a : Pool} {b : Block}

lemma count_eq {base : Nat} (h : WF base a) (hb : b ∈ a.blocks) (hf : b.alloc = false)
    (k : Nat) : ((a.lists k).map Block.addr).count b.addr = if k = cls b.size then 1 else 0 := by
  have hinj : ∀ c ∈ a.lists k, c.addr = b.addr → c = b := fun c hc e =>
    h.tiled.eq_of_addr ((h.listed k c).mp hc).1 hb e
  have hnd : ((a.lists k).map Block.addr).Nodup := by
    refine (List.nodup_map_iff_inj_on (h.nodup k)).mpr (fun c hc d hd e => ?_)
    exact h.tiled.eq_of_addr ((h.listed k c).mp hc).1 ((h.listed k d).mp hd).1 e
  by_cases hk : k = cls b.size
  · rw [if_pos hk]
    refine List.count_eq_one_of_mem hnd (List.mem_map.mpr ⟨b, ?_, rfl⟩)
    rw [hk]
    exact h.mem_lists hb hf
  · rw [if_neg hk]
    refine List.count_eq_zero.mpr (fun hm => ?_)
    obtain ⟨c, hc, e⟩ := List.mem_map.mp hm
    have hcb := hinj c hc e
    rw [hcb] at hc
    exact hk ((h.listed k b).mp hc).2.2.symm

theorem Rep.exactLists (R : Rep A s a) (h : WF A.base a) :
    ExactLists s (a.blocks.map Block.addr) (fun k => (a.lists k).map Block.addr) := by
  refine ⟨fun k hk => R.bucket_eq hk, fun k hk => backLinks_of_linked (R.threaded.chains k hk),
    fun bp hbp hf => ?_, fun k hk node hnode => ?_⟩
  · obtain ⟨b, hb, rfl⟩ := List.mem_map.mp hbp
    have hsz := (R.shows.tags b hb).1
    have hfree := (R.getAlloc_eq_zero hb).mp hf
    refine ⟨cls b.size, R.laid.cls_lt hb, ?_, ?_, fun i hi => ?_, fun k _ => count_eq h hb hfree k⟩
    · rw [hsz, R.laid.start]
      exact R.findBucket_eq hb
    · rw [hsz]
      exact Nat.le_pow_clog (by omega) _
    · rw [hsz] at hi
      exact (Nat.clog_le_iff_le_pow (by omega)).mpr hi
  · obtain ⟨b, hb, rfl⟩ := List.mem_map.mp hnode
    obtain ⟨h1, h2, -⟩ := (h.listed k b).mp hb
    exact ⟨List.mem_map.mpr ⟨b, h1, rfl⟩, (R.getAlloc_eq_zero h1).mpr h2⟩

end

section
variable {lo : Nat} {c : Client}

/-- **The free lists are exact** in every state of an ordinary run. -/
theorem lists_exact (h : Ordinary lo c) :
    ∃ bps nodes, c.heap.blocks = some bps ∧ ExactLists c.heap bps nodes := by
  obtain ⟨A, -, a, hT⟩ := h.tracks
  exact ⟨_, _, hT.rep.blocks_eq, hT.rep.exactLists a.wf⟩

theorem lists_exact_sample : ∃ bps nodes, Sample.client.heap.blocks = some bps ∧
    ExactLists Sample.client.heap bps nodes := lists_exact Sample.client_ordinary

/-- the heap is one free block, alone in its bucket -/
structure OneBlock (s : Heap) : Prop where
  blocks : s.blocks = some [s.memStartBrk + 144]
  free : s.getAlloc (hdrp (s.memStartBrk + 144)) = 0
  size : s.memStartBrk + 144 + s.getSize (hdrp (s.memStartBrk + 144)) = s.memBrk
  lists : ∃ j < 32, findBucket (s.getSize (hdrp (s.memStartBrk + 144)) / WSIZE) s
      = some (s.memStartBrk + 4 * j, s) ∧
    ∀ k < 32, s.bucket k = some (if k = j then [s.memStartBrk + 144] else [])

section
variable {A : Arena} {a : SoundPool A.base A.limit}

lemma single_of_free (hw : WF A.base a.toPool) (hg : A.base < a.brk)
    (hf : ∀ b ∈ a.blocks, b.alloc = false) :
    a.blocks = [⟨A.base, a.brk - A.base, false⟩] := by
  have ht := hw.tiled
  have hE := hw.eager
  cases e : a.blocks with
  | nil =>
    rw [e] at ht
    have h0 : A.base = a.brk := ht
    omega
  | cons b bs =>
    rw [e] at ht hE hf
    obtain ⟨h1, -, h2⟩ := ht
    cases bs with
    | nil =>
      have h3 : A.base + b.size = a.brk := h2
      have h4 := hf b List.mem_cons_self
      rw [← h3, Nat.add_sub_cancel_left, ← h1, ← h4]
    | cons d ds =>
      -- two free neighbours
      obtain ⟨h3, -⟩ := eager_cons.mp hE
      have h4 := h3 d rfl
      rw [hf b (by simp), hf d (by simp)] at h4
      exact absurd h4 (by simp)

lemma Tracks.oneBlock {c : Client} (h : Tracks A c a) (hl : c.live = []) : OneBlock c.heap := by
  have R := h.rep
  have hg := h.grown
  have hfree : ∀ b ∈ a.blocks, b.alloc = false := by
    intro b hb
    cases hu : b.alloc with
    | false => rfl
    | true =>
      obtain ⟨m, hm⟩ := h.owns.owned b hb hu
      rw [hl] at hm
      exact absurd hm (List.not_mem_nil)
  have e := single_of_free a.wf (by omega) hfree
  have hb : (⟨A.base, a.brk - A.base, false⟩ : Block) ∈ a.blocks := by
    rw [e]
    exact List.mem_singleton.mpr rfl
  have hbase : c.heap.memStartBrk + 144 = A.base := by
    rw [R.laid.start]
    rfl
  obtain ⟨hsz, hal⟩ := R.shows.tags _ hb
  have hsz' : c.heap.getSize (hdrp A.base) = a.brk - A.base := hsz
  have hcls := R.laid.cls_lt hb
  have hfind := R.findBucket_eq hb
  simp only at hcls hfind
  refine ⟨?_, ?_, ?_, cls (a.brk - A.base), hcls, ?_, fun k hk => ?_⟩
  · rw [R.blocks_eq, e, hbase]
    rfl
  · rw [hbase]
    exact hal
  · rw [hbase, hsz', R.laid.brk]
    show A.base + (a.brk - A.base) = a.brk
    omega
  · rw [hbase, hsz', R.laid.start]
    exact hfind
  · rw [R.bucket_eq hk, hbase]
    -- the sequence of a class holds the one block, or nothing
    congr 1
    have hmem : ∀ d, d ∈ a.lists k ↔ d = ⟨A.base, a.brk - A.base, false⟩ ∧
        k = cls (a.brk - A.base) := by
      intro d
      rw [a.wf.listed, e, List.mem_singleton]
      constructor
      · rintro ⟨rfl, -, h3⟩
        exact ⟨rfl, h3.symm⟩
      · rintro ⟨rfl, h3⟩
        exact ⟨rfl, rfl, h3.symm⟩
    by_cases hk' : k = cls (a.brk - A.base)
    · rw [if_pos hk']
      have h1 : a.lists k = [⟨A.base, a.brk - A.base, false⟩] := by
        refine List.perm_singleton.mp ((List.perm_ext_iff_of_nodup (a.wf.nodup k)
          (List.nodup_singleton _)).mpr fun d => ?_)
        rw [hmem, List.mem_singleton]
        exact and_iff_left hk'
      rw [h1]
      rfl
    · rw [if_neg hk']
      have h1 : a.lists k = [] :=
        List.eq_nil_iff_forall_not_mem.mpr fun d hd => hk' ((hmem d).mp hd).2
      rw [h1]
      rfl

end

/-- **No leak and no phantom block**: the live pointers are the payloads of the blocks in use, one
for one; without live pointers the heap is one free block. -/
theorem live_bijective (h : Ordinary lo c) :
    (∃ bps, c.heap.blocks = some bps ∧ bps.Nodup ∧ (c.live.map Prod.fst).Nodup ∧
      Set.BijOn (fun p => p - 8) {p | ∃ n, (p, n) ∈ c.live}
        {bp | bp ∈ bps ∧ c.heap.getAlloc (hdrp bp) ≠ 0}) ∧
    (c.live = [] → OneBlock c.heap) := by
  obtain ⟨A, -, a, hT⟩ := h.tracks
  have R := hT.rep
  refine ⟨⟨_, R.blocks_eq, ?_, hT.owns.nodup, ?_, ?_, ?_⟩, fun hl => hT.oneBlock hl⟩
  · exact (List.nodup_map_iff_inj_on a.wf.tiled.nodup).mpr fun b hb d hd e =>
      a.wf.tiled.eq_of_addr hb hd e
  · rintro p ⟨n, hp⟩
    obtain ⟨b, hb, hu, rfl, -⟩ := hT.owns.backed p n hp
    refine ⟨List.mem_map.mpr ⟨b, hb, (Nat.add_sub_cancel ..).symm⟩, ?_⟩
    show c.heap.getAlloc (hdrp (b.addr + 8 - 8)) ≠ 0
    rw [Nat.add_sub_cancel, Ne, R.getAlloc_eq_zero hb, hu]
    simp
  · rintro p ⟨n, hp⟩ q ⟨m, hq⟩ e
    obtain ⟨b, -, -, h1, -⟩ := hT.owns.backed p n hp
    obtain ⟨d, -, -, h2, -⟩ := hT.owns.backed q m hq
    have e' : p - 8 = q - 8 := e
    omega
  · rintro bp ⟨hbp, hne⟩
    obtain ⟨b, hb, rfl⟩ := List.mem_map.mp hbp
    rw [Ne, R.getAlloc_eq_zero hb, Bool.not_eq_false] at hne
    exact ⟨b.addr + 8, hT.owns.owned b hb hne, Nat.add_sub_cancel ..⟩

theorem live_bijective_sample :
    (∃ bps, Sample.client.heap.blocks = some bps ∧ bps.Nodup ∧
      (Sample.client.live.map Prod.fst).Nodup ∧
      Set.BijOn (fun p => p - 8) {p | ∃ n, (p, n) ∈ Sample.client.live}
        {bp | bp ∈ bps ∧ Sample.client.heap.getAlloc (hdrp bp) ≠ 0}) ∧
    OneBlock Sample.idle.heap :=
  ⟨(live_bijective Sample.client_ordinary).1, (live_bijective Sample.idle_ordinary).2 rfl⟩

end
end SegList

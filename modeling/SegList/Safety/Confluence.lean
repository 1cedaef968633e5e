import SegList.Pool.Canonical
import SegList.Refine.Readout

/-!
# The order of the calls does not matter

What a walk through the heap finds is determined by the blocks in use (`Pool.WF.same`), whatever
the order in which the others were given back.

* `frees_commute`      the same pointers freed in two orders;
* `free_undoes_malloc` a block handed out and given back at once.
-/

set_option linter.unusedSectionVars false

open Bytes Prog

namespace SegList
open Pool

/-! ## heaps with the same blocks -/

/-- the same break, the same blocks with the same sizes and alloc bits -/
structure SamePartition (s t : Heap) : Prop where
  brk : t.memBrk = s.memBrk
  blocks : ∃ bps, s.blocks = some bps ∧ t.blocks = some bps ∧ ∀ bp ∈ bps,
    t.getSize (hdrp bp) = s.getSize (hdrp bp) ∧ t.getAlloc (hdrp bp) = s.getAlloc (hdrp bp)

/-- in each bucket the same blocks, perhaps in another order -/
def SameBuckets (s t : Heap) : Prop :=
  ∀ k < 32, ∃ l l', s.bucket k = some l ∧ t.bucket k = some l' ∧ l'.Perm l

section
variable {A B : Arena} {s t : Heap} {a b : Pool} {p n : Nat} {ps : List Nat}

theorem Rep.samePartition (R : Rep A s a) (R' : Rep B t b) (hbrk : b.brk = a.brk)
    (hb : b.blocks = a.blocks) : SamePartition s t := by
  have h := R'.shows.tags
  have he := R'.blocks_eq
  rw [hb] at h he
  refine ⟨R'.laid.brk.trans (hbrk.trans R.laid.brk.symm), _, R.blocks_eq, he, fun bp hbp => ?_⟩
  obtain ⟨c, hc, rfl⟩ := List.mem_map.mp hbp
  exact ⟨(h c hc).1.trans (R.shows.tags c hc).1.symm, (h c hc).2.trans (R.shows.tags c hc).2.symm⟩

theorem Rep.sameBuckets (R : Rep A s a) (R' : Rep B t b)
    (hl : ∀ k, (b.lists k).Perm (a.lists k)) : SameBuckets s t :=
  fun k hk => ⟨_, _, R.bucket_eq hk, R'.bucket_eq hk, (hl k).map _⟩

theorem Rep.same (R : Rep A s a) (R' : Rep B t b) (h : Pool.Same a b) :
    SamePartition s t ∧ SameBuckets s t :=
  ⟨R.samePartition R' h.brk h.blocks, R.sameBuckets R' h.lists⟩

/-! ## frees -/

def mmFreeAll : List Nat → M Unit
  | [] => return ()
  | p :: ps => do
    mmFree p
    mmFreeAll ps

lemma mmFreeAll_spec (R : Rep A s a) (h : WF A.base a) (hp : ∀ p ∈ ps, InUse a p)
    (hn : ps.Nodup) : Ends (mmFreeAll ps) s (fun _ t => Rep A t (a.freeAll ps)) := by
  induction ps generalizing s a with
  | nil =>
    rw [mmFreeAll, ends_pure]
    exact R
  | cons p ps ih =>
    obtain ⟨hnp, hnps⟩ := List.nodup_cons.mp hn
    have h1 := hp p List.mem_cons_self
    have h2 := h1
    obtain ⟨b, hb, hu, rfl⟩ := h2
    rw [mmFreeAll, ends_bind]
    refine (mmFree_spec R h hb hu).mono ?_
    intro _ t ht
    refine ih ht.1 (free_wf h _) (fun q hq => ?_) hnps
    refine InUse.free h1 h (hp q (List.mem_cons_of_mem _ hq)) ?_
    rintro rfl
    exact hnp hq

lemma Owns.inUse {L : Live} (h : Owns a L) {m : Nat} (hm : (p, m) ∈ L) : InUse a p := by
  obtain ⟨b, hb, hu, e, -⟩ := h.backed p m hm
  exact ⟨b, hb, hu, e⟩

end

section
variable {lo p n : Nat} {c : Client} {ps qs : List Nat} {u : Heap}

/-- **Frees commute** in every state of an ordinary run: distinct live pointers freed in any two
orders leave the same break, the same blocks, and in each bucket the same blocks. -/
theorem frees_commute (h : Ordinary lo c) (hlive : ∀ p ∈ ps, ∃ m, (p, m) ∈ c.live)
    (hn : ps.Nodup) (hq : ps.Perm qs) :
    Ends (mmFreeAll ps) c.heap (fun _ s => Ends (mmFreeAll qs) c.heap (fun _ t =>
      SamePartition s t ∧ SameBuckets s t)) := by
  obtain ⟨A, -, a, hT⟩ := h.tracks
  have hp : ∀ p ∈ ps, InUse a.toPool p := by
    intro p hm
    obtain ⟨m, hm⟩ := hlive p hm
    exact hT.owns.inUse hm
  have hp' : ∀ p ∈ qs, InUse a.toPool p := fun p hm => hp p (hq.mem_iff.mpr hm)
  refine (mmFreeAll_spec hT.rep a.wf hp hn).mono fun _ s hs => ?_
  refine (mmFreeAll_spec hT.rep a.wf hp' (hq.nodup hn)).mono fun _ t ht => ?_
  exact hs.same ht (freeAll_same a.wf hp hn hq)

/-- two neighbouring blocks -/
theorem frees_commute_sample : Ends (mmFreeAll [160, 232]) Sample.pair.heap (fun _ s =>
    Ends (mmFreeAll [232, 160]) Sample.pair.heap (fun _ t =>
      SamePartition s t ∧ SameBuckets s t)) := by
  refine frees_commute Sample.pair_ordinary (fun p hp => ?_) (by decide) (List.Perm.swap 232 160 [])
  have hlive : Sample.pair.live = [(232, 8), (160, 40)] := rfl
  rw [hlive]
  rcases List.mem_pair.mp hp with rfl | rfl
  · exact ⟨40, by simp⟩
  · exact ⟨8, by simp⟩

/-! ## a block handed out and given back -/

/-- **`mm_free` undoes `mm_malloc`** in every state of an ordinary run: without an extension the
heap is as before, with one it is as `extend_heap` alone would have left it. -/
theorem free_undoes_malloc (h : Ordinary lo c) (hz : n ≤ MAX_HEAP)
    (hrun : mmMalloc n c.heap = some (p, u)) (hp : p ≠ 0) : Ends (mmFree p) u (fun _ t =>
      (u.memBrk = c.heap.memBrk → SamePartition c.heap t ∧ SameBuckets c.heap t) ∧
      (u.memBrk ≠ c.heap.memBrk →
        Ends (extendHeap (max (align (addW n OVERHEAD)) CHUNKSIZE / WSIZE)) c.heap (fun r v =>
          r ≠ 0 ∧ SamePartition v t ∧ SameBuckets v t))) := by
  obtain ⟨A, -, a, hT⟩ := h.tracks
  have R := hT.rep
  have hfits := fits_of_le R hz
  obtain ⟨rfl, R1, -⟩ := (mmMalloc_spec R a.wf hfits).of_run hrun
  obtain ⟨b, hb, hTk⟩ := malloc_spec a.wf hp
  obtain ⟨hsame, hgrow⟩ := malloc_free_same a.wf hp
  rw [R.laid.brk, R1.laid.brk]
  rw [hb] at hsame hgrow ⊢
  refine (mmFree_spec R1 (malloc_wf a.wf A.limit n) hTk.mem hTk.alloc).mono fun _ t ht => ?_
  refine ⟨fun e => R.same ht.1 (hsame e), fun hne => ?_⟩
  obtain ⟨hle, hsame'⟩ := hgrow hne
  obtain ⟨h32, h8⟩ := max_fit n
  rw [align_eq hfits.1]
  refine (extendHeap_grow R a.wf h32 h8 hle).mono ?_
  intro r v hv
  have h1 := hv.2.1.laid.block (grow_block a.toPool (max (fitSize n) 4096)).1
  have h2 := hv.2.1.laid.arena
  refine ⟨?_, hv.2.1.same ht.1 hsame'⟩
  rw [hv.1]
  omega

theorem free_undoes_malloc_sample : Ends (mmFree 160) Sample.used (fun _ t =>
    (Sample.used.memBrk = Sample.idle.heap.memBrk →
      SamePartition Sample.idle.heap t ∧ SameBuckets Sample.idle.heap t) ∧
    (Sample.used.memBrk ≠ Sample.idle.heap.memBrk →
      Ends (extendHeap (max (align (addW 40 OVERHEAD)) CHUNKSIZE / WSIZE)) Sample.idle.heap
        (fun r v => r ≠ 0 ∧ SamePartition v t ∧ SameBuckets v t))) :=
  free_undoes_malloc Sample.idle_ordinary (by decide) Sample.malloc_run.1 (by decide)

end
end SegList

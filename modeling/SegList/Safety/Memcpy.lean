import SegList.Safety.Realloc

/-!
# memcpy on parts that do not overlap

`memcpy` may be called on parts of memory that do not overlap only.  `mm_realloc` asks for the new
block before it gives the old one back, so both are blocks of one heap when it copies: in a whole
ordinary run every `memcpy` is between two parts of the heap without a byte in common
(`memcpy_apart`).  What is read can end 8 bytes behind the old block, where the payload of the next
one starts, and so 8 bytes behind the break.
-/

set_option linter.unusedSectionVars false

open Bytes Prog

namespace SegList
open Pool

/-- a copy between disjoint parts of a heap from `lo` to `brk`, behind the bucket table and the
prologue; at the end of the heap 8 bytes more may be read -/
structure CopiesApart (lo brk dst src len : Nat) : Prop where
  apart : dst + len ≤ src ∨ src + len ≤ dst
  dst_mem : lo + 152 ≤ dst ∧ dst + len ≤ brk
  src_mem : lo + 152 ≤ src ∧ src + len ≤ brk + 8

section
variable {A : Arena} {c c' : Client} {a : SoundPool A.base A.limit} {l : Label}
  {s t : Heap} {p m n r : Nat}

lemma CopiesApart.grown {lo brk brk' dst src len : Nat} (h : CopiesApart lo brk dst src len)
    (hle : brk ≤ brk') : CopiesApart lo brk' dst src len :=
  ⟨h.apart, ⟨h.dst_mem.1, h.dst_mem.2.trans hle⟩, h.src_mem.1, h.src_mem.2.trans (by omega)⟩

lemma no_copies {lo brk : Nat} {evs : List Event} (h : copies evs = []) :
    ∀ dst src len, (dst, src, len) ∈ copies evs → CopiesApart lo brk dst src len := by
  intro dst src len hm
  rw [h] at hm
  exact absurd hm List.not_mem_nil

lemma mmMalloc_no_copies (h : mmMalloc n s = some (r, t)) :
    ∃ evs, t.trace = evs ++ s.trace ∧ copies evs = [] :=
  (stmt_notCopy (mmMalloc_built n) s r t h).copies_eq

lemma mmFree_no_copies {x : Nat} (h : (mmFree p >>= fun _ => (pure x : M Nat)) s = some (r, t)) :
    ∃ evs, t.trace = evs ++ s.trace ∧ copies evs = [] := by
  have hfree : Moves (Adds Event.NotCopy) (mmFree p) := access_moves (mmFree_built p)
  exact ((hfree.bind fun _ => .pure x) s r t h).copies_eq

/-- **The copy of a `mm_realloc`**: the old and the new block are two blocks of the heap that
`mm_malloc` left. -/
lemma Tracks.copy_apart (h : Tracks A c a) (hp : (p, m) ∈ c.live) (hz : n ≤ MAX_HEAP)
    (hr : r ≠ 0) (hrun : mmMalloc n c.heap = some (r, s)) :
    CopiesApart A.lo (a.malloc n).2.brk r p (copyLen s p n) := by
  have R := h.rep
  obtain ⟨hret, R1, -⟩ := (mmMalloc_spec R a.wf (fits_of_le R hz)).of_run hrun
  obtain ⟨b, hb, hu, rfl, -⟩ := h.owns.backed p m hp
  obtain ⟨d, hd, hT⟩ := malloc_spec a.wf (hret ▸ hr)
  have hbm : b ∈ (a.malloc n).2.blocks := hT.keeps hb hu
  have hdm : d ∈ (a.malloc n).2.blocks := hT.mem
  have hapart := (a.malloc n).2.wf.tiled.apart hdm hbm (hT.ne hb hu)
  have hb1 := (a.malloc n).2.wf.tiled.bounds hbm
  have hd1 := (a.malloc n).2.wf.tiled.bounds hdm
  have hbase : A.base = A.lo + 144 := rfl
  have hfit := le_fitSize n
  have hsize := hT.size_ge
  have hlen : copyLen s (b.addr + 8) n ≤ n ∧ copyLen s (b.addr + 8) n ≤ b.size := by
    have hB : s.getSize (hdrp (subW (b.addr + 8) DSIZE)) = b.size := R1.size_of_payload hbm
    unfold copyLen
    rw [hB]
    split <;> omega
  rw [hret, hd]
  exact ⟨by omega, ⟨by omega, by omega⟩, by omega, by omega⟩

/-- **What a step copies.** -/
lemma Tracks.step_copies (h : Tracks A c a) (hs : c.Step l c') : ∃ evs,
    c'.heap.trace = evs ++ c.heap.trace ∧ ∀ dst src len, (dst, src, len) ∈ copies evs →
      CopiesApart A.lo c'.heap.memBrk dst src len := by
  cases hs with
  | write hm h1 h2 => exact ⟨[], rfl, no_copies rfl⟩
  | @call k r t hk hz hrun hf =>
    cases k with
    | malloc n =>
      obtain ⟨evs, he, hno⟩ := mmMalloc_no_copies hrun
      exact ⟨evs, he, no_copies hno⟩
    | free p =>
      obtain ⟨evs, he, hno⟩ := mmFree_no_copies hrun
      exact ⟨evs, he, no_copies hno⟩
    | realloc p n =>
      have hd : Does A c.heap a (.realloc p n) r t := (h.does (.call hk hz hrun hf)).2
      have hrun' : mmRealloc p n c.heap = some (r, t) := hrun
      rcases a.realloc_cases p n with ⟨rfl, -⟩ | ⟨h0, rfl, -⟩ | ⟨h0, hn, e⟩
      · obtain ⟨evs, he, hno⟩ := mmMalloc_no_copies hrun'
        exact ⟨evs, he, no_copies hno⟩
      · unfold mmRealloc at hrun'
        rw [if_neg h0, if_pos rfl] at hrun'
        obtain ⟨evs, he, hno⟩ := mmFree_no_copies hrun'
        exact ⟨evs, he, no_copies hno⟩
      · obtain ⟨m, hm⟩ := hk.resolve_left h0
        obtain ⟨u, hu, evs, he, hc⟩ := realloc_copies h0 hn hrun'
        refine ⟨evs, he, fun dst src len hmem => ?_⟩
        rw [hc, List.mem_singleton, Prod.mk.injEq, Prod.mk.injEq] at hmem
        obtain ⟨hdst, hsrc, hlen⟩ := hmem
        have hbrk : t.memBrk = (a.malloc n).2.brk := by
          rw [hd.rep.laid.brk]
          show (a.realloc p n).2.brk = _
          rw [e]
          exact free_brk _ _
        rw [hbrk, hdst, hsrc, hlen]
        exact h.copy_apart hm hz (hf (Nat.pos_of_ne_zero hn)) hu

lemma Tracks.step_brk (h : Tracks A c a) (hs : c.Step l c') : c.heap.memBrk ≤ c'.heap.memBrk := by
  cases hs with
  | write hm h1 h2 => exact Nat.le_refl _
  | @call k r t hk hz hrun hf =>
    have hd : Does A c.heap a k r t := (h.does (.call hk hz hrun hf)).2
    rw [h.rep.laid.brk, hd.rep.laid.brk]
    exact a.le_call_brk k

end

section
variable {lo : Nat} {c : Client}

/-- **No `memcpy` on overlapping parts** in a whole ordinary run. -/
theorem memcpy_apart (h : Ordinary lo c) : ∀ dst src len, .memcpy dst src len ∈ c.heap.trace →
    CopiesApart lo c.heap.memBrk dst src len := by
  obtain ⟨m, ls, hb, r, s, hboot, hrun⟩ := h
  obtain ⟨A, rfl, -, R⟩ := boot_arena hb hboot
  have hstart : ∀ dst src len, Event.memcpy dst src len ∉ s.trace := by
    obtain ⟨_, t, h1, h2⟩ := bind_eq_some.mp hboot
    rw [memInit_run (Nat.ne_of_gt A.pos) A.room] at h1
    obtain ⟨-, rfl⟩ := Prod.mk.inj (Option.some.inj h1)
    obtain ⟨evs, he, hno⟩ := (stmt_notCopy mmInit_built _ r s h2).copies_eq
    intro dst src len hm
    rw [he, show (fresh m).trace = [] from rfl, List.append_nil, ← mem_copies, hno] at hm
    exact absurd hm List.not_mem_nil
  have hI := hrun.keeps (I := fun c => (∃ a : SoundPool A.base A.limit, Tracks A c a) ∧
      ∀ dst src len, .memcpy dst src len ∈ c.heap.trace →
        CopiesApart A.lo c.heap.memBrk dst src len) (K := fun _ => True) ?_
    ⟨⟨firstPool A.lo, R, Owns.initial A.base, Nat.le_refl _⟩,
      fun dst src len hm => absurd hm (hstart dst src len)⟩ fun _ _ => trivial
  · exact hI.2
  · rintro c l c' ⟨⟨a, hT⟩, hcopies⟩ - hs
    obtain ⟨a', -, hT'⟩ := step_follows hT hs
    obtain ⟨evs, he, hnew⟩ := hT.step_copies hs
    refine ⟨⟨a', hT'⟩, fun dst src len hm => ?_⟩
    rw [he] at hm
    rcases List.mem_append.mp hm with hm | hm
    · exact hnew dst src len (mem_copies.mpr hm)
    · exact (hcopies dst src len hm).grown (hT.step_brk hs)

/-- the block at 160, to be of 100 bytes -/
lemma Sample.copied : ∃ c r len, Ordinary 8 c ∧ .memcpy r 160 len ∈ c.heap.trace := by
  have hlive : (160, 40) ∈ Sample.client.live := List.mem_singleton.mpr rfl
  obtain ⟨A, -, a, hT⟩ := Sample.client_ordinary.tracks
  obtain ⟨q, v, -, hv, hq, -⟩ := Sample.succeeds.2
  have hz : (Call.realloc 160 100).SizeLe MAX_HEAP := show 100 ≤ MAX_HEAP by decide
  have hfinds : (Call.realloc 160 100).Finds Sample.client.heap := fun _ => ⟨q, v, hv, hq⟩
  have hfound := hfinds.found hT hz
  obtain ⟨r, t, hrun, hd⟩ := call_spec (k := .realloc 160 100) hT (Or.inr ⟨40, hlive⟩) hz hfound
  obtain ⟨u, -, evs, he, hc⟩ := realloc_copies (by decide) (by decide) hrun
  obtain ⟨hb, r₀, s₀, hboot, hsteps⟩ := Sample.client_trail
  refine ⟨_, r, copyLen u 160 100, ⟨_, _, hb, r₀, s₀, hboot, hsteps.snoc
    (.call (k := .realloc 160 100) (Or.inr ⟨40, hlive⟩) hz hrun (hd.ret ▸ hfound))⟩, ?_⟩
  show _ ∈ t.trace
  rw [he]
  exact List.mem_append_left _ (mem_copies.mp (hc ▸ List.mem_singleton.mpr rfl))

theorem memcpy_apart_sample : ∃ (c : Client) (r len : Nat), .memcpy r 160 len ∈ c.heap.trace ∧
    CopiesApart 8 c.heap.memBrk r 160 len := by
  obtain ⟨c, r, len, hc, hm⟩ := Sample.copied
  exact ⟨c, r, len, hm, memcpy_apart hc r 160 len hm⟩

end
end SegList

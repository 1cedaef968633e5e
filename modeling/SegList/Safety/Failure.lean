import SegList.Model.Frame
import SegList.Refine.Readout
import SegList.Safety.Break

/-!
# Requests that cannot be answered

`mm_malloc` should return `NULL` and change nothing when no free block is large enough and the arena
has no room.  It does for some sizes only:

* `findFit_null`       a size above `2^31` has no class, and `find_fit` starts at address `0`;
* `extendHeap_wraps`   a size that wraps around the address space moves the break backwards;
* `failed_malloc_atomic_iff`   for all other sizes the failed call is atomic.
-/

set_option linter.unusedSectionVars false

open Bytes Prog Tile

namespace SegList
open Pool

/-- a word access is inside the heap as it was at that moment -/
def Event.Inside (lo : Nat) : Event → Prop
  | .load p brk => lo ≤ p ∧ p + 4 ≤ brk
  | .store p brk => lo ≤ p ∧ p + 4 ≤ brk
  | _ => True

/-- `mm_malloc(n)` returns `NULL`, accesses the heap only, and leaves the break and every byte of
the heap as they were -/
def Atomic (s : Heap) (n : Nat) : Prop :=
  ∃ t evs, mmMalloc n s = some (0, t) ∧ t.memBrk = s.memBrk ∧
    (∀ x, s.memStartBrk ≤ x → x < s.memBrk → t.mem x = s.mem x) ∧
    t.trace = evs ++ s.trace ∧ ∀ e ∈ evs, e.Inside s.memStartBrk

/-- a request that cannot be answered: no free block is large enough, the arena has no room -/
structure Hopeless (s : Heap) (n : Nat) : Prop where
  pos : 0 < n
  small : n + 39 < 2 ^ 32
  noFit : ∀ bps, s.blocks = some bps → ∀ bp ∈ bps, s.getAlloc (hdrp bp) = 0 →
    s.getSize (hdrp bp) < align (addW n OVERHEAD)
  full : s.memStartBrk + MAX_HEAP < s.memBrk + max (align (addW n OVERHEAD)) CHUNKSIZE

/-- the size of the block has a class, and it is negative as an `int` or the break plus it is
below `2^32` -/
def Reckoned (s : Heap) (n : Nat) : Prop :=
  align (addW n OVERHEAD) = 2 ^ 31 ∨
    align (addW n OVERHEAD) < 2 ^ 31 ∧ s.memBrk + align (addW n OVERHEAD) < 2 ^ 32

section
variable {A : Arena} {s t : Heap} {a : Pool} {n r sz : Nat} {e : Event}

lemma Event.Ok.inside {lo : Nat} (h : e.Ok lo) : e.Inside lo := by
  cases e with
  | load p brk => exact h.2
  | store p brk => exact h.2
  | memcpy dst src len => trivial
  | sbrk incr ret => trivial
  | message text => trivial

lemma Atomic.inside (h : Atomic s n) (hs : s.Clean) : ∃ t, mmMalloc n s = some (0, t) ∧
    t.memBrk = s.memBrk ∧ ∀ e ∈ t.trace, e.Inside s.memStartBrk := by
  obtain ⟨t, evs, h1, h2, -, h4, h5⟩ := h
  refine ⟨t, h1, h2, fun e he => ?_⟩
  rw [h4] at he
  rcases List.mem_append.mp he with he | he
  · exact h5 e he
  · exact (hs e he).inside

/-! ## sizes without a class -/

/-- **`find_fit` reads the word at address `0`** when the size has no class. -/
lemma findFit_null (hsz : sz % 4 = 0) (h31 : 2 ^ 31 < sz) (h32 : sz < 2 ^ 32)
    (hlo : s.memStartBrk + 128 < 2 ^ 32) (h : findFit (sz / WSIZE) s = some (r, t)) :
    .load 0 s.memBrk ∈ t.trace := by
  have hend : addW s.memStartBrk (WSIZE * BUCKETS_COUNT) = s.memStartBrk + 128 := addW_eq hlo
  obtain ⟨b, u, h1, h2⟩ := bind_eq_some.mp h
  rw [findBucket_run s sz hsz h32, if_neg (by omega)] at h1
  obtain ⟨rfl, rfl⟩ := Prod.mk.inj (Option.some.inj h1)
  obtain ⟨lo, v, h3, h4⟩ := bind_eq_some.mp h2
  obtain ⟨rfl, rfl⟩ := Prod.mk.inj (Option.some.inj h3)
  rw [hend, if_pos (by omega)] at h4
  obtain ⟨node, w, h5, h6⟩ := bind_eq_some.mp h4
  obtain ⟨rfl, rfl⟩ := Prod.mk.inj (Option.some.inj h5)
  have hw : .load 0 s.memBrk ∈ (s.log (.load 0 s.memBrk)).trace := List.mem_cons_self
  refine List.IsSuffix.subset (built_moves (R := Grows) (Built.bind (findFitNodes_built _ _ _)
    fun o => ?_) _ r t h6) hw
  cases o with
  | none => exact findFitBuckets_built _ _ _
  | some b => exact .pure b

lemma mmMalloc_null (R : Rep A s a) (h0 : n ≠ 0) (hn : n + 39 < 2 ^ 32) (h31 : 2 ^ 31 < fitSize n)
    (hrun : mmMalloc n s = some (r, t)) : .load 0 s.memBrk ∈ t.trace := by
  have h1 := R.laid.arena
  have h2 := fitSize_mod n
  have h3 := fitSize_le n
  obtain ⟨bp, u, hf, hrest⟩ := mmMalloc_parts (R := Rests) R.laid.listp_ne h0 hrun
  rw [align_eq hn] at hf
  have hload := findFit_null (by omega) h31 (by omega) (by rw [R.laid.start]; omega) hf
  have hut : Grows u t := by
    rcases hrest with ⟨-, h⟩ | ⟨-, q, v, he, h⟩
    · exact h.1
    · exact IsTrans.trans _ _ _ (stmt_grows (extendHeap_built _) u q v he) h.1
  exact hut.subset hload

lemma not_atomic_of_large (R : Rep A s a) (h0 : n ≠ 0) (hn : n + 39 < 2 ^ 32)
    (h31 : 2 ^ 31 < fitSize n) : ¬ Atomic s n := by
  have h1 := R.laid.arena
  intro ha
  obtain ⟨t, hrun, -, hin⟩ := ha.inside R.clean
  have hbad := (hin _ (mmMalloc_null R h0 hn h31 hrun)).1
  rw [R.laid.start] at hbad
  omega

/-! ## sizes that wrap -/

/-- the header of the new block is the first word written, with the new break -/
lemma extendHeap_store {w bp : Nat} {u : Heap}
    (hu : memSbrk (toInt (if w % 2 ≠ 0 then mulW (addW w 1) WSIZE else mulW w WSIZE)) s = some (bp, u))
    (hbp : bp ≠ minusOne) (h : extendHeap w s = some (r, t)) :
    .store (hdrp bp) u.memBrk ∈ t.trace := by
  obtain ⟨bp', u', h1, h2⟩ := bind_eq_some.mp h
  rw [hu] at h1
  obtain ⟨rfl, rfl⟩ := Prod.mk.inj (Option.some.inj h1)
  rw [if_neg hbp] at h2
  obtain ⟨_, v, h3, h4⟩ := bind_eq_some.mp h2
  obtain ⟨-, rfl⟩ := Prod.mk.inj (Option.some.inj h3)
  have hrest : Built Access (do
      put (← ftrp bp) (pack (if w % 2 ≠ 0 then mulW (addW w 1) WSIZE else mulW w WSIZE) 0)
      put (hdrp (← nextBlkp bp)) (pack 0 1)
      coalesce bp) := by
    refine (ftrp_built bp).bind fun _ => (put_built _ _).bind fun _ => ?_
    exact (nextBlkp_built bp).bind fun _ => (put_built _ _).bind fun _ => coalesce_built bp
  exact List.IsSuffix.subset (access_moves (R := Grows) hrest _ r t h4) List.mem_cons_self

/-- **`extend_heap` moves the break backwards** when the sum wraps, and writes behind it. -/
lemma extendHeap_wraps (R : Rep A s a) (hsz : sz % 8 = 0) (h31 : sz < 2 ^ 31)
    (hw : 2 ^ 32 ≤ a.brk + sz) (h : extendHeap (sz / WSIZE) s = some (r, t)) :
    t.memBrk + 2 ^ 32 = a.brk + sz ∧ .store (hdrp a.brk) t.memBrk ∈ t.trace := by
  have h1 := R.laid.arena
  have hb := R.laid.brk
  have hm := R.laid.maxAddr
  have hlim : A.limit = A.lo + 20971520 := rfl
  have hoff : offset s.memBrk sz + 2 ^ 32 = s.memBrk + sz := by
    unfold offset
    omega
  obtain ⟨bp, u, hu, hr⟩ := extendHeap_parts (R := Rests) h
  have hstore : bp ≠ minusOne → .store (hdrp bp) u.memBrk ∈ t.trace := fun hne =>
    extendHeap_store hu hne h
  rw [even_words hsz (by omega), toInt_eq h31] at hu
  rcases memSbrk_cases s sz with ⟨v, e, -, -, -, hc⟩ | ⟨v, e, hv, -, -, -⟩
  · omega
  · rw [e] at hu
    obtain ⟨rfl, rfl⟩ := Prod.mk.inj (Option.some.inj hu)
    have hne : s.memBrk ≠ minusOne := by
      show s.memBrk ≠ 4294967295
      omega
    have h2 := hstore hne
    rw [← hr.2, hb] at h2
    exact ⟨by rw [hr.2]; omega, h2⟩

lemma mmMalloc_wraps (R : Rep A s a) (h0 : n ≠ 0) (hn : n + 39 < 2 ^ 32)
    (hf : a.fit (fitSize n) = none) (h31 : fitSize n < 2 ^ 31) (hw : 2 ^ 32 ≤ a.brk + fitSize n)
    (hrun : mmMalloc n s = some (r, t)) :
    t.memBrk + 2 ^ 32 = a.brk + fitSize n ∧ .store (hdrp a.brk) t.memBrk ∈ t.trace := by
  have h1 := R.laid.arena
  have habove := A.above
  have h8 := fitSize_mod n
  obtain ⟨bp, u, hfit, hrest⟩ := mmMalloc_parts (R := Rests) R.laid.listp_ne h0 hrun
  rw [align_eq hn] at hfit hrest
  obtain ⟨hbp, R1, -⟩ := (findFit_spec R (by omega) (by omega)).of_run hfit
  rw [hf] at hbp
  rcases hrest with ⟨hne, -⟩ | ⟨-, q, v, he, h⟩
  · exact absurd hbp hne
  · have hmax : max (fitSize n) CHUNKSIZE = fitSize n := max_eq_left (by
      show 4096 ≤ fitSize n
      omega)
    rw [hmax] at he
    obtain ⟨h2, h3⟩ := extendHeap_wraps R1 h8 h31 hw he
    rw [h.2]
    exact ⟨h2, h.1.subset h3⟩

lemma not_atomic_of_wrap (R : Rep A s a) (h0 : n ≠ 0) (hn : n + 39 < 2 ^ 32)
    (hf : a.fit (fitSize n) = none) (h31 : fitSize n < 2 ^ 31) (hw : 2 ^ 32 ≤ a.brk + fitSize n) :
    ¬ Atomic s n := by
  have h1 := R.laid.arena
  intro ha
  obtain ⟨t, hrun, hbrk, -⟩ := ha.inside R.clean
  have h2 := (mmMalloc_wraps R h0 hn hf h31 hw hrun).1
  have h4 := R.laid.brk
  omega

/-! ## all other sizes -/

lemma atomic_of_reckoned (R : Rep A s a) (h : WF A.base a) (h0 : n ≠ 0) (hn : n + 39 < 2 ^ 32)
    (hf : a.fit (fitSize n) = none) (hlt : A.limit < a.brk + max (fitSize n) 4096)
    (hw : fitSize n = 2 ^ 31 ∨ fitSize n < 2 ^ 31 ∧ a.brk + fitSize n < 2 ^ 32) : Atomic s n := by
  obtain ⟨r, t, hrun, rfl, R1, hm⟩ := mmMalloc_fail R h h0 hn hf hlt hw
  obtain ⟨evs, he⟩ := stmt_grows (mmMalloc_built n) s 0 t hrun
  refine ⟨t, evs, hrun, R1.laid.brk.trans R.laid.brk.symm, fun x _ _ => congrFun hm x, he.symm,
    fun e hev => ?_⟩
  have hok := R1.clean e (by
    rw [← he]
    exact List.mem_append_left _ hev)
  rw [R1.laid.start, ← R.laid.start] at hok
  exact hok.inside

lemma Hopeless.fit_eq_none (h : Hopeless s n) (R : Rep A s a) (hwf : WF A.base a) :
    a.fit (fitSize n) = none ∧ A.limit < a.brk + max (fitSize n) 4096 := by
  obtain ⟨-, hn, hno, hfull⟩ := h
  rw [align_eq hn] at hno hfull
  refine ⟨Pool.fit_eq_none hwf (fun b hb hfree => ?_), ?_⟩
  · have h1 := hno _ R.blocks_eq b.addr (List.mem_map_of_mem hb) ((R.getAlloc_eq_zero hb).mpr hfree)
    rwa [(R.shows.tags b hb).1] at h1
  · rw [R.laid.start, R.laid.brk] at hfull
    exact hfull

lemma hopeless_of_gt (R : Rep A s a) (hgt : MAX_HEAP < n) (hn : n + 39 < 2 ^ 32) :
    Hopeless s n := by
  have h1 := R.laid.arena
  have h2 := le_fitSize n
  have hM : MAX_HEAP = 20971520 := rfl
  refine ⟨by omega, hn, fun bps hbps bp hbp _ => ?_, ?_⟩
  · rw [R.blocks_eq] at hbps
    rw [← Option.some.inj hbps] at hbp
    obtain ⟨b, hb, rfl⟩ := List.mem_map.mp hbp
    have h3 := R.laid.block hb
    rw [(R.shows.tags b hb).1, align_eq hn]
    omega
  · have h4 := le_max_left (fitSize n) CHUNKSIZE
    rw [align_eq hn, R.laid.start, R.laid.brk]
    omega

end

section
variable {lo n : Nat} {c : Client}

/-- **A request that cannot be answered is atomic exactly when the arithmetic handles its size**, in
every state of an ordinary run. -/
theorem failed_malloc_atomic_iff (h : Ordinary lo c) (hn : Hopeless c.heap n) :
    Atomic c.heap n ↔ Reckoned c.heap n := by
  obtain ⟨A, -, a, hT⟩ := h.tracks
  have h1 := hT.rep.laid.arena
  have h8 := fitSize_mod n
  have h0 : n ≠ 0 := Nat.ne_of_gt hn.pos
  obtain ⟨hf, hlt⟩ := hn.fit_eq_none hT.rep a.wf
  unfold Reckoned
  rw [align_eq hn.small, hT.rep.laid.brk]
  constructor
  · intro ha
    by_cases hlarge : 2 ^ 31 < fitSize n
    · exact absurd ha (not_atomic_of_large hT.rep h0 hn.small hlarge)
    · by_cases heq : fitSize n = 2 ^ 31
      · exact Or.inl heq
      · refine Or.inr ⟨by omega, Nat.lt_of_not_le fun hw => ?_⟩
        exact not_atomic_of_wrap hT.rep h0 hn.small hf (by omega) hw ha
  · exact atomic_of_reckoned hT.rep a.wf h0 hn.small hf hlt

/-- thirty million bytes asked for in the sample run -/
theorem failed_malloc_atomic_iff_sample : Hopeless Sample.client.heap 30000000 ∧
    Atomic Sample.client.heap 30000000 := by
  obtain ⟨A, hA, a, hT⟩ := Sample.client_ordinary.tracks
  have h1 := hT.rep.laid.arena
  have hM : MAX_HEAP = 20971520 := rfl
  have hn : Hopeless Sample.client.heap 30000000 := hopeless_of_gt hT.rep (by omega) (by omega)
  refine ⟨hn, (failed_malloc_atomic_iff Sample.client_ordinary hn).mpr (Or.inr ?_)⟩
  rw [align_eq hn.small, hT.rep.laid.brk]
  unfold fitSize
  omega

/-- three billion bytes asked for after `mm_init` -/
theorem failed_malloc_reads_null : Ordinary 8 Sample.idle ∧ Hopeless Sample.idle.heap 3000000000 ∧
    ¬ Atomic Sample.idle.heap 3000000000 := by
  obtain ⟨A, -, a, hT⟩ := Sample.idle_ordinary.tracks
  have hM : MAX_HEAP = 20971520 := rfl
  refine ⟨Sample.idle_ordinary, hopeless_of_gt hT.rep (by omega) (by omega), ?_⟩
  refine not_atomic_of_large hT.rep (by omega) (by omega) ?_
  unfold fitSize
  omega

end
end SegList

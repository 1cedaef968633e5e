import SegList.Model.Frame
import SegList.Refine.Readout

/-!
# The search is complete, and the break moves only when it must

* `malloc_complete`   in every ordinary run `find_fit` ends and finds a free block that is large
                      enough when there is one; `mm_malloc` calls `mem_sbrk` when there is none,
                      once and for the larger of the block size and 4096, and returns `NULL` only
                      when this call fails for want of room.
-/

set_option linter.unusedSectionVars false

open Bytes Prog

namespace SegList
open Pool

/-- a free block of at least `sz` bytes -/
def HasFit (s : Heap) (sz : Nat) : Prop :=
  ∃ bps, s.blocks = some bps ∧ ∃ bp ∈ bps, s.getAlloc (hdrp bp) = 0 ∧ sz ≤ s.getSize (hdrp bp)

/-- `e` more bytes fit in the arena -/
def HasRoom (s : Heap) (e : Nat) : Prop := s.memBrk + e ≤ s.memStartBrk + MAX_HEAP

/-- the call of `mem_sbrk` that an event records, and what it returned -/
def Event.sbrk? : Event → Option (Int × Nat)
  | .sbrk incr ret => some (incr, ret)
  | _ => none

def sbrks (evs : List Event) : List (Int × Nat) := evs.filterMap Event.sbrk?

/-- `find_fit` returned `r`: a free block of at least `sz` bytes if there is one, else `0` -/
structure Finds (s : Heap) (sz r : Nat) : Prop where
  found : HasFit s sz → ∃ bps, s.blocks = some bps ∧ r ∈ bps ∧ s.getAlloc (hdrp r) = 0 ∧
    sz ≤ s.getSize (hdrp r)
  missing : ¬ HasFit s sz → r = 0

/-- `mm_malloc` returned `r` for a block of `sz` bytes, running from `s` to `t` -/
structure Requests (s : Heap) (sz r : Nat) (t : Heap) : Prop where
  /-- with a fit the break is left alone -/
  fit : HasFit s sz → t.memBrk = s.memBrk ∧ ∃ evs, t.trace = evs ++ s.trace ∧ sbrks evs = []
  /-- without one `mem_sbrk` is called once, and the break moves when it succeeds -/
  grow : ¬ HasFit s sz → ∃ ret evs, t.trace = evs ++ s.trace ∧
    sbrks evs = [(((max sz CHUNKSIZE : Nat) : Int), ret)] ∧
    (ret ≠ minusOne → t.memBrk = s.memBrk + max sz CHUNKSIZE) ∧
    (ret = minusOne → t.memBrk = s.memBrk)
  answered : r ≠ 0 ↔ HasFit s sz ∨ HasRoom s (max sz CHUNKSIZE)

section
variable {A : Arena} {s t u : Heap} {a : Pool} {n r sz : Nat} {evs evs' : List Event}

lemma sbrks_append : sbrks (evs ++ evs') = sbrks evs ++ sbrks evs' := List.filterMap_append

lemma Adds.sbrks_eq (h : Adds Event.IsAccess s t) :
    ∃ evs, t.trace = evs ++ s.trace ∧ sbrks evs = [] := by
  refine h.filterMap fun e he => ?_
  cases e with
  | sbrk incr ret => exact absurd he id
  | load p brk => rfl
  | store p brk => rfl
  | memcpy dst src len => rfl
  | message text => rfl

lemma Rep.hasFit_iff (R : Rep A s a) (h : WF A.base a) :
    HasFit s sz ↔ ∃ b, a.fit sz = some b := by
  constructor
  · rintro ⟨bps, hbps, bp, hbp, hf, hsz⟩
    rw [R.blocks_eq] at hbps
    rw [← Option.some.inj hbps] at hbp
    obtain ⟨b, hb, rfl⟩ := List.mem_map.mp hbp
    rw [(R.shows.tags b hb).1] at hsz
    exact fit_complete h hb ((R.getAlloc_eq_zero hb).mp hf) hsz (R.laid.cls_lt hb)
  · rintro ⟨b, hb⟩
    obtain ⟨h1, h2, h3⟩ := fit_some h hb
    refine ⟨_, R.blocks_eq, b.addr, List.mem_map_of_mem h1, (R.getAlloc_eq_zero h1).mpr h2, ?_⟩
    rw [(R.shows.tags b h1).1]
    exact h3

lemma Rep.not_hasFit (R : Rep A s a) (h : WF A.base a) (hf : a.fit sz = none) : ¬ HasFit s sz := by
  rw [R.hasFit_iff h, hf]
  rintro ⟨b, hb⟩
  exact absurd hb (by simp)

lemma Rep.hasRoom_iff (R : Rep A s a) {e : Nat} : HasRoom s e ↔ a.brk + e ≤ A.limit := by
  unfold HasRoom
  rw [R.laid.brk, R.laid.start]
  rfl

theorem Rep.finds (R : Rep A s a) (h : WF A.base a) :
    Finds s sz ((a.fit sz).elim 0 Block.addr) := by
  refine ⟨fun hfit => ?_, fun hno => ?_⟩
  · obtain ⟨b, hb⟩ := (R.hasFit_iff h).mp hfit
    obtain ⟨h1, h2, h3⟩ := fit_some h hb
    rw [hb]
    refine ⟨_, R.blocks_eq, List.mem_map_of_mem h1, (R.getAlloc_eq_zero h1).mpr h2, ?_⟩
    show sz ≤ s.getSize (hdrp b.addr)
    rw [(R.shows.tags b h1).1]
    exact h3
  · cases hf : a.fit sz with
    | none => rfl
    | some b => exact absurd ((R.hasFit_iff h).mpr ⟨b, hf⟩) hno

/-! ## the calls of `mem_sbrk` in a request -/

lemma request_fit (R : Rep A s a) (h : WF A.base a) (h0 : n ≠ 0) (hn : n ≤ MAX_HEAP)
    (hf : ∃ b, a.fit (fitSize n) = some b) (hrun : mmMalloc n s = some (r, t)) :
    ∃ evs, t.trace = evs ++ s.trace ∧ sbrks evs = [] := by
  have h8 := fitSize_mod n
  have hle := fitSize_le n
  have hM : MAX_HEAP = 20971520 := rfl
  obtain ⟨b, hb⟩ := hf
  obtain ⟨bp, u, hfind, hrest⟩ := mmMalloc_parts (R := Adds Event.IsAccess) R.laid.listp_ne h0 hrun
  have hsu : Adds Event.IsAccess s u := built_moves (findFit_built _) s bp u hfind
  rw [align_eq (by omega)] at hfind
  obtain ⟨hbp, R1, -⟩ := (findFit_spec R (by omega) (by omega)).of_run hfind
  rcases hrest with ⟨-, hut⟩ | ⟨hz, -⟩
  · exact (hsu.trans hut).sbrks_eq
  · -- the block that was found is not at address `0`
    rw [hb] at hbp
    have h1 : bp = b.addr := hbp
    have h2 := (R.laid.block (fit_some h hb).1).1
    have h3 := R.laid.arena
    omega

/-- the one call of `mem_sbrk`, and what it returns -/
lemma request_grow (R : Rep A s a) (h0 : n ≠ 0) (hn : n ≤ MAX_HEAP)
    (hf : a.fit (fitSize n) = none) (hrun : mmMalloc n s = some (r, t)) :
    ∃ ret evs, t.trace = evs ++ s.trace ∧
      sbrks evs = [(((max (fitSize n) 4096 : Nat) : Int), ret)] ∧
      (ret ≠ minusOne ↔ a.brk + max (fitSize n) 4096 ≤ A.limit) := by
  have h1 := R.laid.arena
  have habove := A.above
  have h8 := fitSize_mod n
  have hle := fitSize_le n
  have hM : MAX_HEAP = 20971520 := rfl
  have hlim : A.limit = A.lo + 20971520 := rfl
  have hchunk : CHUNKSIZE = 4096 := rfl
  obtain ⟨hm1, hm2⟩ := max_fit n
  have hm3 : max (fitSize n) 4096 < 2 ^ 25 := max_lt (by omega) (by omega)
  obtain ⟨bp, u, hfind, hrest⟩ := mmMalloc_parts (R := Adds Event.IsAccess) R.laid.listp_ne h0 hrun
  obtain ⟨evs, hu, hevs⟩ := (built_moves (R := Adds Event.IsAccess) (findFit_built _) s bp u
    hfind).sbrks_eq
  rw [align_eq (by omega)] at hfind hrest
  rw [hchunk] at hrest
  obtain ⟨hbp, R1, -⟩ := (findFit_spec R (by omega) (by omega)).of_run hfind
  rw [hf] at hbp
  obtain ⟨-, q, v, hext, hvt⟩ := hrest.resolve_left (fun hc => hc.1 hbp)
  obtain ⟨q', w, hsbrk, hwv⟩ := extendHeap_parts (R := Adds Event.IsAccess) hext
  rw [even_words hm2 (hm3.trans (by omega)), toInt_eq (hm3.trans (by omega))] at hsbrk
  obtain ⟨evs', ht, hevs'⟩ := (hwv.trans hvt).sbrks_eq
  generalize max (fitSize n) 4096 = e at hm3 hsbrk ⊢
  have hb := R1.laid.brk
  have hm := R1.laid.maxAddr
  by_cases hroom : a.brk + e ≤ A.limit
  · rw [memSbrk_ok (by omega) (by omega)] at hsbrk
    obtain ⟨rfl, rfl⟩ := Prod.mk.inj (Option.some.inj hsbrk)
    refine ⟨u.memBrk, evs' ++ .sbrk e u.memBrk :: evs, ?_, ?_, fun _ => hroom, fun _ => ?_⟩
    · rw [ht, Heap.log_trace, hu, List.append_assoc, List.cons_append]
    · rw [sbrks_append, hevs', List.nil_append]
      exact congrArg _ hevs
    · show u.memBrk ≠ 4294967295
      omega
  · have hfail := memSbrk_fail (s := u) (n := e) (by omega) (Or.inr (by omega))
    rw [toInt_eq (by omega), hsbrk] at hfail
    obtain ⟨rfl, rfl⟩ := Prod.mk.inj (Option.some.inj hfail)
    refine ⟨minusOne, evs' ++ .sbrk e minusOne ::
      .message "ERROR: mem_sbrk failed. Ran out of memory...\n" :: evs, ?_, ?_,
      fun hne => absurd rfl hne, fun hr => absurd hr hroom⟩
    · rw [ht, Heap.log_trace, Heap.log_trace, hu, List.append_assoc, List.cons_append,
        List.cons_append]
    · rw [sbrks_append, hevs', List.nil_append]
      exact congrArg _ hevs

end

section
variable {lo n : Nat} {c : Client}

/-- **Complete search** in every state of an ordinary run: a request finds a free block when one is
large enough, else moves the break by what it needs, and fails only when there is no room. -/
theorem malloc_complete (h : Ordinary lo c) (h0 : 0 < n) (hz : n ≤ MAX_HEAP) :
    Ends (findFit (align (addW n OVERHEAD) / WSIZE)) c.heap (fun r _ =>
      Finds c.heap (align (addW n OVERHEAD)) r) ∧
    Ends (mmMalloc n) c.heap (fun r t => Requests c.heap (align (addW n OVERHEAD)) r t) := by
  obtain ⟨A, -, a, hT⟩ := h.tracks
  have R := hT.rep
  have h8 := fitSize_mod n
  have hle := fitSize_le n
  have hM : MAX_HEAP = 20971520 := rfl
  rw [align_eq (by omega)]
  refine ⟨(findFit_spec R (by omega) (by omega)).mono fun r _ hr => hr.1 ▸ R.finds a.wf, ?_⟩
  obtain ⟨r, t, hrun, hr, R1, -⟩ := mmMalloc_spec R a.wf (fits_of_le R hz)
  refine ⟨r, t, hrun, ?_⟩
  have h0' : n ≠ 0 := Nat.ne_of_gt h0
  have hbrk := R1.laid.brk
  have hroom := R.hasRoom_iff (e := max (fitSize n) 4096)
  rcases malloc_cases A.limit a.toPool h0' with ⟨b, hb, e⟩ | ⟨hf, hle, e⟩ | ⟨hf, hlt, e⟩
  · have hyes : HasFit c.heap (fitSize n) := (R.hasFit_iff a.wf).mpr ⟨b, hb⟩
    refine ⟨fun _ => ⟨?_, request_fit R a.wf h0' hz ⟨b, hb⟩ hrun⟩, fun hno => absurd hyes hno, ?_⟩
    · rw [hbrk, e, R.laid.brk]
      exact place_brk _ _ _
    · rw [hr, e]
      exact ⟨fun _ => Or.inl hyes, fun _ => Nat.succ_ne_zero _⟩
  · have hno := R.not_hasFit a.wf hf
    obtain ⟨ret, evs, h1, h2, h3⟩ := request_grow R h0' hz hf hrun
    refine ⟨fun hyes => absurd hyes hno, fun _ => ⟨ret, evs, h1, h2, fun _ => ?_, fun hmo => ?_⟩, ?_⟩
    · rw [hbrk, e, R.laid.brk]
      exact place_brk _ _ _
    · exact absurd hmo (h3.mpr hle)
    · rw [hr, e]
      exact ⟨fun _ => Or.inr (hroom.mpr hle), fun _ => Nat.succ_ne_zero _⟩
  · have hno := R.not_hasFit a.wf hf
    have hnr : ¬ a.brk + max (fitSize n) 4096 ≤ A.limit := Nat.not_le_of_lt hlt
    obtain ⟨ret, evs, h1, h2, h3⟩ := request_grow R h0' hz hf hrun
    refine ⟨fun hyes => absurd hyes hno, fun _ => ⟨ret, evs, h1, h2, fun hmo => ?_, fun _ => ?_⟩, ?_⟩
    · exact absurd (h3.mp hmo) hnr
    · rw [hbrk, e, R.laid.brk]
    · rw [hr, e]
      refine ⟨fun hne => absurd rfl hne, fun hor => ?_⟩
      rcases hor with hy | hy
      · exact absurd hy hno
      · exact absurd (hroom.mp hy) hnr

theorem malloc_complete_sample :
    Ends (findFit (align (addW 40 OVERHEAD) / WSIZE)) Sample.client.heap (fun r _ =>
      Finds Sample.client.heap (align (addW 40 OVERHEAD)) r) ∧
    Ends (mmMalloc 40) Sample.client.heap (fun r t =>
      Requests Sample.client.heap (align (addW 40 OVERHEAD)) r t) :=
  malloc_complete Sample.client_ordinary (by decide) (by decide)

end
end SegList

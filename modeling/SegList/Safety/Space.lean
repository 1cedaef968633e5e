import SegList.Pool.Space
import SegList.Safety.Confluence
import Mathlib.Data.List.Infix

/-!
# How much space the allocator takes

* `within_budget`     the break is bounded by what the calls asked for, and a client that asks for no
                      more than the arena has is never refused;
* `heap_bounded`      however long the run, the break is bounded by what is live at one time, and a
                      client that keeps within this bound is never refused;
* `freed_reusable`    what is given back is enough for any request of the same size or less;
* `freed_whole`       when everything is given back, in whatever order, the whole heap can be handed out
                      in one piece.
-/

set_option linter.unusedSectionVars false

open Bytes Prog

namespace SegList
open Pool

/-- what `mm_init` takes of the arena: the bucket table, the prologue, the epilogue, and a first
free block of 4096 bytes -/
def initialSpace : Nat := 144 + 4096

section
variable {A : Arena} {s : Heap} {a : Pool} {lo n m p w : Nat} {mem : Mem} {l : Label}
  {ls : List Label} {c : Client} {ps : List Nat}

/-- **A client within its budget is never refused**: the break is at most `lo` plus what `mm_init` and
the calls of the run need, and no call is answered with `NULL` while this fits into the arena. -/
theorem within_budget (h : Trail lo mem ls c) :
    c.heap.memBrk ≤ lo + initialSpace + budget ls ∧
    ∀ pre k r post, ls = pre ++ .call k r :: post → 0 < k.size →
      initialSpace + budget (pre ++ [.call k r]) ≤ MAX_HEAP → r ≠ 0 := by
  obtain ⟨A, rfl, a, hrun, hT⟩ := h.follows
  have hfirst : (firstPool A.lo).brk = A.lo + initialSpace := rfl
  refine ⟨?_, ?_⟩
  · rw [hT.rep.laid.brk, ← hfirst]
    exact SoundPool.run_brk_le hrun
  · rintro pre k r post rfl hk hle
    -- the pool in front of the call
    obtain ⟨b, hpre, hpost⟩ := Lts.run_append.mp hrun
    obtain ⟨d, hd, -⟩ := Lts.run_cons.mp hpost
    have hd : b.call k = (r, d) := hd
    have h1 := SoundPool.run_brk_le hpre
    rw [hfirst] at h1
    rw [budget_snoc] at hle
    have hle : initialSpace + (budget pre + k.need) ≤ MAX_HEAP := hle
    have h2 := b.call_ne_zero (k := k) (Nat.ne_of_gt hk) (by omega)
    rw [hd] at h2
    exact h2

theorem within_budget_sample : Sample.pair.heap.memBrk ≤
    8 + initialSpace + budget [.call (.malloc 40) 160, .call (.malloc 8) 232] ∧
    ∀ pre k r post, [Label.call (.malloc 40) 160, .call (.malloc 8) 232] = pre ++ .call k r :: post →
      0 < k.size → initialSpace + budget (pre ++ [.call k r]) ≤ MAX_HEAP → r ≠ 0 :=
  within_budget Sample.pair_trail

lemma Client.Step.live_label {d : Client} (h : c.Step l d) : d.live = l.live c.live := by
  cases h <;> rfl

lemma Call.SizeLe.mono {k : Call} (h : k.SizeLe n) (hn : n ≤ m) : k.SizeLe m := by
  cases k with
  | malloc i => exact h.trans hn
  | free p => trivial
  | realloc p i => exact h.trans hn

/-- **A step keeps the heap within its reach.** -/
lemma Tracks.step_within {a : SoundPool A.base A.limit} {d : Client} (hT : Tracks A c a)
    (hs : c.Step l d) (hn : ∀ k r, l = .call k r → k.SizeLe n) :
    d.heap.memBrk ≤ max c.heap.memBrk (A.base + reach n c.live) ∧ ∃ b, Tracks A d b := by
  obtain ⟨b, hl, hT'⟩ := step_follows hT hs
  refine ⟨?_, b, hT'⟩
  rw [hT.rep.laid.brk, hT'.rep.laid.brk]
  cases l with
  | call k r =>
    have hl : a.call k = (r, b) := hl
    have h1 := hT.owns.call_brk_le (fun e he => hT.rep.laid.cls_lt he) (hn k r rfl)
    rwa [hl] at h1
  | write x v =>
    obtain rfl : b = a := hl
    exact Nat.le_max_left _ _

lemma Tracks.run_within {a : SoundPool A.base A.limit} {d : Client} (hT : Tracks A d a)
    (hrun : Lts.Run Client.Step d ls c) (hn : ∀ k r, Label.call k r ∈ ls → k.SizeLe n)
    (hw : ∀ pre, pre <+: ls → reach n (pre.foldl Label.live d.live) ≤ w)
    (h0 : d.heap.memBrk ≤ A.base + w) : c.heap.memBrk ≤ A.base + w ∧ reach n c.live ≤ w ∧
      ∃ b, Tracks A c b := by
  suffices h : c.live = ls.foldl Label.live d.live ∧ c.heap.memBrk ≤ A.base + w ∧
      ∃ b, Tracks A c b by
    obtain ⟨h1, h2, h3⟩ := h
    exact ⟨h2, h1 ▸ hw ls (List.prefix_refl _), h3⟩
  induction hrun with
  | nil => exact ⟨rfl, h0, a, hT⟩
  | @snoc ls l t u _ hl ih =>
    obtain ⟨h1, h2, b, h3⟩ := ih (fun k r hk => hn k r (List.mem_append_left _ hk))
      (fun pre hp => hw pre (hp.trans (List.prefix_append _ _)))
    obtain ⟨h4, hT'⟩ := h3.step_within hl fun k r e => hn k r (by simp [e])
    have h5 := hw ls (List.prefix_append _ _)
    rw [← h1] at h5
    refine ⟨?_, by omega, hT'⟩
    rw [List.foldl_append, ← h1]
    exact hl.live_label

/-- **However long the run, the heap does not grow beyond what is live at one time**: when no call asks
for more than `n` bytes and what is live never reaches further than `w`, the break is at most `w` behind
the prologue; and when `w` fits into the arena, no request of up to `n` bytes is refused. -/
theorem heap_bounded (h : Trail lo mem ls c) (hn : ∀ k r, Label.call k r ∈ ls → k.SizeLe n)
    (hw : ∀ pre, pre <+: ls → reach n (pre.foldl Label.live []) ≤ w) :
    c.heap.memBrk ≤ lo + 144 + w ∧
    ∀ k : Call, k.Names c.live → k.SizeLe n → 0 < k.size → 144 + w ≤ MAX_HEAP →
      Ends k.run c.heap (fun r _ => r ≠ 0) := by
  obtain ⟨hb, r, s, h1, h2⟩ := h
  obtain ⟨A, rfl, -, R⟩ := boot_arena hb h1
  have hT : Tracks A ⟨s, []⟩ (firstPool A.lo) := ⟨R, Owns.initial A.base, Nat.le_refl _⟩
  have hfirst : s.memBrk ≤ A.base + w := by
    have h3 : 4096 ≤ reach n [] := (Nat.le_max_right _ _).trans (Nat.le_add_left _ _)
    have h4 : s.memBrk = A.base + 4096 := R.laid.brk
    have h5 := hw [] List.nil_prefix
    have h6 : reach n ([].foldl Label.live []) = reach n [] := rfl
    omega
  obtain ⟨hle, hlast, a, hTa⟩ := hT.run_within h2 hn hw hfirst
  refine ⟨hle, fun k hk hkn h0 hfit => ?_⟩
  have hlim : A.limit = A.lo + MAX_HEAP := rfl
  have hbase : A.base = A.lo + 144 := rfl
  have hne := hTa.owns.call_ne_zero (fun e he => hTa.rep.laid.cls_lt he) hkn (Nat.ne_of_gt h0)
    (show A.base + reach n c.live ≤ A.limit by omega)
  have hsize : n ≤ MAX_HEAP := by
    have h3 := le_fitSize n
    have h4 : fitSize n ≤ reach n c.live := (Nat.le_max_left _ _).trans (Nat.le_add_left _ _)
    omega
  have hfound : k.Found (a.call k).1 := by
    cases k with
    | malloc m => trivial
    | free p => trivial
    | realloc p m => exact fun _ => hne
  refine (call_spec hTa hk (hkn.mono hsize) hfound).mono fun r t ht => ?_
  rw [ht.ret]
  exact hne

theorem heap_bounded_sample : Sample.pair.heap.memBrk ≤ 8 + 144 + 4544 ∧
    ∀ k : Call, k.Names Sample.pair.live → k.SizeLe 64 → 0 < k.size → 144 + 4544 ≤ MAX_HEAP →
      Ends k.run Sample.pair.heap (fun r _ => r ≠ 0) := by
  have hreach : ∀ pre ∈ [Label.call (.malloc 40) 160, .call (.malloc 8) 232].inits,
      reach 64 (pre.foldl Label.live []) ≤ 4544 := by decide
  refine heap_bounded Sample.pair_trail (fun k r hk => ?_) fun pre hp =>
    hreach pre ((List.mem_inits _ _).mpr hp)
  rcases List.mem_pair.mp hk with e | e <;> obtain ⟨rfl, -⟩ := Label.call.inj e <;>
    show _ ≤ 64 <;> decide

/-- **What is given back can be had again**: in every state of an ordinary run, after `mm_free` of a
live pointer, `mm_malloc` of at most the size it was requested with succeeds and leaves the break. -/
theorem freed_reusable (h : Ordinary lo c) (hp : (p, m) ∈ c.live) (h0 : 0 < n) (hn : n ≤ m) :
    Ends (do mmFree p; mmMalloc n) c.heap (fun r t => r ≠ 0 ∧ t.memBrk = c.heap.memBrk) := by
  obtain ⟨A, -, a, hT⟩ := h.tracks
  obtain ⟨b, hb, hu, rfl, hsz, -⟩ := hT.owns.backed p m hp
  rw [ends_bind]
  refine (mmFree_spec hT.rep a.wf hb hu).mono fun _ s hs => ?_
  have hwf := free_wf a.wf (b.addr + 8)
  have hfit : fitSize n ≤ b.size := (fitSize_mono hn).trans hsz
  obtain ⟨d, hd⟩ := fit_freed a.wf hb hu hfit fun e he => hs.1.laid.cls_lt he
  have e := malloc_of_fit A.limit (Nat.ne_of_gt h0) hd
  have hsmall : n ≤ MAX_HEAP := by
    have h1 := hT.rep.laid.block hb
    have h2 := hT.rep.laid.arena
    have h3 := le_fitSize n
    have hM : MAX_HEAP = 20971520 := rfl
    have hlim : A.limit = A.lo + 20971520 := rfl
    omega
  refine (mmMalloc_spec hs.1 hwf (fits_of_le hs.1 hsmall)).mono fun r t ht => ⟨?_, ?_⟩
  · rw [ht.1, e]
    exact Nat.succ_ne_zero _
  · rw [ht.2.1.laid.brk, e, hT.rep.laid.brk]
    show (Pool.place _ _ _).brk = _
    rw [place_brk, free_brk]

theorem freed_reusable_sample : Ends (do mmFree 160; mmMalloc 24) Sample.client.heap
    (fun r t => r ≠ 0 ∧ t.memBrk = Sample.client.heap.memBrk) :=
  freed_reusable Sample.client_ordinary (List.mem_singleton.mpr rfl) (by decide) (by decide)

lemma malloc_whole {base limit : Nat} (h : WF base a) (hf : ∀ b ∈ a.blocks, b.alloc = false)
    (h0 : 0 < n) (hn : base + fitSize n ≤ a.brk) (hc : ∀ b ∈ a.blocks, cls b.size < classes) :
    a.malloc limit n = (base + 8, a.place ⟨base, a.brk - base, false⟩ (fitSize n)) := by
  have hfit := le_fitSize n
  have hwhole := h.whole hf (by omega)
  have hb : (⟨base, a.brk - base, false⟩ : Block) ∈ a.blocks := hwhole ▸ List.mem_singleton.mpr rfl
  obtain ⟨d, hd⟩ := fit_complete (s := fitSize n) h hb rfl
    (show fitSize n ≤ a.brk - base by omega) (hc _ hb)
  obtain ⟨hdm, -, -⟩ := fit_some h hd
  rw [hwhole] at hdm
  obtain rfl := List.mem_singleton.mp hdm
  exact malloc_of_fit limit (Nat.ne_of_gt h0) hd

/-- **Nothing is lost to fragmentation for good**: when everything is given back, whatever the run and
in whatever order, a request of up to the whole heap is answered with its first payload and leaves
the break. -/
theorem freed_whole (h : Ordinary lo c) (hps : ps.Perm (c.live.map Prod.fst)) (h0 : 0 < n)
    (hz : n ≤ MAX_HEAP) (hn : lo + 144 + align (addW n OVERHEAD) ≤ c.heap.memBrk) :
    Ends (do mmFreeAll ps; mmMalloc n) c.heap (fun r t =>
      r = lo + 152 ∧ t.memBrk = c.heap.memBrk) := by
  obtain ⟨A, rfl, a, hT⟩ := h.tracks
  have huse : ∀ p ∈ ps, InUse a.toPool p := by
    intro p hp
    obtain ⟨e, he, rfl⟩ := List.mem_map.mp (hps.mem_iff.mp hp)
    exact hT.owns.inUse he
  have hnodup : ps.Nodup := hps.nodup_iff.mpr hT.owns.nodup
  obtain ⟨hwf, hbrk, hmem⟩ := freeAll_spec a.wf huse hnodup
  have hfree : ∀ b ∈ (a.toPool.freeAll ps).blocks, b.alloc = false := by
    -- a block still in use would be that of a live pointer
    intro b hb
    by_contra hne
    have hu : b.alloc = true := by simpa using hne
    obtain ⟨⟨h1, -⟩, h2⟩ := (hmem b).mp ⟨hb, hu⟩
    obtain ⟨m, hm⟩ := hT.owns.owned b h1 hu
    exact h2 (hps.mem_iff.mpr (List.mem_map.mpr ⟨_, hm, rfl⟩))
  have hfits := fits_of_le hT.rep hz
  rw [align_eq hfits.1, hT.rep.laid.brk] at hn
  rw [ends_bind]
  refine (mmFreeAll_spec hT.rep a.wf huse hnodup).mono fun _ s R => ?_
  have e : (a.toPool.freeAll ps).malloc A.limit n = _ :=
    malloc_whole hwf hfree h0 (by rw [hbrk]; exact hn) fun b hb => R.laid.cls_lt hb
  refine (mmMalloc_spec R hwf (fits_of_le R hz)).mono fun r t ht => ⟨?_, ?_⟩
  · rw [ht.1, e]
    rfl
  · rw [ht.2.1.laid.brk, e, hT.rep.laid.brk]
    show (Pool.place _ _ _).brk = _
    rw [place_brk, hbrk]

/-- all 4096 bytes of the first heap -/
theorem freed_whole_sample : Ends (do mmFreeAll [160, 232]; mmMalloc 4064) Sample.pair.heap
    (fun r t => r = 160 ∧ t.memBrk = Sample.pair.heap.memBrk) := by
  refine freed_whole Sample.pair_ordinary (List.Perm.swap 232 160 []) (by decide) (by decide) ?_
  obtain ⟨A, hA, a, hT⟩ := Sample.pair_ordinary.tracks
  have h1 := hT.grown
  have h2 : A.base = A.lo + 144 := rfl
  rw [hT.rep.laid.brk]
  show 8 + 144 + 4096 ≤ a.brk
  omega

end
end SegList

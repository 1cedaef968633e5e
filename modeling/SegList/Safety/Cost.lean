import SegList.Lib.Cost
import SegList.Refine.Readout
import SegList.Safety.Accesses
import Mathlib.Data.List.Nodup

/-!
# How many words a call reads and writes

* `mmFree_costs`       nothing in `mm_free` depends on the heap but the branch of `coalesce`: it costs
                       a constant, on any heap;
* `findFit_costs`      the search reads each bucket once, and two words of each free block at most;
* `cost_bounded`       so a call costs a constant and twice the number of free blocks.
-/

set_option linter.unusedSectionVars false

open Bytes Prog

namespace SegList
open Pool

instance : DecidablePred Event.IsAccess := fun e =>
  match e with
  | .load _ _ => isTrue trivial
  | .store _ _ => isTrue trivial
  | .memcpy _ _ _ => isFalse id
  | .sbrk _ _ => isFalse id
  | .message _ => isFalse id

/-- the words read and written so far -/
def Heap.accesses (s : Heap) : Nat := s.trace.countP fun e => e.IsAccess

/-! ## the functions -/

section
variable (p q v n : Nat)

lemma get_costs : Costs Heap.accesses 1 (get p) := by
  intro s r t h
  obtain ⟨-, rfl⟩ := Prod.mk.inj (Option.some.inj h)
  exact le_of_eq (List.countP_cons_of_pos (decide_eq_true trivial))

lemma put_costs : Costs Heap.accesses 1 (put p v) := by
  intro s r t h
  obtain ⟨-, rfl⟩ := Prod.mk.inj (Option.some.inj h)
  exact le_of_eq (List.countP_cons_of_pos (decide_eq_true trivial))

lemma accesses_other (s : Heap) {e : Event} (h : ¬ e.IsAccess) : (s.log e).accesses = s.accesses :=
  List.countP_cons_of_neg fun hc => h (of_decide_eq_true hc)

lemma memHeapLo_costs : Costs Heap.accesses 0 memHeapLo := by
  intro s r t h
  obtain ⟨-, rfl⟩ := Prod.mk.inj (Option.some.inj h)
  exact le_refl _

lemma memSbrk_costs (incr : Int) : Costs Heap.accesses 0 (memSbrk incr) := by
  intro s r t h
  unfold memSbrk at h
  split at h
  · obtain ⟨-, rfl⟩ := Prod.mk.inj (Option.some.inj h)
    exact le_of_eq ((accesses_other _ id).trans (accesses_other _ id))
  · obtain ⟨-, rfl⟩ := Prod.mk.inj (Option.some.inj h)
    exact le_of_eq (accesses_other _ id)

lemma getSize_costs : Costs Heap.accesses 1 (getSize p) := (get_costs p).bind fun _ => .pure _

lemma getAlloc_costs : Costs Heap.accesses 1 (getAlloc p) := (get_costs p).bind fun _ => .pure _

lemma ftrp_costs : Costs Heap.accesses 1 (ftrp p) := (getSize_costs _).bind fun _ => .pure _

lemma nextBlkp_costs : Costs Heap.accesses 1 (nextBlkp p) := (getSize_costs _).bind fun _ => .pure _

lemma prevBlkp_costs : Costs Heap.accesses 1 (prevBlkp p) := (getSize_costs _).bind fun _ => .pure _

lemma findBucketFrom_costs (rounds k : Nat) : Costs Heap.accesses 0 (findBucketFrom n rounds k) := by
  induction rounds generalizing k with
  | zero => exact .pure _
  | succ rounds ih => exact .ite (memHeapLo_costs.bind fun _ => .pure _) (ih (k + 1))

lemma findBucket_costs : Costs Heap.accesses 0 (findBucket n) := findBucketFrom_costs n _ _

lemma addToBucket_costs : Costs Heap.accesses 6 (addToBucket p q) := by
  refine (get_costs q).bind fun node => (put_costs _ _).bind fun _ => (put_costs _ _).bind fun _ => ?_
  refine .ite ((put_costs _ _).le (by decide)) ((put_costs _ _).bind fun _ => ?_)
  exact (put_costs _ _).bind fun _ => put_costs _ _

lemma addToSeglist_costs : Costs Heap.accesses 7 (addToSeglist p) :=
  (getSize_costs _).bind fun _ => (findBucket_costs _).bind fun b => addToBucket_costs p b

lemma removeFromBucket_costs : Costs Heap.accesses 6 (removeFromBucket p q) := by
  refine (get_costs q).bind fun node => .ite ?_ ?_
  · refine (get_costs p).bind fun _ => (put_costs _ _).bind fun _ => (get_costs p).bind fun _ => ?_
    exact .ite ((put_costs _ _).le (by decide)) (.pure _)
  · have hprev : ∀ node, Costs Heap.accesses 2
        (if node ≠ 0 then get p >>= fun v => put node v else pure ()) := fun node =>
      .ite ((get_costs p).bind fun _ => put_costs _ _) (.pure _)
    refine (get_costs _).bind fun node => (hprev node).bind fun _ => (get_costs node).bind fun _ => ?_
    exact .ite (put_costs _ _) (.pure _)

lemma removeFromSeglist_costs : Costs Heap.accesses 7 (removeFromSeglist p) :=
  (getSize_costs _).bind fun _ => (findBucket_costs _).bind fun b => removeFromBucket_costs p b

lemma place_costs : Costs Heap.accesses 22 (place p n) := by
  refine (getSize_costs _).bind fun csize => .ite ?_ ?_
  · refine (removeFromSeglist_costs p).bind fun _ => (put_costs _ _).bind fun _ => ?_
    refine (ftrp_costs p).bind fun _ => (put_costs _ _).bind fun _ => ?_
    refine (nextBlkp_costs p).bind fun next => (put_costs _ _).bind fun _ => ?_
    refine (ftrp_costs next).bind fun _ => (put_costs _ _).bind fun _ => ?_
    exact (addToSeglist_costs next).le (by decide)
  · refine (removeFromSeglist_costs p).bind fun _ => (put_costs _ _).bind fun _ => ?_
    exact (ftrp_costs p).bind fun _ => (put_costs _ _).le (by decide)

lemma ftrpOf_costs {m : M Nat} (h : Costs Heap.accesses n m) :
    Costs Heap.accesses (1 + n + n) (ftrpOf m) :=
  h.bind fun _ => h.bind fun _ => (getSize_costs _).bind fun _ => .pure _

lemma coalesce_costs : Costs Heap.accesses 43 (coalesce p) := by
  have hend : ∀ q, Costs Heap.accesses 7 (addToSeglist q >>= fun _ => (pure q : M Nat)) := fun q =>
    (addToSeglist_costs q).bind fun _ => .pure q
  refine (ftrpOf_costs _ (prevBlkp_costs p)).bind fun _ => ?_
  refine (getAlloc_costs _).bind fun prevAlloc => (nextBlkp_costs p).bind fun next => ?_
  refine (getAlloc_costs _).bind fun nextAlloc => (getSize_costs _).bind fun size => ?_
  refine .ite ((hend p).le (by decide)) (.ite ?_ (.ite ?_ ?_))
  · refine (nextBlkp_costs p).bind fun _ => (getSize_costs _).bind fun _ => ?_
    refine (nextBlkp_costs p).bind fun q => (removeFromSeglist_costs q).bind fun _ => ?_
    refine (put_costs _ _).bind fun _ => (ftrp_costs p).bind fun _ => ?_
    exact (put_costs _ _).bind fun _ => (hend p).le (by decide)
  · refine (prevBlkp_costs p).bind fun _ => (getSize_costs _).bind fun _ => ?_
    refine (prevBlkp_costs p).bind fun q => (removeFromSeglist_costs q).bind fun _ => ?_
    refine (ftrp_costs p).bind fun _ => (put_costs _ _).bind fun _ => ?_
    refine (prevBlkp_costs p).bind fun _ => (put_costs _ _).bind fun _ => ?_
    exact (prevBlkp_costs p).bind fun q => (hend q).le (by decide)
  · refine (prevBlkp_costs p).bind fun _ => (getSize_costs _).bind fun _ => ?_
    refine (ftrpOf_costs _ (nextBlkp_costs p)).bind fun _ => ?_
    refine (getSize_costs _).bind fun _ => (nextBlkp_costs p).bind fun q => ?_
    refine (removeFromSeglist_costs q).bind fun _ => (prevBlkp_costs p).bind fun q => ?_
    refine (removeFromSeglist_costs q).bind fun _ => (prevBlkp_costs p).bind fun _ => ?_
    refine (put_costs _ _).bind fun _ => (ftrpOf_costs _ (nextBlkp_costs p)).bind fun _ => ?_
    exact (put_costs _ _).bind fun _ => (prevBlkp_costs p).bind hend

lemma extendHeap_costs : Costs Heap.accesses 48 (extendHeap n) := by
  refine (memSbrk_costs _).bind fun bp => .ite (.pure _) ?_
  refine (put_costs _ _).bind fun _ => (ftrp_costs bp).bind fun _ => (put_costs _ _).bind fun _ => ?_
  exact (nextBlkp_costs bp).bind fun _ => (put_costs _ _).bind fun _ => coalesce_costs bp

/-- **`mm_free` costs a constant**, on any heap and for any pointer. -/
lemma mmFree_costs : Costs Heap.accesses 47 (mmFree p) := by
  refine (getSize_costs _).bind fun _ => (put_costs _ _).bind fun _ => ?_
  refine (ftrp_costs _).bind fun _ => (put_costs _ _).bind fun _ => ?_
  exact (coalesce_costs _).bind fun _ => .pure _

end

/-! ## the search -/

section
variable {w prev : Nat → Nat} {words q n fuel : Nat} {s t : Heap} {l : List Nat} {r : Option Nat}

lemma accesses_load (s : Heap) (p : Nat) : (s.log (.load p s.memBrk)).accesses = s.accesses + 1 :=
  List.countP_cons_of_pos (decide_eq_true trivial)

/-- one list: two words of each node -/
lemma findFitNodes_costs (hl : DList.Linked w prev 0 q n l) (hw : s.word = w)
    (h : findFitNodes words fuel n s = some (r, t)) :
    t.word = w ∧ t.memStartBrk = s.memStartBrk ∧ t.accesses ≤ s.accesses + 2 * l.length := by
  -- induction on the nodes that are left
  induction l generalizing s q n fuel with
  | nil =>
    obtain rfl : n = 0 := hl
    cases fuel with
    | zero => exact nomatch h
    | succ fuel =>
      obtain ⟨-, rfl⟩ := Prod.mk.inj (Option.some.inj h)
      exact ⟨hw, rfl, le_refl _⟩
  | cons x l ih =>
    obtain ⟨rfl, hne, -, hl'⟩ := hl
    cases fuel with
    | zero => exact nomatch h
    | succ fuel =>
      rw [findFitNodes, if_pos hne] at h
      obtain ⟨size, u, h1, h2⟩ := bind_eq_some.mp h
      obtain ⟨-, rfl⟩ := Prod.mk.inj (Option.some.inj h1)
      have hu := accesses_load s (hdrp n)
      rw [List.length_cons]
      split at h2
      · obtain ⟨-, rfl⟩ := Prod.mk.inj (Option.some.inj h2)
        exact ⟨hw, rfl, by omega⟩
      · obtain ⟨next, v, h3, h4⟩ := bind_eq_some.mp h2
        obtain ⟨rfl, rfl⟩ := Prod.mk.inj (Option.some.inj h3)
        have hv := accesses_load (s.log (.load (hdrp n) s.memBrk)) n
        have hl' : DList.Linked w prev 0 n ((s.log (.load (hdrp n) s.memBrk)).word n) l := by
          show DList.Linked w prev 0 n (s.word n) l
          rwa [hw]
        obtain ⟨h5, h6, h7⟩ := ih (s := (s.log (.load (hdrp n) s.memBrk)).log
          (.load n (s.log (.load (hdrp n) s.memBrk)).memBrk)) hl' hw h4
        exact ⟨h5, h6, by omega⟩

variable {lo k m node : Nat} {L : Nat → List Nat}

lemma findFitBuckets_costs (hlo : lo + 128 < 2 ^ 32) (hs : s.memStartBrk = lo) (hw : s.word = w)
    (hc : ∀ k < 32, DList.Linked w prev 0 0 (w (lo + 4 * k)) (L k)) (hk : k + m = 32)
    (h : findFitBuckets words fuel (lo + 4 * k) s = some (node, t)) :
    t.accesses ≤ s.accesses + m + 2 * ((List.range' k m).flatMap L).length := by
  have hend : addW lo (WSIZE * BUCKETS_COUNT) = lo + 128 := addW_eq hlo
  induction m generalizing s k fuel with
  | zero =>
    cases fuel with
    | zero => exact nomatch h
    | succ fuel =>
      obtain ⟨start, u, h1, h2⟩ := bind_eq_some.mp h
      obtain ⟨rfl, rfl⟩ := Prod.mk.inj (Option.some.inj h1)
      rw [hs, hend, if_neg (by omega)] at h2
      obtain ⟨-, rfl⟩ := Prod.mk.inj (Option.some.inj h2)
      exact le_refl _
  | succ m ih =>
    cases fuel with
    | zero => exact nomatch h
    | succ fuel =>
      obtain ⟨start, u, h1, h2⟩ := bind_eq_some.mp h
      obtain ⟨rfl, rfl⟩ := Prod.mk.inj (Option.some.inj h1)
      rw [hs, hend, if_pos (by omega)] at h2
      obtain ⟨first, u, h1, h2⟩ := bind_eq_some.mp h2
      obtain ⟨rfl, rfl⟩ := Prod.mk.inj (Option.some.inj h1)
      obtain ⟨o, v, h3, h4⟩ := bind_eq_some.mp h2
      have hu := accesses_load s (lo + 4 * k)
      have hl : DList.Linked w prev 0 0 (s.word (lo + 4 * k)) (L k) := by
        rw [hw]
        exact hc k (by omega)
      obtain ⟨h5, h6, h7⟩ := findFitNodes_costs (s := s.log (.load (lo + 4 * k) s.memBrk)) hl hw h3
      rw [List.range'_succ, List.flatMap_cons, List.length_append]
      cases o with
      | some b =>
        obtain ⟨-, rfl⟩ := Prod.mk.inj (Option.some.inj h4)
        omega
      | none =>
        have e : addW (lo + 4 * k) WSIZE = lo + 4 * (k + 1) := by
          show addW (lo + 4 * k) 4 = _
          rw [addW_eq (by omega)]
          omega
        have h4 : findFitBuckets words fuel (addW (lo + 4 * k) WSIZE) v = some (node, t) := h4
        rw [e] at h4
        have h8 := ih (h6.trans hs) h5 (by omega) h4
        omega

end

/-! ## the calls -/

/-- the number of free blocks among `bps` -/
def Heap.freeCount (s : Heap) (bps : List Nat) : Nat := bps.countP fun bp => s.getAlloc (hdrp bp) = 0

/-- the bound for a call, in a heap with that many free blocks -/
def Call.accesses (free : Nat) : Call → Nat
  | .malloc _ => 2 * free + 102
  | .free _ => 47
  | .realloc _ _ => 2 * free + 150

section
variable {A : Arena} {s t : Heap} {a : Pool} {k m n : Nat}

lemma Pool.WF.lists_le (h : WF A.base a) :
    ((List.range' k m).flatMap a.lists).length ≤ a.blocks.countP fun b => b.alloc = false := by
  have hnd : ((List.range' k m).flatMap a.lists).Nodup := by
    refine List.nodup_flatMap.mpr ⟨fun j _ => h.nodup j, ?_⟩
    refine (List.nodup_range' (s := k) (n := m)).imp fun {i j} hne b hi hj => hne ?_
    rw [← ((h.listed i b).mp hi).2.2, ((h.listed j b).mp hj).2.2]
  have hsub : (List.range' k m).flatMap a.lists ⊆ a.blocks.filter fun b => b.alloc = false := by
    intro b hb
    obtain ⟨j, -, hj⟩ := List.mem_flatMap.mp hb
    obtain ⟨h1, h2, -⟩ := (h.listed j b).mp hj
    exact List.mem_filter.mpr ⟨h1, decide_eq_true h2⟩
  rw [List.countP_eq_length_filter]
  exact (List.Nodup.subperm hnd hsub).length_le

lemma findFit_costs {sz node : Nat} (R : Rep A s a) (h : WF A.base a) (hsz : sz % 4 = 0)
    (h31 : sz ≤ 2 ^ 31) (hrun : findFit (sz / WSIZE) s = some (node, t)) :
    t.accesses ≤ s.accesses + 32 + 2 * a.blocks.countP fun b => b.alloc = false := by
  have h0 := R.laid.arena
  have hk : cls sz ≤ 31 := (Nat.clog_le_iff_le_pow (by omega)).mpr h31
  have hc : ∀ k < 32, DList.Linked s.word (fun x => s.word (x + 4)) 0 0 (s.word (A.lo + 4 * k))
      ((a.lists k).map Block.addr) := R.threaded.chains
  have e : addW s.memStartBrk (WSIZE * Nat.clog 2 sz) = A.lo + 4 * cls sz := by
    rw [R.laid.start]
    exact addW_eq (show A.lo + 4 * cls sz < 2 ^ 32 by omega)
  obtain ⟨bucket, u, h1, h2⟩ := bind_eq_some.mp hrun
  rw [findBucket_run s sz hsz (by omega), if_pos h31, e] at h1
  obtain ⟨rfl, rfl⟩ := Prod.mk.inj (Option.some.inj h1)
  have h3 := findFitBuckets_costs (k := cls sz) (m := 32 - cls sz) (by omega) R.laid.start rfl hc
    (by omega) h2
  have h4 := h.lists_le (k := cls sz) (m := 32 - cls sz)
  have e' : (List.range' (cls sz) (32 - cls sz)).flatMap (fun k => (a.lists k).map Block.addr) =
      ((List.range' (cls sz) (32 - cls sz)).flatMap a.lists).map Block.addr :=
    (List.map_flatMap ..).symm
  rw [e', List.length_map] at h3
  omega

lemma mmMalloc_eq (n : Nat) : ∃ f : Nat → M Nat, (∀ bp, Costs Heap.accesses 70 (f bp)) ∧
    ∀ s : Heap, s.heapListp ≠ 0 → n ≠ 0 →
      mmMalloc n s = (findFit (align (addW n OVERHEAD) / WSIZE) >>= f) s := by
  have hplace : ∀ bp size, Costs Heap.accesses 22 (place bp size >>= fun _ =>
      (pure (addW bp DSIZE) : M Nat)) := fun bp size => (place_costs bp size).bind fun _ => .pure _
  refine ⟨fun bp => if bp ≠ 0 then place bp (align (addW n OVERHEAD)) >>= fun _ =>
      (pure (addW bp DSIZE) : M Nat)
    else extendHeap (max (align (addW n OVERHEAD)) CHUNKSIZE / WSIZE) >>= fun bp =>
      if bp = 0 then pure 0 else place bp (align (addW n OVERHEAD)) >>= fun _ =>
        (pure (addW bp DSIZE) : M Nat), fun bp => ?_, fun s hs hn => ?_⟩
  · exact .ite ((hplace bp _).le (by decide))
      ((extendHeap_costs _).bind fun bp => .ite (.pure _) (hplace bp _))
  · unfold mmMalloc
    show ((if s.heapListp = 0 then mmInit >>= fun _ => pure () else pure ()) >>= fun _ => _) s = _
    rw [if_neg hs, pure_bind, if_neg hn]

lemma mmMalloc_zero_run (hs : s.heapListp ≠ 0) : mmMalloc 0 s = some (0, s) := by
  unfold mmMalloc
  show ((if s.heapListp = 0 then mmInit >>= fun _ => pure () else pure ()) >>= fun _ => _) s = _
  rw [if_neg hs, pure_bind, if_pos rfl]
  rfl

lemma mmMalloc_costs {r : Nat} (R : Rep A s a) (h : WF A.base a) (hn : n ≤ MAX_HEAP)
    (hrun : mmMalloc n s = some (r, t)) :
    t.accesses ≤ s.accesses + (2 * (a.blocks.countP fun b => b.alloc = false) + 102) := by
  have hM : MAX_HEAP = 20971520 := rfl
  have hlistp : s.heapListp ≠ 0 := by
    rw [R.laid.listp]
    omega
  by_cases h0 : n = 0
  · rw [h0, mmMalloc_zero_run hlistp] at hrun
    obtain ⟨-, rfl⟩ := Prod.mk.inj (Option.some.inj hrun)
    omega
  · obtain ⟨f, hf, e⟩ := mmMalloc_eq n
    rw [e s hlistp h0, align_eq (by omega)] at hrun
    obtain ⟨bp, u, h1, h2⟩ := bind_eq_some.mp hrun
    have h8 := fitSize_mod n
    have hle := fitSize_le n
    have h3 := findFit_costs R h (by omega) (by omega) h1
    have h4 := hf bp u r t h2
    omega

lemma copyFree_costs (p q n : Nat) : Costs Heap.accesses 48 (do
    let csize ← getSize (hdrp (subW p DSIZE))
    let csize := if n < csize then n else csize
    memcpy q p csize
    mmFree p
    return q) := by
  have hcopy : ∀ len, Costs Heap.accesses 0 (memcpy q p len) := by
    intro len s r t h
    obtain ⟨-, rfl⟩ := Prod.mk.inj (Option.some.inj h)
    exact le_of_eq (List.countP_cons_of_neg fun hc => of_decide_eq_true hc)
  refine (getSize_costs _).bind fun csize => (hcopy _).bind fun _ => ?_
  exact (mmFree_costs p).bind fun _ => .pure _

lemma run_costs {k : Call} {r : Nat} (R : Rep A s a) (h : WF A.base a) (hz : k.SizeLe MAX_HEAP)
    (hrun : k.run s = some (r, t)) :
    t.accesses ≤ s.accesses + k.accesses (a.blocks.countP fun b => b.alloc = false) := by
  have hfree : ∀ (p : Nat) (x : Nat), Costs Heap.accesses 47 (mmFree p >>= fun _ => (pure x : M Nat)) :=
    fun p x => (mmFree_costs p).bind fun _ => .pure _
  cases k with
  | malloc n => exact mmMalloc_costs R h hz hrun
  | free p => exact hfree p 0 s r t hrun
  | realloc p n =>
    have hrun : mmRealloc p n s = some (r, t) := hrun
    show _ ≤ _ + (2 * _ + 150)
    unfold mmRealloc at hrun
    split at hrun
    · have h1 := mmMalloc_costs R h hz hrun
      omega
    split at hrun
    · have h1 := hfree p 0 s r t hrun
      omega
    obtain ⟨q, u, h1, h2⟩ := bind_eq_some.mp hrun
    have h3 := mmMalloc_costs R h hz h1
    have h4 := copyFree_costs p q n u r t h2
    omega

lemma Rep.freeCount_eq (R : Rep A s a) : s.freeCount (a.blocks.map Block.addr) =
    a.blocks.countP fun b => b.alloc = false := by
  unfold Heap.freeCount
  rw [List.countP_map]
  refine List.countP_congr fun b hb => ?_
  simp only [Function.comp_apply, decide_eq_true_iff]
  exact R.getAlloc_eq_zero hb

end

section
variable {lo : Nat} {c : Client} {k : Call}

/-- **What a call costs**: in every state of an ordinary run the next call reads and writes a constant
number of words and two words of each free block at most; an `mm_free` reads and writes at most 47
words, and so it does on any heap whatever. -/
theorem cost_bounded (h : Ordinary lo c) (hk : k.Names c.live) (hz : k.SizeLe MAX_HEAP)
    (hf : k.Finds c.heap) :
    (∃ bps, c.heap.blocks = some bps ∧ Ends k.run c.heap (fun _ t =>
      t.accesses ≤ c.heap.accesses + k.accesses (c.heap.freeCount bps))) ∧
    ∀ p s, Ends (mmFree p) s (fun _ t => t.accesses ≤ s.accesses + 47) := by
  obtain ⟨A, -, a, hT⟩ := h.tracks
  refine ⟨⟨_, hT.rep.blocks_eq, ?_⟩, fun p s => ?_⟩
  · obtain ⟨r, t, hrun, -⟩ := call_spec hT hk hz (hf.found hT hz)
    rw [hT.rep.freeCount_eq]
    exact ⟨r, t, hrun, run_costs hT.rep a.wf hz hrun⟩
  · exact (mmFree_costs p).ends ((mmFree_built p).ends (fun _ _ ha s => ha.ends s) s)

theorem cost_bounded_sample :
    (∃ bps, Sample.client.heap.blocks = some bps ∧ Ends (Call.malloc 8).run Sample.client.heap
      (fun _ t => t.accesses ≤ Sample.client.heap.accesses +
        (Call.malloc 8).accesses (Sample.client.heap.freeCount bps))) ∧
    ∀ p s, Ends (mmFree p) s (fun _ t => t.accesses ≤ s.accesses + 47) :=
  cost_bounded (k := .malloc 8) Sample.client_ordinary trivial (show 8 ≤ MAX_HEAP by decide) trivial

end
end SegList

import SegList.Driver.Ledger
import SegList.Safety.Payload

/-!
# eval_mm_valid on mm.c

On a legal trace for which the arena has room the driver finds nothing wrong with the ranges that
`mm.c` hands out, nor with the bytes that `mm_realloc` copied.  It compares these bytes as `char`s
with the low byte of the id, and a `char` is never above 127.

* `Balanced`          the range list is the list of live pointers, and the payloads hold their bytes;
* `Balanced.step`     the next request passes, and keeps this;
* `accepts_iff`       so the verdict is `1` exactly when no reallocated id has a low byte above 127.
-/

set_option linter.unusedSectionVars false

open Bytes Prog

namespace SegList
open Pool

/-- no `mm_malloc` of the run, those in `mm_realloc` included, returns `NULL` -/
def NeverOut (trace : Trace) (tn : Nat) (d : Driver Heap) : Prop :=
  ∀ pre op c, pre ++ [op] <+: trace.ops → Moment mmPackage trace tn d pre c → op.type ≠ .free →
    ∀ t, mmMalloc (toSize op.size) c.heap ≠ some (0, t)

/-- `eval_mm_valid` returns `1`, and nothing was counted or printed as an error -/
def Accepts (trace : Trace) (tn : Nat) (d : Driver Heap) : Prop :=
  ∃ e, evalMmValid mmPackage trace tn d = some (1, e) ∧ e.errors = d.errors ∧ e.printed = d.printed

def record (e : Nat × Nat) : Range := ⟨e.1, e.1 + e.2 - 1⟩

/-- **The driver has its books in order**: it is where the ledger is, has a record of every live
pointer, and finds its byte everywhere in the payload of each id. -/
structure Balanced (A : Arena) (ids : List Nat) (d : Driver Heap) (g : Ledger A.base A.limit) :
    Prop where
  mirrors : Mirrors A ids d.heap d.blocks g
  ranges : d.ranges = g.live.map record
  sizes : ∀ id ∈ ids, (d.blocks id, d.blockSizes id) ∈ g.live
  data : ∀ id ∈ ids, ∀ i < d.blockSizes id,
    d.heap.mem (d.blocks id + i) = UInt8.ofNat (lowByte id)

section
variable {A : Arena} {L : Live} {c : Client} {a : SoundPool A.base A.limit} {p n : Nat}

lemma map_record_lose (h : (L.map Prod.fst).Nodup) :
    (L.map record).eraseP (fun r => r.lo = p) = (lose L p).map record := by
  induction L with
  | nil => rfl
  | cons e L ih =>
    obtain ⟨h1, h2⟩ := List.nodup_cons.mp h
    rw [List.map_cons]
    by_cases he : e.1 = p
    · have hrest : lose L p = L := lose_eq_self fun f hf hfp =>
        h1 (List.mem_map.mpr ⟨f, hf, hfp.trans he.symm⟩)
      have hlose : lose (e :: L) p = lose L p := by
        unfold lose
        exact List.filter_cons_of_neg (by simpa using he)
      rw [List.eraseP_cons_of_pos (p := fun r : Range => r.lo = p) (decide_eq_true he), hlose, hrest]
    · have hlose : lose (e :: L) p = e :: lose L p := by
        unfold lose
        exact List.filter_cons_of_pos (by simpa using he)
      rw [List.eraseP_cons_of_neg (p := fun r : Range => r.lo = p) (fun hc => he (of_decide_eq_true hc)),
        hlose, List.map_cons, ih h2]

/-- **A fresh payload is admitted** among the records of the other live pointers. -/
lemma Tracks.admits (h : Tracks A c a) (hc : c.live = (p, n) :: L) {size : Int}
    (hs : 0 < size ∧ size ≤ MAX_HEAP) (hn : toSize size = n) :
    Admits mmPackage c.heap (L.map record) p size := by
  have hM : MAX_HEAP = 20971520 := rfl
  have hI : INT_MAX = 2147483647 := rfl
  have hp : (p, n) ∈ c.live := hc ▸ List.mem_cons_self
  have hsound := h.soundPayload hp
  obtain ⟨h1, h2⟩ := hsound.inHeap
  have hhi : c.heap.heapHi < 2 ^ 32 := mmPackage.memHeapHi_lt c.heap
  obtain ⟨hn0, -, -⟩ := toSize_eq hs.1 (by omega)
  have hlast := lastByte_eq (p := p) hs.1 (by omega) (by omega)
  rw [hn] at hn0 hlast
  refine ⟨hs.1, hsound.aligned, ?_, fun r hr => ?_⟩
  · rw [hlast]
    show c.heap.memStartBrk ≤ p ∧ p ≤ c.heap.heapHi ∧ c.heap.memStartBrk ≤ p + n - 1 ∧
      p + n - 1 ≤ c.heap.heapHi
    omega
  · obtain ⟨e, he, rfl⟩ := List.mem_map.mp hr
    have hnd := h.owns.nodup
    rw [hc, List.map_cons, List.nodup_cons] at hnd
    have hne : p ≠ e.1 := fun heq => hnd.1 (List.mem_map.mpr ⟨e, he, heq.symm⟩)
    have hdisj := h.disj hp (hc ▸ List.mem_cons_of_mem _ he) hne
    have h0 := h.owns.ne_zero (e := e) (hc ▸ List.mem_cons_of_mem _ he)
    rw [hlast]
    unfold Range.meets record
    unfold Disj at hdisj
    show ¬ (p ≥ e.1 ∧ p ≤ e.1 + e.2 - 1 ∨ p + n - 1 ≥ e.1 ∧ p + n - 1 ≤ e.1 + e.2 - 1)
    omega

end

/-! ## bytes as chars -/

lemma lowByte_eq (index : Nat) : lowByte index = index % 256 :=
  Nat.and_two_pow_sub_one_eq_mod index 8

lemma charInt_lt (b : UInt8) : charInt b < 128 := by
  have h := b.toNat_lt
  unfold charInt
  split <;> omega

/-- a low byte up to 127 is read back as it was written -/
lemma charInt_lowByte {index : Nat} (h : index % 256 < 128) :
    charInt (UInt8.ofNat (lowByte index)) = (lowByte index : Int) := by
  have h1 : (UInt8.ofNat (lowByte index)).toNat = index % 256 := by
    rw [lowByte_eq, UInt8.toNat_ofNat']
    omega
  unfold charInt
  rw [h1, if_pos h, lowByte_eq]

section
variable {A : Arena} {g g' : Ledger A.base A.limit} {ids : List Nat} {op : TraceOp} {numIds r : Nat}
  {d : Driver Heap} {L : Live}

lemma TraceOp.note_eq {blocks : Nat → Nat} (h : op.type ≠ .free) :
    op.note blocks r = Function.update blocks op.index r := by
  obtain ⟨type, index, size⟩ := op
  cases type with
  | alloc => rfl
  | realloc => rfl
  | free => exact absurd rfl h

lemma Mirrors.payload_le {s : Heap} {blocks : Nat → Nat} {p n : Nat}
    (h : Mirrors A ids s blocks g) (hm : (p, n) ∈ g.live) : p + n ≤ 2 ^ 32 := by
  have h1 : p + n ≤ s.heapHi + 1 := (h.tracks.soundPayload hm).inHeap.2
  have h2 : s.heapHi < 2 ^ 32 := mmPackage.memHeapHi_lt s
  omega

namespace Balanced

/-- **A fresh payload recorded and filled** leaves the books in order. -/
lemma store (hM : Mirrors A (op.after ids) d.heap (op.note d.blocks r) g') (ht : op.type ≠ .free)
    (hs : 0 < op.size ∧ op.size ≤ MAX_HEAP) (hlive : g'.live = (r, toSize op.size) :: L)
    (hranges : d.ranges = L.map record)
    (hold : ∀ id ∈ ids, id ≠ op.index → (d.blocks id, d.blockSizes id) ∈ L ∧
      ∀ i < d.blockSizes id, d.heap.mem (d.blocks id + i) = UInt8.ofNat (lowByte id)) :
    Admits mmPackage d.heap d.ranges r op.size ∧
      Balanced A (op.after ids) (Driver.store mmPackage d op.index r op.size) g' := by
  have hI : INT_MAX = 2147483647 := rfl
  have hMx : MAX_HEAP = 20971520 := rfl
  have hnew : (r, toSize op.size) ∈ g'.live := hlive ▸ List.mem_cons_self
  have hadm : Admits mmPackage d.heap d.ranges r op.size := by
    rw [hranges]
    exact hM.tracks.admits hlive hs rfl
  have hlast := lastByte_eq (p := r) hs.1 (by omega) (hM.payload_le hnew)
  rw [TraceOp.note_eq ht] at hM
  refine ⟨hadm, hM.fill hnew, ?_, fun id hid => ?_, fun id hid i hi => ?_⟩
  · rw [hlive, List.map_cons, ← hranges]
    show (⟨r, lastByte r op.size⟩ : Range) :: d.ranges = ⟨r, r + toSize op.size - 1⟩ :: d.ranges
    rw [hlast]
  · show (Function.update d.blocks op.index r id, Function.update d.blockSizes op.index
      (toSize op.size) id) ∈ g'.live
    rcases TraceOp.mem_after hid with ⟨rfl, -⟩ | ⟨hm, hne⟩
    · rw [Function.update_self, Function.update_self]
      exact hnew
    · rw [Function.update_of_ne hne, Function.update_of_ne hne, hlive]
      exact List.mem_cons_of_mem _ (hold id hm hne).1
  · have hi' : i < Function.update d.blockSizes op.index (toSize op.size) id := hi
    show (d.heap.filled r (UInt8.ofNat (lowByte op.index)) (toSize op.size)).mem
      (Function.update d.blocks op.index r id + i) = _
    rcases TraceOp.mem_after hid with ⟨rfl, -⟩ | ⟨hm, hne⟩
    · rw [Function.update_self] at hi' ⊢
      exact if_pos (by omega)
    · rw [Function.update_of_ne hne] at hi' ⊢
      obtain ⟨h1, h2⟩ := hold id hm hne
      -- the old payload is apart from the fresh one
      have hnd := hM.sound.owns.nodup
      rw [hlive, List.map_cons, List.nodup_cons] at hnd
      have hrne : r ≠ d.blocks id := fun he => hnd.1 (List.mem_map.mpr ⟨_, h1, he.symm⟩)
      have hdisj := hM.tracks.disj hnew (hlive ▸ List.mem_cons_of_mem _ h1) hrne
      unfold Disj at hdisj
      rw [← h2 i hi']
      exact if_neg (by omega)

lemma others {t : Heap} (h : Balanced A ids d g) (hl : op.Legal numIds MAX_HEAP ids)
    (hd : Does A d.heap g.pool (op.call g.blocks) r t) : ∀ id ∈ ids, id ≠ op.index →
      (d.blocks id, d.blockSizes id) ∈ lose g.live (op.call g.blocks).subject ∧
      ∀ i < d.blockSizes id, t.mem (d.blocks id + i) = UInt8.ofNat (lowByte id) := by
  intro id hid hne
  have hs := h.mirrors.sound
  have hlive := h.sizes id hid
  have hsub := hs.subject_ne hl hid hne
  rw [← h.mirrors.same id hid] at hsub
  refine ⟨mem_lose.mpr ⟨hlive, hsub⟩, fun i hi => ?_⟩
  have hkept := h.mirrors.tracks.kept hd (hl.names hs).1 hlive (Ne.symm hsub)
  rw [hkept _ (by omega) (by omega)]
  exact h.data id hid i hi

lemma drop_ranges (h : Balanced A ids d g) (p : Nat) :
    (d.drop p).ranges = (lose g.live p).map record := by
  show d.ranges.eraseP (fun r => r.lo = p) = _
  rw [h.ranges]
  exact map_record_lose h.mirrors.sound.owns.nodup

/-- **`mm_realloc` keeps the data** that the driver looks for. -/
lemma kept {t : Heap} {index : Nat} {size : Int} (h : Balanced A ids d g)
    (hl : TraceOp.Legal numIds MAX_HEAP ids ⟨.realloc, index, size⟩)
    (hd : Does A d.heap g.pool (.realloc (d.blocks index) (toSize size)) r t)
    (hin : r + toSize size ≤ 2 ^ 32) (hi : index % 256 < 128) :
    ∀ j < (keptSize (d.blockSizes index) size).toNat,
      charInt (mmPackage.load t (addW r j)) = (lowByte index : Int) := by
  intro j hj
  have hid : index ∈ ids := hl.named (by simp)
  obtain ⟨h0, -, hsz⟩ := toSize_le (hl.size (by simp))
  simp only at h0 hsz
  obtain ⟨b, hb, hu, hp, hle, -⟩ := h.mirrors.sound.owns.backed _ _ (h.sizes index hid)
  have hfit := le_fitSize (d.blockSizes index)
  have hold : d.blockSizes index < 2 ^ 31 := by
    have h1 := h.mirrors.rep.laid.block hb
    have h2 := h.mirrors.rep.laid.arena
    omega
  have hj' : j < toSize size ∧ j < d.blockSizes index := by
    unfold keptSize at hj
    rw [toInt_eq hold] at hj
    split at hj <;> omega
  have hcopy := hd.copies _ _ rfl (Nat.ne_of_gt h0) b hb hu hp j hj'.1 (by omega)
  show charInt (t.mem (addW r j)) = _
  rw [addW_eq (by omega), hcopy, h.data index hid j hj'.2]
  exact charInt_lowByte hi

/-- **The next request passes**, and leaves the books in order. -/
theorem step (h : Balanced A ids d g) (hl : op.Legal numIds MAX_HEAP ids)
    (hr : op.type ≠ .free → g.answer op ≠ 0) (hi : op.type = .realloc → op.index % 256 < 128) :
    ∃ c, Passed mmPackage d op c ∧ Balanced A (op.after ids) c (g.serve op) := by
  obtain ⟨t, hrun⟩ := h.mirrors.runs hl hr
  obtain ⟨-, hM, hd⟩ := h.mirrors.serve hl hrun hr
  have hother := h.others hl hd
  have hlive := h.mirrors.sound.live_serve hr
  have hcall := h.mirrors.call_eq hl
  rw [← hcall] at hother hlive hd
  obtain ⟨type, index, size⟩ := op
  cases type with
  | alloc =>
    have hnz : ∀ e ∈ g.live, e.1 ≠ 0 := fun e he => h.mirrors.sound.owns.ne_zero he
    have hall : lose g.live 0 = g.live := lose_eq_self hnz
    obtain ⟨e, -⟩ := hlive.resolve_left fun hc => absurd hc.2 (by simp)
    obtain ⟨hadm, hB⟩ := store (d := { d with heap := t }) hM (by simp) (hl.size (by simp)) e
      (show d.ranges = (lose g.live 0).map record by rw [hall]; exact h.ranges) hother
    exact ⟨_, .alloc hrun (hr (by simp)) hadm, hB⟩
  | realloc =>
    obtain ⟨e, -⟩ := hlive.resolve_left fun hc => absurd hc.2 (by simp)
    obtain ⟨hadm, hB⟩ := store (d := { d.drop (d.blocks index) with heap := t }) hM (by simp)
      (hl.size (by simp)) e (h.drop_ranges _) hother
    have hin := hM.payload_le (e ▸ List.mem_cons_self)
    exact ⟨_, .realloc hrun (hr (by simp)) hadm (h.kept hl hd hin (hi rfl)), hB⟩
  | free =>
    obtain ⟨e, -⟩ := hlive.resolve_right fun hc => absurd rfl hc.2
    obtain ⟨_, u, hfree, hret⟩ := bind_eq_some.mp hrun
    obtain ⟨-, rfl⟩ := Prod.mk.inj (Option.some.inj hret)
    refine ⟨_, .free hfree, hM, ?_, fun id hid => ?_, fun id hid => ?_⟩
    · rw [e]
      exact h.drop_ranges _
    · obtain ⟨hm, hne⟩ := mem_after_free.mp hid
      rw [e]
      exact (hother id hm hne).1
    · obtain ⟨hm, hne⟩ := mem_after_free.mp hid
      exact (hother id hm hne).2

end Balanced

end

section
variable {A : Arena} {trace : Trace} {tn : Nat} {d e : Driver Heap} {pre : List TraceOp} {lo : Nat}

lemma Balanced.first (hd : Ready A.lo d.heap) : ∃ c, Moment mmPackage trace tn d [] c ∧
    Balanced A [] c (Ledger.first A) := by
  obtain ⟨r, t, hrun, rfl, R⟩ := restart_spec hd
  refine ⟨{ d with heap := t, ranges := [] }, moment_iff.mpr ⟨List.nil_prefix, _,
    ⟨0, t, hrun, le_refl _, rfl⟩, Lts.run_nil.mpr rfl⟩, .first R, rfl, fun _ hid => ?_, fun _ hid => ?_⟩
  · exact absurd hid List.not_mem_nil
  · exact absurd hid List.not_mem_nil

/-- **Every moment is reached, with the books in order.** -/
theorem Balanced.moment (hd : Ready A.lo d.heap) (hl : trace.Legal MAX_HEAP)
    (hout : NeverOut trace tn d)
    (hi : ∀ op ∈ trace.ops, op.type = .realloc → op.index % 256 < 128) (hpre : pre <+: trace.ops) :
    ∃ c, Moment mmPackage trace tn d pre c ∧
      Balanced A (allocated pre) c (Ledger.after A pre) := by
  induction pre using List.reverseRecOn with
  | nil => exact Balanced.first hd
  | append_singleton pre op ih =>
    obtain ⟨b, hb, hB⟩ := ih ((List.prefix_append _ _).trans hpre)
    have hop := hl.request hpre
    have hmem : op ∈ trace.ops := hpre.subset (List.mem_append_right _ (List.mem_singleton.mpr rfl))
    obtain ⟨c, hs, hB'⟩ := hB.step hop (fun ht => (hB.mirrors.answered_iff hop ht).mpr
      (hout pre op b hpre hb ht)) (hi op hmem)
    refine ⟨c, moment_snoc.mpr ⟨hpre, b, hb, hs⟩, ?_⟩
    rw [allocated_snoc, Ledger.after_snoc]
    exact hB'

lemma accepts_of_small (hd : Ready A.lo d.heap) (hl : trace.Legal MAX_HEAP)
    (hout : NeverOut trace tn d)
    (hi : ∀ op ∈ trace.ops, op.type = .realloc → op.index % 256 < 128) : Accepts trace tn d := by
  obtain ⟨c, hc, -⟩ := Balanced.moment hd hl hout hi (List.prefix_refl _)
  obtain ⟨-, d', h1, h2⟩ := moment_iff.mp hc
  have hq := passes_quiet h2
  obtain ⟨r, t, -, -, rfl⟩ := id h1
  exact ⟨c, evalMmValid_iff.mpr ⟨_, h1, h2⟩, hq⟩

lemma Moment.sizes {σ : Type} {P : Package σ} {d c : Driver σ} (hl : trace.Legal MAX_HEAP)
    (h : Moment P trace tn d pre c) :
    ∀ id ∈ allocated pre, 0 < c.blockSizes id ∧ c.blockSizes id < 2 ^ 31 := by
  have hM : MAX_HEAP = 20971520 := rfl
  refine h.induct (I := fun pre c => ∀ id ∈ allocated pre, 0 < c.blockSizes id ∧
    c.blockSizes id < 2 ^ 31) (fun _ _ _ hid => absurd hid List.not_mem_nil) ?_
  intro pre op b c hpre _ ih hs id hid
  rw [allocated_snoc] at hid
  have hop := hl.request hpre
  have hnew : op.type ≠ .free → 0 < toSize op.size ∧ toSize op.size < 2 ^ 31 := by
    intro ht
    have h1 := toSize_le (hop.size ht)
    omega
  rcases TraceOp.mem_after hid with ⟨rfl, ht⟩ | ⟨hm, hne⟩
  · cases hs with
    | alloc => simpa [Driver.store] using hnew ht
    | realloc => simpa [Driver.store] using hnew ht
    | free => exact absurd rfl ht
  · cases hs with
    | alloc => simpa [Driver.store, Function.update_of_ne hne] using ih id hm
    | realloc => simpa [Driver.store, Driver.drop, Function.update_of_ne hne] using ih id hm
    | free => exact ih id hm

/-- a reallocated id whose low byte is not a positive `char` is never accepted -/
lemma small_of_verdict {σ : Type} {P : Package σ} {d e : Driver σ} (hl : trace.Legal MAX_HEAP)
    (hv : evalMmValid P trace tn d = some (1, e)) :
    ∀ op ∈ trace.ops, op.type = .realloc → op.index % 256 < 128 := by
  intro op hop ht
  obtain ⟨pre, post, hsplit⟩ := List.append_of_mem hop
  have hpre : pre ++ [op] <+: trace.ops := ⟨post, by rw [hsplit, List.append_assoc]; rfl⟩
  obtain ⟨c, hc⟩ := exists_moment hv hpre
  obtain ⟨-, b, hb, hs⟩ := moment_snoc.mp hc
  have hlegal := hl.request hpre
  have hsz := toSize_le (hlegal.size (by rw [ht]; simp))
  cases hs with
  | alloc => exact absurd ht (by simp)
  | @realloc index p size t hm hp hadm hdata =>
    obtain ⟨h1, h2⟩ := hb.sizes hl index (hlegal.named (by simp))
    have hpos : 0 < (keptSize (b.blockSizes index) size).toNat := by
      have h3 := hadm.pos
      unfold keptSize
      rw [toInt_eq h2]
      split <;> omega
    have h4 := hdata 0 hpos
    have h5 := charInt_lt (P.load t (addW p 0))
    rw [h4, lowByte_eq] at h5
    show index % 256 < 128
    omega
  | free => exact absurd ht (by simp)

lemma neverOut_of_answers (hd : Ready A.lo d.heap) (hl : trace.Legal MAX_HEAP)
    (h : (Ledger.first A).Answers trace.ops) : NeverOut trace tn d := by
  intro pre op c hpre hc ht
  obtain ⟨post, hpost⟩ := id hpre
  rw [← hpost, ← List.append_cons] at h
  exact ((hc.mirrors hd hl).2.answered_iff (hl.request hpre) ht).mp (h.request ht)

/-- **`eval_mm_valid` accepts `mm.c` exactly when no reallocated id has a low byte above 127**, on
every legal trace for which the arena has room. -/
theorem accepts_iff (hb : GoodBase lo) (hd : Ready lo d.heap) (hl : trace.Legal MAX_HEAP)
    (hout : NeverOut trace tn d) :
    Accepts trace tn d ↔ ∀ op ∈ trace.ops, op.type = .realloc → op.index % 256 < 128 := by
  obtain ⟨A, rfl⟩ := hd.arena hb
  constructor
  · intro h
    obtain ⟨e, hv, -⟩ := h
    exact small_of_verdict hl hv
  · exact accepts_of_small hd hl hout

/-! An id allocated with 8 bytes and reallocated to 16. -/

namespace Sample

/-- zeroed memory after `mem_init` at address 8 -/
def opened : Heap := { start with memStartBrk := 8, memMaxAddr := 8 + MAX_HEAP, memBrk := 8 }

lemma opened_ready : Ready 8 opened := ⟨by decide, rfl, rfl, fun _ he => absurd he List.not_mem_nil⟩

def bench : Driver Heap := ⟨opened, [], fun _ => 0, fun _ => 0, 0, []⟩

def regrown (index : Nat) : Trace := ⟨256, [⟨.alloc, index, 8⟩, ⟨.realloc, index, 16⟩]⟩

end Sample

theorem accepts_iff_sample : Accepts (Sample.regrown 0) 0 Sample.bench := by
  have hl : (Sample.regrown 0).Legal MAX_HEAP := by decide
  have hout : NeverOut (Sample.regrown 0) 0 Sample.bench :=
    neverOut_of_answers (A := Sample.arena) Sample.opened_ready hl (by decide +kernel)
  have hb : GoodBase 8 := ⟨by decide, by decide⟩
  exact (accepts_iff hb Sample.opened_ready hl hout).mpr (by decide)

/-- with the id 128 the verdict is `0` -/
theorem high_id_rejected : (Sample.regrown 128).Legal MAX_HEAP ∧
    NeverOut (Sample.regrown 128) 0 Sample.bench ∧ ¬ Accepts (Sample.regrown 128) 0 Sample.bench := by
  have hl : (Sample.regrown 128).Legal MAX_HEAP := by decide
  refine ⟨hl, neverOut_of_answers (A := Sample.arena) Sample.opened_ready hl (by decide +kernel), ?_⟩
  rintro ⟨e, hv, -⟩
  exact absurd (small_of_verdict hl hv) (by decide)

end
end SegList

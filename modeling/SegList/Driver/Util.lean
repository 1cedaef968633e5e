import SegList.Driver.Replay
import SegList.Lib.Peak
import SegList.Pool.Space
import Mathlib.Algebra.Ring.Int.Defs

/-!
# eval_mm_util

`eval_mm_util` divides the most bytes that the trace has allocated at once by the size of the heap at
the end.  What a trace has allocated (`held`) is a matter of the trace alone.

* `evalMmUtil_hwm`         the first number, whatever the package does;
* `Ledger.Holds.serve`     on `mm.c` every allocated block has a live pointer, and so its place in the
                           heap;
* `utilization_measured`   so the quotient is less than 1, and its second number is the largest size
                           of the heap.
-/

set_option linter.unusedSectionVars false

open Bytes Prog

namespace SegList
open Pool

/-! ## what a trace has allocated -/

/-- the allocated blocks after a request, the youngest first: each with its id and its size -/
def TraceOp.hold (held : List (Nat × Int)) (op : TraceOp) : List (Nat × Int) :=
  match op.type with
  | .alloc => (op.index, op.size) :: held
  | .realloc => (op.index, op.size) :: held.eraseP (fun e => e.1 = op.index)
  | .free => held.eraseP (fun e => e.1 = op.index)

def held (ops : List TraceOp) : List (Nat × Int) := ops.foldl TraceOp.hold []

def bytes (held : List (Nat × Int)) : Int := (held.map Prod.snd).sum

section
variable {held : List (Nat × Int)} {id id' : Nat} {n : Int}

lemma bytes_cons : bytes ((id, n) :: held) = n + bytes held := List.sum_cons

/-- the youngest block of an id given back -/
lemma bytes_eraseP (h : held.lookup id = some n) :
    bytes held = n + bytes (held.eraseP (fun e => e.1 = id)) ∧
      held.length = (held.eraseP (fun e => e.1 = id)).length + 1 := by
  induction held with
  | nil => exact absurd h (by simp)
  | cons e held ih =>
    obtain ⟨i, m⟩ := e
    by_cases hi : i = id
    · subst hi
      rw [List.lookup_cons_self] at h
      obtain rfl := Option.some.inj h
      rw [List.eraseP_cons_of_pos (by simp)]
      exact ⟨bytes_cons, rfl⟩
    · rw [List.lookup_cons, beq_eq_false_iff_ne.mpr (Ne.symm hi)] at h
      obtain ⟨h1, h2⟩ := ih h
      rw [List.eraseP_cons_of_neg (by simpa using hi), bytes_cons, bytes_cons, List.length_cons,
        List.length_cons, h1, h2]
      exact ⟨by omega, rfl⟩

lemma lookup_eraseP (h : id' ≠ id) :
    (held.eraseP (fun e => e.1 = id)).lookup id' = held.lookup id' := by
  induction held with
  | nil => rfl
  | cons e held ih =>
    obtain ⟨i, m⟩ := e
    by_cases hi : i = id
    · subst hi
      rw [List.eraseP_cons_of_pos (by simp), List.lookup_cons, beq_eq_false_iff_ne.mpr h]
    · rw [List.eraseP_cons_of_neg (by simpa using hi), List.lookup_cons, List.lookup_cons, ih]

lemma lookup_cons_ne (h : id' ≠ id) : ((id, n) :: held).lookup id' = held.lookup id' := by
  rw [List.lookup_cons, beq_eq_false_iff_ne.mpr h]

lemma lookup_nonneg (h0 : ∀ e ∈ held, 0 ≤ e.2) (h : held.lookup id = some n) : 0 ≤ n := by
  obtain ⟨pre, post, rfl, -⟩ := List.lookup_eq_some_iff.mp h
  exact h0 (id, n) (List.mem_append_right _ List.mem_cons_self)

variable {op : TraceOp}

lemma TraceOp.lookup_hold (h : id ≠ op.index) : (op.hold held).lookup id = held.lookup id := by
  obtain ⟨type, index, size⟩ := op
  cases type with
  | alloc => exact lookup_cons_ne h
  | realloc => exact (lookup_cons_ne h).trans (lookup_eraseP h)
  | free => exact lookup_eraseP h

lemma TraceOp.lookup_hold_self (h : op.type ≠ .free) :
    (op.hold held).lookup op.index = some op.size := by
  obtain ⟨type, index, size⟩ := op
  cases type with
  | alloc => exact List.lookup_cons_self
  | realloc => exact List.lookup_cons_self
  | free => exact absurd rfl h

lemma TraceOp.hold_nonneg (h0 : ∀ e ∈ held, 0 ≤ e.2) (hs : op.type ≠ .free → 0 < op.size) :
    ∀ e ∈ op.hold held, 0 ≤ e.2 := by
  obtain ⟨type, index, size⟩ := op
  have herase : ∀ e ∈ held.eraseP (fun e => e.1 = index), 0 ≤ e.2 := fun e he =>
    h0 e (List.mem_of_mem_eraseP he)
  cases type with
  | alloc => exact List.forall_mem_cons.mpr ⟨(hs (by simp)).le, h0⟩
  | realloc => exact List.forall_mem_cons.mpr ⟨(hs (by simp)).le, herase⟩
  | free => exact herase

end

/-! ## the loop of eval_mm_util -/

section
variable {σ : Type} {P : Package σ} {d e : Driver σ} {op : TraceOp} {ops : List TraceOp}
  {ids : List Nat} {numIds : Nat} {m : Int} {L : List (Nat × Int)} {total total' : Int × Int}

/-- `total_size` and `block_sizes` are those of the allocated blocks -/
structure Tallies (ids : List Nat) (d : Driver σ) (L : List (Nat × Int)) (total : Int × Int) :
    Prop where
  sum : total.1 = bytes L
  peak : total.1 ≤ total.2
  sizes : ∀ id ∈ ids, L.lookup id = some (toInt (d.blockSizes id))
  nonneg : ∀ e ∈ L, 0 ≤ e.2

lemma call_blockSizes {α : Type} {f : Prog σ α} {r : α} (h : call f d = some (r, e)) :
    e.blockSizes = d.blockSizes := by
  obtain ⟨t, -, rfl⟩ := call_eq_some.mp h
  rfl

lemma toInt_toSize_eq {size : Int} (h0 : 0 < size) (h1 : size ≤ INT_MAX) :
    toInt (toSize size) = size := by
  obtain ⟨-, h2, h3⟩ := toSize_eq h0 h1
  unfold toInt
  rw [if_pos h2, h3]

lemma utilOp_cases (h : utilOp P total op d = some (total', e)) :
    op.type ≠ .free ∧ e.blockSizes = Function.update d.blockSizes op.index (toSize op.size) ∧
        total' = addSize total (if op.type = .alloc then op.size
          else op.size - toInt (d.blockSizes op.index)) ∨
      op.type = .free ∧ e.blockSizes = d.blockSizes ∧
        total' = (total.1 - toInt (d.blockSizes op.index), total.2) := by
  obtain ⟨type, index, size⟩ := op
  cases type with
  | alloc =>
    obtain ⟨p, d1, h1, h⟩ := bind_eq_some.mp h
    have hb := call_blockSizes h1
    split at h
    · exact absurd h (by simp [quit])
    obtain ⟨_, d2, h2, h⟩ := bind_eq_some.mp h
    obtain ⟨-, rfl⟩ := Prod.mk.inj (Option.some.inj h2)
    obtain ⟨_, d3, h3, h⟩ := bind_eq_some.mp h
    obtain ⟨-, rfl⟩ := Prod.mk.inj (Option.some.inj h3)
    obtain ⟨rfl, rfl⟩ := Prod.mk.inj (Option.some.inj h)
    exact Or.inl ⟨by simp, congrArg (Function.update · index _) hb, rfl⟩
  | realloc =>
    obtain ⟨old, d0, h0, h⟩ := bind_eq_some.mp h
    obtain ⟨rfl, rfl⟩ := Prod.mk.inj (Option.some.inj h0)
    obtain ⟨oldp, d0, h0, h⟩ := bind_eq_some.mp h
    obtain ⟨rfl, rfl⟩ := Prod.mk.inj (Option.some.inj h0)
    obtain ⟨p, d1, h1, h⟩ := bind_eq_some.mp h
    have hb := call_blockSizes h1
    split at h
    · exact absurd h (by simp [quit])
    obtain ⟨_, d2, h2, h⟩ := bind_eq_some.mp h
    obtain ⟨-, rfl⟩ := Prod.mk.inj (Option.some.inj h2)
    obtain ⟨_, d3, h3, h⟩ := bind_eq_some.mp h
    obtain ⟨-, rfl⟩ := Prod.mk.inj (Option.some.inj h3)
    obtain ⟨rfl, rfl⟩ := Prod.mk.inj (Option.some.inj h)
    exact Or.inl ⟨by simp, congrArg (Function.update · index _) hb, rfl⟩
  | free =>
    obtain ⟨old, d0, h0, h⟩ := bind_eq_some.mp h
    obtain ⟨rfl, rfl⟩ := Prod.mk.inj (Option.some.inj h0)
    obtain ⟨p, d0, h0, h⟩ := bind_eq_some.mp h
    obtain ⟨rfl, rfl⟩ := Prod.mk.inj (Option.some.inj h0)
    obtain ⟨_, d1, h1, h⟩ := bind_eq_some.mp h
    obtain ⟨rfl, rfl⟩ := Prod.mk.inj (Option.some.inj h)
    exact Or.inr ⟨rfl, call_blockSizes h1, rfl⟩

lemma addSize_eq (total : Int × Int) (size : Int) :
    addSize total size = (total.1 + size, max total.2 (total.1 + size)) := by
  unfold addSize
  congr 1
  split <;> omega

lemma Tallies.bytes_hold (h : Tallies ids d L total) (hl : op.Legal numIds m ids) :
    bytes (op.hold L) = total.1 + (if op.type = .alloc then op.size else
      (if op.type = .free then 0 else op.size) - toInt (d.blockSizes op.index)) := by
  obtain ⟨type, index, size⟩ := op
  rw [h.sum]
  cases type with
  | alloc => exact bytes_cons.trans (Int.add_comm _ _)
  | realloc =>
    have hold : L.lookup index = _ := h.sizes index (hl.named (by simp))
    obtain ⟨h1, -⟩ := bytes_eraseP hold
    show bytes ((index, size) :: L.eraseP (fun e => e.1 = index)) =
      bytes L + (size - toInt (d.blockSizes index))
    rw [bytes_cons, h1]
    omega
  | free =>
    have hold : L.lookup index = _ := h.sizes index (hl.named (by simp))
    obtain ⟨h1, -⟩ := bytes_eraseP hold
    show bytes (L.eraseP (fun e => e.1 = index)) = bytes L + (0 - toInt (d.blockSizes index))
    rw [h1]
    omega

/-- **One round**: the sizes are those of the allocated blocks again, and the largest total is kept. -/
lemma Tallies.utilOp (h : Tallies ids d L total) (hm : m ≤ INT_MAX) (hl : op.Legal numIds m ids)
    (hrun : utilOp P total op d = some (total', e)) : Tallies (op.after ids) e (op.hold L) total' ∧
      total'.2 = max total.2 (bytes (op.hold L)) := by
  have hbytes := h.bytes_hold hl
  have hnonneg := TraceOp.hold_nonneg h.nonneg fun ht => (hl.size ht).1
  rcases utilOp_cases hrun with ⟨ht, hb, rfl⟩ | ⟨ht, hb, rfl⟩
  · obtain ⟨hs0, hs1⟩ := hl.size ht
    have hsum : total.1 + (if op.type = .alloc then op.size
        else op.size - toInt (d.blockSizes op.index)) = bytes (op.hold L) := by
      rw [hbytes, if_neg ht]
    rw [addSize_eq, hsum]
    refine ⟨⟨rfl, le_max_right _ _, fun id hid => ?_, hnonneg⟩, rfl⟩
    rw [hb]
    by_cases hi : id = op.index
    · subst hi
      rw [Function.update_self, toInt_toSize_eq hs0 (by omega)]
      exact TraceOp.lookup_hold_self ht
    · rw [Function.update_of_ne hi, TraceOp.lookup_hold hi]
      exact h.sizes id ((TraceOp.mem_after hid).resolve_left fun hc => hi hc.1).1
  · have hge := lookup_nonneg h.nonneg (h.sizes op.index (hl.named (by simp [ht])))
    have hsum : total.1 - toInt (d.blockSizes op.index) = bytes (op.hold L) := by
      rw [hbytes, if_neg (by simp [ht]), if_pos ht]
      omega
    have hle : bytes (op.hold L) ≤ total.2 := by
      rw [← hsum]
      exact (Int.sub_le_self _ hge).trans h.peak
    rw [hsum]
    refine ⟨⟨rfl, hle, fun id hid => ?_, hnonneg⟩, (max_eq_left hle).symm⟩
    obtain ⟨hm', hi⟩ := (TraceOp.mem_after hid).resolve_left fun hc => hc.2 ht
    rw [hb, TraceOp.lookup_hold hi]
    exact h.sizes id hm'

/-- **The loop** finds the most bytes that were allocated at once. -/
lemma Tallies.utilOps (h : Tallies ids d L total) (hm : m ≤ INT_MAX)
    (hl : LegalFrom numIds m ids ops) (hrun : utilOps P total ops d = some (total', e)) :
    IsGreatest (insert total.2 (Peak.along TraceOp.hold bytes L ops)) total'.2 := by
  have hpeak : bytes L ≤ total.2 := h.sum ▸ h.peak
  induction ops generalizing ids d L total with
  | nil =>
    obtain ⟨rfl, -⟩ := Prod.mk.inj (Option.some.inj hrun)
    exact Peak.isGreatest_nil hpeak
  | cons op ops ih =>
    obtain ⟨t, d1, h1, h2⟩ := bind_eq_some.mp hrun
    obtain ⟨h3, h4⟩ := h.utilOp hm hl.1 h1
    refine Peak.isGreatest_cons hpeak ?_
    rw [← h4]
    exact ih h3 hl.2 h2 (h3.sum ▸ h3.peak)

lemma evalMmUtil_hwm {hwm : Int} {size : Nat} (hm : m ≤ INT_MAX) (hl : LegalFrom numIds m [] ops)
    (hrun : evalMmUtil P ⟨numIds, ops⟩ d = some ((hwm, size), e)) :
    IsGreatest (Peak.along TraceOp.hold bytes [] ops) hwm ∧ size = P.memHeapsize e.heap := by
  obtain ⟨_, d1, -, h⟩ := bind_eq_some.mp hrun
  obtain ⟨r, d2, -, h⟩ := bind_eq_some.mp h
  split at h
  · exact absurd h (by simp [quit])
  obtain ⟨total, d3, h3, h⟩ := bind_eq_some.mp h
  obtain ⟨he, rfl⟩ := Prod.mk.inj (Option.some.inj h)
  obtain ⟨rfl, rfl⟩ := Prod.mk.inj he
  have h0 : Tallies [] d2 [] (0, 0) := ⟨rfl, le_refl _, fun _ hid => absurd hid List.not_mem_nil,
    fun _ he => absurd he List.not_mem_nil⟩
  have h1 := h0.utilOps hm hl h3
  have hzero : (0 : Int) ∈ Peak.along TraceOp.hold bytes [] ops := Peak.mem_along List.nil_prefix
  rw [Set.insert_eq_of_mem hzero] at h1
  exact ⟨h1, rfl⟩

end

/-! ## on mm.c -/

section
variable {A : Arena} {g : Ledger A.base A.limit} {ids : List Nat} {op : TraceOp}
  {ops pre : List TraceOp} {numIds : Nat} {L : List (Nat × Int)} {p n : Nat} {live : Live}

lemma lose_sum (h : (live.map Prod.fst).Nodup) (hm : (p, n) ∈ live) :
    (live.map Prod.snd).sum = n + ((lose live p).map Prod.snd).sum ∧
      live.length = (lose live p).length + 1 := by
  have hperm := lose_perm h hm
  exact ⟨(hperm.map Prod.snd).sum_nat, hperm.length_eq⟩

/-- the live pointers of the ledger are the allocated blocks of the trace -/
structure Ledger.Holds (ids : List Nat) (g : Ledger A.base A.limit) (L : List (Nat × Int)) :
    Prop where
  sum : (((g.live.map Prod.snd).sum : Nat) : Int) = bytes L
  count : g.live.length = L.length
  sizes : ∀ id ∈ ids, ∃ n : Nat, (g.blocks id, n) ∈ g.live ∧ L.lookup id = some (n : Int)

/-- **A request** changes both alike. -/
theorem Ledger.Holds.serve (h : g.Holds ids L) (hs : g.Sound ids)
    (hl : op.Legal numIds MAX_HEAP ids) (hr : op.type ≠ .free → g.answer op ≠ 0) :
    (g.serve op).Holds (op.after ids) (op.hold L) := by
  have hlive := hs.live_serve hr
  have hnz : ∀ e ∈ g.live, e.1 ≠ 0 := fun e he => hs.owns.ne_zero he
  have hsizes : ∀ id ∈ op.after ids, ∃ n : Nat, ((g.serve op).blocks id, n) ∈ (g.serve op).live ∧
      (op.hold L).lookup id = some (n : Int) := by
    intro id hid
    rcases TraceOp.mem_after hid with ⟨rfl, ht⟩ | ⟨hm, hi⟩
    · obtain ⟨e, -⟩ := hlive.resolve_left fun hc => ht hc.2
      refine ⟨toSize op.size, ?_, ?_⟩
      · rw [e, show (g.serve op).blocks op.index = _ from TraceOp.note_self ht]
        exact List.mem_cons_self
      · rw [(toSize_le (hl.size ht)).2.2]
        exact TraceOp.lookup_hold_self ht
    · obtain ⟨n, h1, h2⟩ := h.sizes id hm
      refine ⟨n, ?_, (TraceOp.lookup_hold hi).trans h2⟩
      have h3 := hs.still_live hl hm hi h1
      rw [show (g.serve op).blocks id = _ from TraceOp.note_of_ne hi]
      rcases hlive with ⟨e, -⟩ | ⟨e, -⟩
      · rwa [e]
      · rw [e]
        exact List.mem_cons_of_mem _ h3
  have hsum := h.sum
  have hcount := h.count
  obtain ⟨type, index, size⟩ := op
  cases type with
  | alloc =>
    obtain ⟨e, -⟩ := hlive.resolve_left fun hc => absurd hc.2 (by simp)
    have hall : lose g.live 0 = g.live := lose_eq_self hnz
    have e : (g.serve ⟨.alloc, index, size⟩).live = (_, toSize size) :: g.live := hall ▸ e
    have hsz : (toSize size : Int) = size := (toSize_le (hl.size (by simp))).2.2
    refine ⟨?_, ?_, hsizes⟩
    · rw [e]
      show (((toSize size) + (g.live.map Prod.snd).sum : Nat) : Int) = bytes ((index, size) :: L)
      rw [bytes_cons]
      omega
    · rw [e]
      exact congrArg (· + 1) hcount
  | realloc =>
    obtain ⟨e, -⟩ := hlive.resolve_left fun hc => absurd hc.2 (by simp)
    obtain ⟨n, hn, hL⟩ := h.sizes index (hl.named (by simp))
    obtain ⟨h1, h2⟩ := lose_sum hs.owns.nodup hn
    obtain ⟨h3, h4⟩ := bytes_eraseP hL
    have hsz : (toSize size : Int) = size := (toSize_le (hl.size (by simp))).2.2
    refine ⟨?_, ?_, hsizes⟩
    · rw [e]
      show (((toSize size) + ((lose g.live (g.blocks index)).map Prod.snd).sum : Nat) : Int) =
        bytes ((index, size) :: L.eraseP (fun e => e.1 = index))
      rw [bytes_cons]
      omega
    · rw [e]
      show (lose g.live (g.blocks index)).length + 1 = (L.eraseP (fun e => e.1 = index)).length + 1
      omega
  | free =>
    obtain ⟨e, -⟩ := hlive.resolve_right fun hc => absurd rfl hc.2
    obtain ⟨n, hn, hL⟩ := h.sizes index (hl.named (by simp))
    obtain ⟨h1, h2⟩ := lose_sum hs.owns.nodup hn
    obtain ⟨h3, h4⟩ := bytes_eraseP hL
    refine ⟨?_, ?_, hsizes⟩
    · rw [e]
      show ((((lose g.live (g.blocks index)).map Prod.snd).sum : Nat) : Int) =
        bytes (L.eraseP (fun e => e.1 = index))
      omega
    · rw [e]
      show (lose g.live (g.blocks index)).length = (L.eraseP (fun e => e.1 = index)).length
      omega

lemma Ledger.first_sound (A : Arena) : (Ledger.first A).Sound [] :=
  ⟨Owns.initial A.base, fun _ hid => absurd hid List.not_mem_nil,
    fun _ hid => absurd hid List.not_mem_nil⟩

lemma Ledger.Holds.run (h : g.Holds ids L) (hs : g.Sound ids) (hl : LegalFrom numIds MAX_HEAP ids ops)
    (ha : g.Answers ops) : (ops.foldl Ledger.serve g).Sound (ops.foldl TraceOp.after ids) ∧
      (ops.foldl Ledger.serve g).Holds (ops.foldl TraceOp.after ids) (ops.foldl TraceOp.hold L) := by
  induction ops generalizing g ids L with
  | nil => exact ⟨hs, h⟩
  | cons op ops ih => exact ih (h.serve hs hl.1 ha.1) (hs.serve hl.1 ha.1) hl.2 ha.2

/-- **The allocated blocks fit into the heap**, behind the 144 bytes in front of the first block, each
with 32 bytes more than its size. -/
lemma held_space (hl : LegalFrom numIds MAX_HEAP [] ops) (ha : (Ledger.first A).Answers ops) :
    A.base + bytes (held ops) + 32 * (held ops).length ≤ (Ledger.after A ops).pool.brk := by
  have h0 : (Ledger.first A).Holds [] [] := ⟨rfl, rfl, fun _ hid => absurd hid List.not_mem_nil⟩
  obtain ⟨h1, h2⟩ := h0.run (Ledger.first_sound A) hl ha
  have h3 := h1.owns.space (ops.foldl Ledger.serve (Ledger.first A)).pool.wf
  have h4 := h2.sum
  have h5 := h2.count
  show (A.base : Int) + bytes (ops.foldl TraceOp.hold []) + 32 * (ops.foldl TraceOp.hold []).length ≤
    (ops.foldl Ledger.serve (Ledger.first A)).pool.brk
  omega

lemma Mirrors.heapsize {s : Heap} {blocks : Nat → Nat} (h : Mirrors A ids s blocks g) :
    mmPackage.memHeapsize s = g.pool.brk - A.lo := by
  have h1 := g.pool.brk_le
  have h2 := h.grown
  have h3 := A.above
  have hlim : A.limit = A.lo + 20971520 := rfl
  have hbase : A.base = A.lo + 144 := rfl
  show subW s.memBrk s.memStartBrk = _
  rw [h.rep.laid.brk, h.rep.laid.start]
  unfold subW
  omega

end

section
variable {A : Arena} {trace : Trace} {tn lo : Nat} {d e : Driver Heap} {ops pre : List TraceOp}
  {numIds : Nat}

/-- the heap sizes that the runs over the first requests end with -/
def heapSizes (trace : Trace) (d : Driver Heap) : Set Nat :=
  {x | ∃ pre y e, pre <+: trace.ops ∧
    evalMmUtil mmPackage { trace with ops := pre } d = some ((y, x), e)}

/-- `eval_mm_util` where the ledger has answers: the second number is the size of its pool -/
lemma evalMmUtil_returns (hd : Ready A.lo d.heap) (hl : LegalFrom numIds MAX_HEAP [] ops)
    (ha : (Ledger.first A).Answers ops) : ∃ hwm e,
      evalMmUtil mmPackage ⟨numIds, ops⟩ d =
        some ((hwm, (Ledger.after A ops).pool.brk - A.lo), e) ∧
      IsGreatest (Peak.along TraceOp.hold bytes [] ops) hwm := by
  obtain ⟨⟨hwm, size⟩, e, hrun, hM⟩ := evalMmUtil_mirrors hd hl ha
  obtain ⟨h1, h2⟩ := evalMmUtil_hwm (by decide) hl hrun
  rw [h2, hM.heapsize] at hrun
  exact ⟨hwm, e, hrun, h1⟩

lemma Ledger.Answers.of_prefix {g : Ledger A.base A.limit} (h : g.Answers ops) (hpre : pre <+: ops) :
    g.Answers pre := by
  induction pre generalizing g ops with
  | nil => trivial
  | cons op pre ih =>
    obtain ⟨post, rfl⟩ := hpre
    exact ⟨h.1, ih h.2 (List.prefix_append _ _)⟩

/-- **The utilization is what it is said to be**: on a trace that `eval_mm_valid` found correct,
`eval_mm_util` returns the most bytes that the trace has allocated at once and the largest size of
the heap; at every moment the allocated blocks, each with 32 bytes, and the 144 bytes of the table
and the prologue are in this heap. -/
theorem utilization_measured (hb : GoodBase lo) (hd : Ready lo d.heap) (hl : trace.Legal MAX_HEAP)
    (hv : evalMmValid mmPackage trace tn d = some (1, e)) : ∃ hwm size e',
      evalMmUtil mmPackage trace e = some ((hwm, size), e') ∧
      IsGreatest (Peak.along TraceOp.hold bytes [] trace.ops) hwm ∧
      IsGreatest (heapSizes trace e) size ∧ size ≤ MAX_HEAP ∧
      ∀ pre, pre <+: trace.ops → bytes (held pre) + 32 * (held pre).length + 144 ≤ size := by
  obtain ⟨A, rfl⟩ := hd.arena hb
  have hm : Moment mmPackage trace tn d trace.ops e := ⟨List.prefix_refl _, hv⟩
  obtain ⟨ha, hM⟩ := hm.mirrors hd hl
  have hpre : ∀ pre, pre <+: trace.ops →
      LegalFrom trace.numIds MAX_HEAP [] pre ∧ (Ledger.first A).Answers pre := by
    intro pre hpre
    refine ⟨?_, ha.of_prefix hpre⟩
    obtain ⟨post, hpost⟩ := hpre
    have h1 : LegalFrom trace.numIds MAX_HEAP [] (pre ++ post) := by
      rw [hpost]
      exact hl
    exact h1.of_append
  -- the pool never gets smaller
  have hbrk : IsGreatest (Peak.along Ledger.serve (fun g => g.pool.brk) (Ledger.first A) trace.ops)
      (Ledger.after A trace.ops).pool.brk :=
    Peak.isGreatest_last fun g op => g.pool.le_call_brk _
  obtain ⟨hwm, e', hrun, hgreat⟩ := evalMmUtil_returns hM.ready hl ha
  refine ⟨hwm, _, e', hrun, hgreat, ⟨⟨trace.ops, hwm, e', List.prefix_refl _, hrun⟩, ?_⟩, ?_, ?_⟩
  · rintro x ⟨pre, y, e1, hp, h1⟩
    obtain ⟨h2, h3⟩ := hpre pre hp
    obtain ⟨hwm', e2, h4, -⟩ := evalMmUtil_returns hM.ready h2 h3
    have h4 : evalMmUtil mmPackage { trace with ops := pre } e = _ := h4
    rw [h4] at h1
    obtain ⟨h5, -⟩ := Prod.mk.inj (Option.some.inj h1)
    obtain ⟨-, rfl⟩ := Prod.mk.inj h5
    exact Nat.sub_le_sub_right (hbrk.2 (Peak.mem_along hp)) _
  · have h1 := (Ledger.after A trace.ops).pool.brk_le
    have hlim : A.limit = A.lo + MAX_HEAP := rfl
    omega
  · intro pre hp
    obtain ⟨h2, h3⟩ := hpre pre hp
    have h4 := held_space h2 h3
    have h5 : (Ledger.after A pre).pool.brk ≤ (Ledger.after A trace.ops).pool.brk :=
      hbrk.2 (Peak.mem_along hp)
    have hbase : A.base = A.lo + 144 := rfl
    omega

theorem utilization_measured_sample : ∃ e,
    evalMmValid mmPackage (Sample.regrown 0) 0 Sample.bench = some (1, e) ∧ ∃ hwm size e',
      evalMmUtil mmPackage (Sample.regrown 0) e = some ((hwm, size), e') ∧
      IsGreatest (Peak.along TraceOp.hold bytes [] (Sample.regrown 0).ops) hwm ∧
      IsGreatest (heapSizes (Sample.regrown 0) e) size ∧ size ≤ MAX_HEAP ∧
      ∀ pre, pre <+: (Sample.regrown 0).ops →
        bytes (held pre) + 32 * (held pre).length + 144 ≤ size := by
  have hb : GoodBase 8 := ⟨by decide, by decide⟩
  have hl : (Sample.regrown 0).Legal MAX_HEAP := by decide
  have hout : NeverOut (Sample.regrown 0) 0 Sample.bench :=
    neverOut_of_answers (A := Sample.arena) Sample.opened_ready hl (by decide +kernel)
  have hacc : Accepts (Sample.regrown 0) 0 Sample.bench :=
    accepts_of_small (A := Sample.arena) Sample.opened_ready hl hout (by decide)
  obtain ⟨e, hv, -⟩ := hacc
  exact ⟨e, hv, utilization_measured hb Sample.opened_ready hl hv⟩

end
end SegList

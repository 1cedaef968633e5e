import SegList.Driver.Rounds
import SegList.Refine.Run

/-!
# A trace run on the pool

A request is one call of the package, about the pointer that the driver remembers for its id.
`Ledger.serve` makes this call on the pool; `Mirrors` says that a heap of `mm.c` and the driver's
array of pointers are where the ledger is.

* `Ledger.Sound.serve`   every allocated id has a live pointer of its own;
* `Mirrors.serve`        what the package answers is what the ledger answers, and mirrors it again;
* `Mirrors.runs`         the package answers.
-/

set_option linter.unusedSectionVars false

open Bytes Prog

namespace SegList
open Pool

/-! ## the calls of the driver -/

namespace TraceOp

def call (op : TraceOp) (blocks : Nat → Nat) : Call :=
  match op.type with
  | .alloc => .malloc (toSize op.size)
  | .realloc => .realloc (blocks op.index) (toSize op.size)
  | .free => .free (blocks op.index)

/-- the pointers remembered when the call returned `r` -/
def note (op : TraceOp) (blocks : Nat → Nat) (r : Nat) : Nat → Nat :=
  match op.type with
  | .free => blocks
  | _ => Function.update blocks op.index r

end TraceOp

/-- a pool, the pointer of each id, and the live pointers -/
structure Ledger (base limit : Nat) where
  pool : SoundPool base limit
  blocks : Nat → Nat
  live : Live

namespace Ledger
variable {base limit : Nat}

/-- what the pool answers to a request -/
def answer (g : Ledger base limit) (op : TraceOp) : Nat := (g.pool.call (op.call g.blocks)).1

/-- the ledger after a request -/
def serve (g : Ledger base limit) (op : TraceOp) : Ledger base limit :=
  ⟨(g.pool.call (op.call g.blocks)).2, op.note g.blocks (g.answer op),
    (op.call g.blocks).live g.live (g.answer op)⟩

/-- every `ALLOC` and `REALLOC` is answered by a pointer -/
def Answers : Ledger base limit → List TraceOp → Prop
  | _, [] => True
  | g, op :: ops => (op.type ≠ .free → g.answer op ≠ 0) ∧ Answers (g.serve op) ops

instance Answers.decidable : (g : Ledger base limit) → (ops : List TraceOp) →
    Decidable (g.Answers ops)
  | _, [] => isTrue trivial
  | g, op :: ops =>
    have := Answers.decidable (g.serve op) ops
    inferInstanceAs (Decidable (_ ∧ _))

lemma Answers.request {g : Ledger base limit} {pre post : List TraceOp} {op : TraceOp}
    (h : g.Answers (pre ++ op :: post)) (ht : op.type ≠ .free) :
    (pre.foldl Ledger.serve g).answer op ≠ 0 := by
  induction pre generalizing g with
  | nil => exact h.1 ht
  | cons first pre ih => exact ih h.2

/-- every allocated id has a live pointer, and no two have the same -/
structure Sound (ids : List Nat) (g : Ledger base limit) : Prop where
  owns : Owns g.pool.toPool g.live
  listed : ∀ id ∈ ids, ∃ m, (g.blocks id, m) ∈ g.live
  distinct : ∀ id ∈ ids, ∀ id' ∈ ids, id ≠ id' → g.blocks id ≠ g.blocks id'

end Ledger

/-- the ledger in front of the first request -/
def Ledger.first (A : Arena) : Ledger A.base A.limit := ⟨firstPool A.lo, fun _ => 0, []⟩

/-- the ledger after the requests -/
def Ledger.after (A : Arena) (ops : List TraceOp) : Ledger A.base A.limit :=
  ops.foldl Ledger.serve (Ledger.first A)

lemma Ledger.after_snoc (A : Arena) (ops : List TraceOp) (op : TraceOp) :
    Ledger.after A (ops ++ [op]) = (Ledger.after A ops).serve op := by
  unfold Ledger.after
  rw [List.foldl_append]
  rfl

section
variable {base limit : Nat} {g : Ledger base limit} {ids : List Nat} {op : TraceOp} {numIds : Nat}
  {blocks : Nat → Nat}

lemma toSize_le (h : 0 < op.size ∧ op.size ≤ MAX_HEAP) :
    0 < toSize op.size ∧ toSize op.size ≤ MAX_HEAP ∧ (toSize op.size : Int) = op.size := by
  have hM : MAX_HEAP = 20971520 := rfl
  unfold toSize
  omega

lemma TraceOp.Legal.names (h : op.Legal numIds MAX_HEAP ids) (hs : g.Sound ids) :
    (op.call g.blocks).Names g.live ∧ (op.call g.blocks).SizeLe MAX_HEAP := by
  obtain ⟨type, index, size⟩ := op
  cases type with
  | alloc => exact ⟨trivial, (toSize_le (h.size (by simp))).2.1⟩
  | realloc =>
    exact ⟨Or.inr (hs.listed index (h.named (by simp))), (toSize_le (h.size (by simp))).2.1⟩
  | free => exact ⟨hs.listed index (h.named (by simp)), trivial⟩

lemma TraceOp.found {r : Nat} (hr : op.type ≠ .free → r ≠ 0) : (op.call blocks).Found r := by
  obtain ⟨type, index, size⟩ := op
  cases type with
  | alloc => trivial
  | realloc => exact fun _ => hr (by simp)
  | free => trivial

/-- a `REALLOC` is answered by what `malloc` finds -/
lemma Ledger.answer_eq (ht : op.type ≠ .free) (h0 : 0 < toSize op.size) :
    g.answer op = (g.pool.malloc (toSize op.size)).1 := by
  obtain ⟨type, index, size⟩ := op
  cases type with
  | alloc => rfl
  | realloc =>
    have hn : toSize size ≠ 0 := Nat.ne_of_gt h0
    exact g.pool.realloc_ret (g.blocks index) hn
  | free => exact absurd rfl ht

lemma TraceOp.note_of_ne {id r : Nat} (hne : id ≠ op.index) : op.note blocks r id = blocks id := by
  obtain ⟨type, index, size⟩ := op
  cases type with
  | alloc => exact Function.update_of_ne hne ..
  | realloc => exact Function.update_of_ne hne ..
  | free => rfl

lemma TraceOp.note_self {r : Nat} (h : op.type ≠ .free) : op.note blocks r op.index = r := by
  obtain ⟨type, index, size⟩ := op
  cases type with
  | alloc => exact Function.update_self ..
  | realloc => exact Function.update_self ..
  | free => exact absurd rfl h

lemma TraceOp.mem_after {id : Nat} (h : id ∈ op.after ids) :
    id = op.index ∧ op.type ≠ .free ∨ id ∈ ids ∧ id ≠ op.index := by
  obtain ⟨type, index, size⟩ := op
  by_cases hid : id = index
  · cases type with
    | alloc => exact Or.inl ⟨hid, by simp⟩
    | realloc => exact Or.inl ⟨hid, by simp⟩
    | free => exact absurd hid (mem_after_free.mp h).2
  · cases type with
    | alloc => exact Or.inr ⟨(mem_after_alloc.mp h).resolve_left hid, hid⟩
    | realloc => exact Or.inr ⟨mem_after_realloc.mp h, hid⟩
    | free => exact Or.inr ⟨(mem_after_free.mp h).1, hid⟩

lemma TraceOp.live_of_answered {L : Live} {r : Nat} (hL : ∀ e ∈ L, e.1 ≠ 0) (h : op.type ≠ .free)
    (hr : r ≠ 0) : (op.call blocks).live L r
      = (r, toSize op.size) :: lose L (op.call blocks).subject := by
  have hgain : ∀ L' : Live, gain L' r (toSize op.size) = (r, toSize op.size) :: L' := fun L' =>
    if_neg hr
  obtain ⟨type, index, size⟩ := op
  cases type with
  | alloc =>
    show gain L r _ = _ :: lose L 0
    rw [lose_eq_self hL]
    exact hgain L
  | realloc => exact hgain _
  | free => exact absurd rfl h

lemma TraceOp.live_of_free {L : Live} {r : Nat} (h : op.type = .free) :
    (op.call blocks).live L r = lose L (op.call blocks).subject := by
  obtain ⟨type, index, size⟩ := op
  obtain rfl : type = .free := h
  rfl

namespace Ledger

lemma Sound.subject_ne (h : g.Sound ids) (hl : op.Legal numIds MAX_HEAP ids) {id : Nat}
    (hid : id ∈ ids) (hne : id ≠ op.index) : g.blocks id ≠ (op.call g.blocks).subject := by
  obtain ⟨type, index, size⟩ := op
  cases type with
  | alloc =>
    obtain ⟨m, hm⟩ := h.listed id hid
    exact h.owns.ne_zero hm
  | realloc => exact h.distinct id hid index (hl.named (by simp)) hne
  | free => exact h.distinct id hid index (hl.named (by simp)) hne

lemma Sound.live_serve (h : g.Sound ids) (hr : op.type ≠ .free → g.answer op ≠ 0) :
    (g.serve op).live = lose g.live (op.call g.blocks).subject ∧ op.type = .free ∨
      (g.serve op).live = (g.answer op, toSize op.size) :: lose g.live (op.call g.blocks).subject ∧
        op.type ≠ .free := by
  by_cases ht : op.type = .free
  · exact Or.inl ⟨TraceOp.live_of_free ht, ht⟩
  · exact Or.inr ⟨TraceOp.live_of_answered (fun e he => h.owns.ne_zero he) ht (hr ht), ht⟩

lemma Sound.still_live (h : g.Sound ids) (hl : op.Legal numIds MAX_HEAP ids) {id m : Nat}
    (hid : id ∈ ids) (hne : id ≠ op.index) (hm : (g.blocks id, m) ∈ g.live) :
    (g.blocks id, m) ∈ lose g.live (op.call g.blocks).subject :=
  mem_lose.mpr ⟨hm, h.subject_ne hl hid hne⟩

/-- **Every allocated id has a live pointer of its own.** -/
theorem Sound.serve (h : g.Sound ids) (hl : op.Legal numIds MAX_HEAP ids)
    (hr : op.type ≠ .free → g.answer op ≠ 0) : (g.serve op).Sound (op.after ids) := by
  have howns : Owns (g.serve op).pool.toPool (g.serve op).live := h.owns.call (hl.names h).1
  have hself : op.type ≠ .free → (g.serve op).blocks op.index = g.answer op := TraceOp.note_self
  have hother : ∀ id, id ≠ op.index → (g.serve op).blocks id = g.blocks id := fun id =>
    TraceOp.note_of_ne
  have hlive := h.live_serve hr
  refine ⟨howns, fun id hid => ?_, fun id hid id' hid' hne => ?_⟩
  · rcases TraceOp.mem_after hid with ⟨rfl, ht⟩ | ⟨hm, hi⟩
    · obtain ⟨e, -⟩ := hlive.resolve_left fun hc => ht hc.2
      rw [hself ht, e]
      exact ⟨_, List.mem_cons_self⟩
    · obtain ⟨m, hm'⟩ := h.listed id hm
      have h1 := h.still_live hl hm hi hm'
      rw [hother id hi]
      rcases hlive with ⟨e, -⟩ | ⟨e, -⟩
      · exact ⟨m, e ▸ h1⟩
      · exact ⟨m, e ▸ List.mem_cons_of_mem _ h1⟩
  · -- the fresh pointer is not among the others
    have hfresh : ∀ i ∈ ids, i ≠ op.index → op.type ≠ .free → g.answer op ≠ g.blocks i := by
      intro i hi hne' ht he
      obtain ⟨e, -⟩ := hlive.resolve_left fun hc => ht hc.2
      obtain ⟨m, hm⟩ := h.listed i hi
      have h1 := h.still_live hl hi hne' hm
      have h2 := howns.nodup
      rw [e, List.map_cons, List.nodup_cons] at h2
      exact h2.1 (List.mem_map.mpr ⟨_, h1, he.symm⟩)
    rcases TraceOp.mem_after hid with ⟨rfl, ht⟩ | ⟨hm, hi⟩
    · rcases TraceOp.mem_after hid' with ⟨rfl, -⟩ | ⟨hm', hi'⟩
      · exact absurd rfl hne
      · rw [hself ht, hother id' hi']
        exact hfresh id' hm' hi' ht
    · rcases TraceOp.mem_after hid' with ⟨rfl, ht⟩ | ⟨hm', hi'⟩
      · rw [hself ht, hother id hi]
        exact (hfresh id hm hi ht).symm
      · rw [hother id hi, hother id' hi']
        exact h.distinct id hm id' hm' hne

end Ledger

end

/-! ## the heap of mm.c beside the ledger -/

/-- the arena that `mem_init` got at `lo`, whatever ran on it before -/
structure Ready (lo : Nat) (s : Heap) : Prop where
  /-- `mem_init` exits when there is no memory -/
  notNull : lo ≠ 0
  start : s.memStartBrk = lo
  maxAddr : s.memMaxAddr = lo + MAX_HEAP
  clean : s.Clean

/-- `mem_reset_brk` and `mm_init` -/
def restart : M Int := memResetBrk >>= fun _ => mmInit

/-- a heap of `mm.c` and an array of pointers are where the ledger is -/
structure Mirrors (A : Arena) (ids : List Nat) (s : Heap) (blocks : Nat → Nat)
    (g : Ledger A.base A.limit) : Prop where
  rep : Rep A s g.pool.toPool
  grown : A.base + 4096 ≤ g.pool.brk
  sound : g.Sound ids
  same : ∀ id ∈ ids, blocks id = g.blocks id

section
variable {A : Arena} {s t : Heap} {g : Ledger A.base A.limit} {ids : List Nat} {op : TraceOp}
  {numIds p m r : Nat} {blocks : Nat → Nat} {v : UInt8}

lemma Ready.arena {lo : Nat} (h : Ready lo s) (hb : GoodBase lo) : ∃ A : Arena, A.lo = lo :=
  ⟨hb.arena h.notNull, rfl⟩

/-- **A restart** leaves nothing of what was there. -/
lemma restart_spec (h : Ready A.lo s) :
    Ends restart s (fun r t => r = 0 ∧ Rep A t (Pool.initial A.base)) := by
  unfold restart
  rw [ends_bind]
  exact ⟨(), _, rfl, mmInit_spec h.start h.start h.maxAddr h.clean⟩

namespace Mirrors

lemma tracks (h : Mirrors A ids s blocks g) : Tracks A ⟨s, g.live⟩ g.pool :=
  ⟨h.rep, h.sound.owns, h.grown⟩

lemma ready (h : Mirrors A ids s blocks g) : Ready A.lo s :=
  ⟨Nat.ne_of_gt A.pos, h.rep.laid.start, h.rep.laid.maxAddr, h.rep.clean⟩

/-- after a restart it is the first ledger -/
lemma first (R : Rep A s (Pool.initial A.base)) : Mirrors A [] s blocks (Ledger.first A) :=
  ⟨R, Nat.le_refl _, ⟨Owns.initial A.base, fun _ hid => absurd hid List.not_mem_nil,
    fun _ hid => absurd hid List.not_mem_nil⟩, fun _ hid => absurd hid List.not_mem_nil⟩

lemma call_eq (h : Mirrors A ids s blocks g) (hl : op.Legal numIds MAX_HEAP ids) :
    op.call blocks = op.call g.blocks := by
  obtain ⟨type, index, size⟩ := op
  cases type with
  | alloc => rfl
  | realloc => exact congrArg (Call.realloc · _) (h.same index (hl.named (by simp)))
  | free => exact congrArg Call.free (h.same index (hl.named (by simp)))

/-- **What the package answers is what the ledger answers**, and mirrors it again. -/
theorem serve (h : Mirrors A ids s blocks g) (hl : op.Legal numIds MAX_HEAP ids)
    (hrun : (op.call blocks).run s = some (r, t)) (hr : op.type ≠ .free → r ≠ 0) :
    r = g.answer op ∧ Mirrors A (op.after ids) t (op.note blocks r) (g.serve op) ∧
      Does A s g.pool (op.call g.blocks) r t := by
  rw [h.call_eq hl] at hrun
  obtain ⟨hk, hz⟩ := hl.names h.sound
  have hfound : (op.call g.blocks).Found r := TraceOp.found hr
  have hfinds := hfound.finds hrun
  have hd := (call_spec h.tracks hk hz (hfinds.found h.tracks hz)).of_run hrun
  have hret : r = g.answer op := hd.ret
  refine ⟨hret, ⟨hd.rep, h.grown.trans (g.pool.le_call_brk _),
    h.sound.serve hl (fun ht => hret ▸ hr ht), fun id hid => ?_⟩, hd⟩
  rcases TraceOp.mem_after hid with ⟨rfl, ht⟩ | ⟨hm, hne⟩
  · rw [TraceOp.note_self ht, hret]
    exact (TraceOp.note_self ht).symm
  · rw [TraceOp.note_of_ne hne, h.same id hm]
    exact (TraceOp.note_of_ne hne).symm

/-- **The package answers** when the ledger has an answer. -/
theorem runs (h : Mirrors A ids s blocks g) (hl : op.Legal numIds MAX_HEAP ids)
    (hr : op.type ≠ .free → g.answer op ≠ 0) :
    ∃ t, (op.call blocks).run s = some (g.answer op, t) := by
  obtain ⟨hk, hz⟩ := hl.names h.sound
  obtain ⟨r, t, hrun, hd⟩ := call_spec h.tracks hk hz (TraceOp.found hr)
  refine ⟨t, ?_⟩
  rw [h.call_eq hl, hrun, hd.ret]
  rfl

lemma malloc_runs (h : Mirrors A ids s blocks g) {n : Nat} (hn : n ≤ MAX_HEAP) :
    ∃ t, mmMalloc n s = some ((g.pool.malloc n).1, t) := by
  obtain ⟨r, t, hrun, rfl, -⟩ := mmMalloc_spec h.rep g.pool.wf (fits_of_le h.rep hn)
  exact ⟨t, hrun⟩

lemma answered_iff (h : Mirrors A ids s blocks g) (hl : op.Legal numIds MAX_HEAP ids)
    (ht : op.type ≠ .free) :
    g.answer op ≠ 0 ↔ ∀ t, mmMalloc (toSize op.size) s ≠ some (0, t) := by
  obtain ⟨h0, hz, -⟩ := toSize_le (hl.size ht)
  obtain ⟨t, hrun⟩ := h.malloc_runs hz
  rw [Ledger.answer_eq ht h0, hrun]
  constructor
  · intro hne u he
    exact hne (Prod.mk.inj (Option.some.inj he)).1
  · intro hno he
    exact hno t (by rw [he])

lemma fill (h : Mirrors A ids s blocks g) (hm : (p, m) ∈ g.live) :
    Mirrors A ids (s.filled p v m) blocks g := by
  obtain ⟨b, hb, hu, rfl, h1, -⟩ := h.sound.owns.backed p m hm
  have h2 := le_fitSize m
  refine ⟨h.rep.scribble hb hu ⟨rfl, rfl, rfl, rfl⟩ (fun x hx => ?_) h.rep.clean, h.grown, h.sound,
    h.same⟩
  exact if_neg (by omega)

end Mirrors

end

/-! ## eval_mm_valid on mm.c -/

section
variable {A : Arena} {g : Ledger A.base A.limit} {ids : List Nat} {op : TraceOp} {numIds r : Nat}
  {b c d : Driver Heap} {ops pre : List TraceOp} {trace : Trace} {tn : Nat} {t : Heap}

lemma Passed.run (h : Passed mmPackage b op c) : ∃ r t,
    (op.call b.blocks).run b.heap = some (r, t) ∧ (op.type ≠ .free → r ≠ 0) ∧
    c.blocks = op.note b.blocks r ∧ (op.type = .free ∧ c.heap = t ∨ op.type ≠ .free ∧
      c.heap = t.filled r (UInt8.ofNat (lowByte op.index)) (toSize op.size)) := by
  cases h with
  | alloc hm hp => exact ⟨_, _, hm, fun _ => hp, rfl, Or.inr ⟨by simp, rfl⟩⟩
  | realloc hm hp => exact ⟨_, _, hm, fun _ => hp, rfl, Or.inr ⟨by simp, rfl⟩⟩
  | free hm =>
    exact ⟨0, _, bind_eq_some.mpr ⟨(), _, hm, rfl⟩, fun hne => absurd rfl hne, rfl, Or.inl ⟨rfl, rfl⟩⟩

namespace Mirrors

lemma fill_answer (h : Mirrors A (op.after ids) t (op.note b.blocks (g.answer op)) (g.serve op))
    (hs : g.Sound ids) (ht : op.type ≠ .free) (hr : g.answer op ≠ 0) (v : UInt8) :
    Mirrors A (op.after ids) (t.filled (g.answer op) v (toSize op.size))
      (op.note b.blocks (g.answer op)) (g.serve op) := by
  obtain ⟨e, -⟩ := (hs.live_serve fun _ => hr).resolve_left fun hc => ht hc.2
  refine h.fill ?_
  rw [e]
  exact List.mem_cons_self

/-- **A round that passes** was answered by the ledger, and mirrors it again. -/
theorem passed (h : Mirrors A ids b.heap b.blocks g) (hl : op.Legal numIds MAX_HEAP ids)
    (hs : Passed mmPackage b op c) : (op.type ≠ .free → g.answer op ≠ 0) ∧
      Mirrors A (op.after ids) c.heap c.blocks (g.serve op) := by
  obtain ⟨r, t, hrun, hr, hb, hheap⟩ := hs.run
  obtain ⟨rfl, h1, -⟩ := h.serve hl hrun hr
  refine ⟨hr, ?_⟩
  rw [hb]
  rcases hheap with ⟨-, e⟩ | ⟨ht, e⟩
  · rwa [e]
  · rw [e]
    exact h1.fill_answer h.sound ht (hr ht) _

theorem passes (h : Mirrors A ids b.heap b.blocks g) (hl : LegalFrom numIds MAX_HEAP ids ops)
    (hs : Lts.Run (Passed mmPackage) b ops c) : g.Answers ops ∧
      Mirrors A (ops.foldl TraceOp.after ids) c.heap c.blocks (ops.foldl Ledger.serve g) := by
  induction ops generalizing ids b g with
  | nil =>
    rw [Lts.run_nil] at hs
    rw [hs]
    exact ⟨trivial, h⟩
  | cons op ops ih =>
    obtain ⟨d, h1, h2⟩ := Lts.run_cons.mp hs
    obtain ⟨h3, h4⟩ := h.passed hl.1 h1
    obtain ⟨h5, h6⟩ := ih h4 hl.2 h2
    exact ⟨⟨h3, h5⟩, h6⟩

end Mirrors

lemma LegalFrom.of_append {m : Int} {post : List TraceOp} (h : LegalFrom numIds m ids (pre ++ post)) :
    LegalFrom numIds m ids pre := by
  induction pre generalizing ids with
  | nil => trivial
  | cons op pre ih => exact ⟨h.1, ih h.2⟩

lemma Started.mirrors (hr : Ready A.lo d.heap) (h : Started mmPackage d c) :
    Mirrors A [] c.heap c.blocks (Ledger.first A) := by
  obtain ⟨r, t, hrt, -, rfl⟩ := h
  exact .first ((restart_spec hr).of_run hrt).2

/-- **At every moment of `eval_mm_valid` on `mm.c`** the driver is where the ledger is. -/
theorem Moment.mirrors (hr : Ready A.lo d.heap) (hl : trace.Legal MAX_HEAP)
    (h : Moment mmPackage trace tn d pre c) : (Ledger.first A).Answers pre ∧
      Mirrors A (allocated pre) c.heap c.blocks (Ledger.after A pre) := by
  obtain ⟨⟨post, hpost⟩, d', h1, h2⟩ := moment_iff.mp h
  have hl' : LegalFrom trace.numIds MAX_HEAP [] (pre ++ post) := by
    rw [hpost]
    exact hl
  exact (h1.mirrors hr).passes hl'.of_append h2

end
end SegList

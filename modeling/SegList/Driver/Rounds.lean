import SegList.Lib.Lts
import SegList.Model.Driver

/-!
# The rounds of the driver

`Passed P d op d'`: the request `op`, made in the state `d`, passed every check of `eval_mm_valid`
and led to `d'`.  This is all a round of the loop does (`validOp_iff`), so that the loop returns `1`
exactly when there is a run of such steps (`evalMmValid_iff`), and the driver after the first
requests of a trace is the driver after a shorter trace (`Moment`).
-/

set_option linter.unusedSectionVars false

open Bytes Prog

namespace SegList

/-! ## legal traces -/

namespace TraceOp

/-- the ids allocated after the request -/
def after (ids : List Nat) (op : TraceOp) : List Nat :=
  match op.type with
  | .alloc => op.index :: ids
  | .realloc => ids
  | .free => ids.filter (fun id => id ≠ op.index)

/-- the index is below the number of ids, the size is positive and at most `maxSize`, and a
`REALLOC` or `FREE` names an id that is allocated -/
structure Legal (numIds : Nat) (maxSize : Int) (ids : List Nat) (op : TraceOp) : Prop where
  index : op.index < numIds
  size : op.type ≠ .free → 0 < op.size ∧ op.size ≤ maxSize
  named : op.type ≠ .alloc → op.index ∈ ids

end TraceOp

/-- the largest `int` -/
def INT_MAX : Int := 2 ^ 31 - 1

def allocated (ops : List TraceOp) : List Nat := ops.foldl TraceOp.after []

/-- every request is legal after those before it, with `ids` allocated in front of the first -/
def LegalFrom (numIds : Nat) (maxSize : Int) : List Nat → List TraceOp → Prop
  | _, [] => True
  | ids, op :: ops => op.Legal numIds maxSize ids ∧ LegalFrom numIds maxSize (op.after ids) ops

def Trace.Legal (trace : Trace) (maxSize : Int) : Prop :=
  LegalFrom trace.numIds maxSize [] trace.ops

instance (numIds : Nat) (maxSize : Int) (ids : List Nat) (op : TraceOp) :
    Decidable (op.Legal numIds maxSize ids) :=
  decidable_of_iff (op.index < numIds ∧ (op.type ≠ .free → 0 < op.size ∧ op.size ≤ maxSize) ∧
    (op.type ≠ .alloc → op.index ∈ ids)) ⟨fun h => ⟨h.1, h.2.1, h.2.2⟩, fun h => ⟨h.1, h.2, h.3⟩⟩

instance LegalFrom.decidable (numIds : Nat) (maxSize : Int) : (ids : List Nat) →
    (ops : List TraceOp) → Decidable (LegalFrom numIds maxSize ids ops)
  | _, [] => isTrue trivial
  | ids, op :: ops =>
    have := LegalFrom.decidable numIds maxSize (op.after ids) ops
    inferInstanceAs (Decidable (_ ∧ _))

instance (trace : Trace) (maxSize : Int) : Decidable (trace.Legal maxSize) :=
  inferInstanceAs (Decidable (LegalFrom _ _ _ _))

theorem allocated_snoc (ops : List TraceOp) (op : TraceOp) :
    allocated (ops ++ [op]) = op.after (allocated ops) := by
  unfold allocated
  rw [List.foldl_append]
  rfl

theorem LegalFrom.request {numIds : Nat} {maxSize : Int} {ids : List Nat} {pre post : List TraceOp}
    {op : TraceOp} (h : LegalFrom numIds maxSize ids (pre ++ op :: post)) :
    op.Legal numIds maxSize (pre.foldl TraceOp.after ids) := by
  induction pre generalizing ids with
  | nil => exact h.1
  | cons first pre ih => exact ih h.2

theorem Trace.Legal.request {trace : Trace} {maxSize : Int} {pre : List TraceOp} {op : TraceOp}
    (h : trace.Legal maxSize) (hpre : pre ++ [op] <+: trace.ops) :
    op.Legal trace.numIds maxSize (allocated pre) := by
  obtain ⟨post, hpost⟩ := hpre
  have h1 : LegalFrom trace.numIds maxSize [] (pre ++ op :: post) := by
    rw [List.append_cons, hpost]
    exact h
  exact h1.request

section
variable {ids : List Nat} {index id : Nat} {size : Int}

@[simp] theorem mem_after_alloc :
    id ∈ TraceOp.after ids ⟨.alloc, index, size⟩ ↔ id = index ∨ id ∈ ids := List.mem_cons

@[simp] theorem mem_after_realloc :
    id ∈ TraceOp.after ids ⟨.realloc, index, size⟩ ↔ id ∈ ids := Iff.rfl

@[simp] theorem mem_after_free :
    id ∈ TraceOp.after ids ⟨.free, index, size⟩ ↔ id ∈ ids ∧ id ≠ index := by
  unfold TraceOp.after
  rw [List.mem_filter, decide_eq_true_iff]

end

/-! ## rounds that pass -/

section
variable {σ : Type}

/-- `lo + size - 1` -/
def lastByte (lo : Nat) (size : Int) : Nat := subW (offset lo size) 1

/-- `add_range` finds nothing wrong with the payload -/
structure Admits (P : Package σ) (s : σ) (ranges : List Range) (lo : Nat) (size : Int) : Prop where
  pos : 0 < size
  aligned : lo % 8 = 0
  inHeap : P.memHeapLo s ≤ lo ∧ lo ≤ P.memHeapHi s ∧ P.memHeapLo s ≤ lastByte lo size ∧
    lastByte lo size ≤ P.memHeapHi s
  apart : ∀ p ∈ ranges, ¬ p.meets lo (lastByte lo size)

/-- what a round does with the new payload: record it, fill it, remember it -/
def Driver.store (P : Package σ) (d : Driver σ) (index p : Nat) (size : Int) : Driver σ :=
  { d with
    heap := P.memset p (UInt8.ofNat (lowByte index)) (toSize size) d.heap
    ranges := ⟨p, lastByte p size⟩ :: d.ranges
    blocks := Function.update d.blocks index p
    blockSizes := Function.update d.blockSizes index (toSize size) }

def Driver.drop (d : Driver σ) (p : Nat) : Driver σ :=
  { d with ranges := d.ranges.eraseP (fun r => r.lo = p) }

/-- the smaller of the old and the new size, as the driver computes it -/
def keptSize (oldsize : Nat) (size : Int) : Int :=
  if size < toInt oldsize then size else toInt oldsize

/-- **The request passes**: one round of the loop of `eval_mm_valid` without an error. -/
inductive Passed (P : Package σ) (d : Driver σ) : TraceOp → Driver σ → Prop where
  | alloc {index p : Nat} {size : Int} {t : σ} :
      P.mmMalloc (toSize size) d.heap = some (p, t) → p ≠ 0 → Admits P t d.ranges p size →
      Passed P d ⟨.alloc, index, size⟩ (Driver.store P { d with heap := t } index p size)
  | realloc {index p : Nat} {size : Int} {t : σ} :
      P.mmRealloc (d.blocks index) (toSize size) d.heap = some (p, t) → p ≠ 0 →
      Admits P t (d.drop (d.blocks index)).ranges p size →
      (∀ j < (keptSize (d.blockSizes index) size).toNat,
        charInt (P.load t (addW p j)) = (lowByte index : Int)) →
      Passed P d ⟨.realloc, index, size⟩
        (Driver.store P { d.drop (d.blocks index) with heap := t } index p size)
  | free {index : Nat} {size : Int} {t : σ} : P.mmFree (d.blocks index) d.heap = some ((), t) →
      Passed P d ⟨.free, index, size⟩ { d.drop (d.blocks index) with heap := t }

variable {P : Package σ} {d d' e : Driver σ} {op : TraceOp} {ops pre : List TraceOp}
  {tn i lo index : Nat} {size : Int} {α : Type}

lemma toSize_eq (h0 : 0 < size) (h1 : size ≤ INT_MAX) :
    0 < toSize size ∧ toSize size < 2 ^ 31 ∧ (toSize size : Int) = size := by
  unfold INT_MAX at h1
  unfold toSize
  omega

lemma lastByte_eq {p : Nat} (h0 : 0 < size) (h1 : size ≤ INT_MAX) (hw : p + toSize size ≤ 2 ^ 32) :
    lastByte p size = p + toSize size - 1 := by
  obtain ⟨h2, h3, h4⟩ := toSize_eq h0 h1
  unfold lastByte offset subW
  omega

theorem call_eq_some {m : Prog σ α} {r : α} :
    call m d = some (r, d') ↔ ∃ t, m d.heap = some (r, t) ∧ d' = { d with heap := t } := by
  unfold call
  constructor
  · intro h
    obtain ⟨⟨r', t⟩, h1, h2⟩ := Option.map_eq_some_iff.mp h
    obtain ⟨rfl, rfl⟩ := Prod.mk.inj h2
    exact ⟨t, h1, rfl⟩
  · rintro ⟨t, h, rfl⟩
    rw [h]
    rfl

section
variable {R : Nat → Driver σ → Prop} {U : Unit → Driver σ → Prop} {p : Nat}

@[simp] theorem ends_getBlock : Ends (getBlock index) d R ↔ R (d.blocks index) d :=
  ends_of_run rfl

@[simp] theorem ends_getBlockSize : Ends (getBlockSize index) d R ↔ R (d.blockSizes index) d :=
  ends_of_run rfl

@[simp] theorem ends_setBlock : Ends (setBlock index p) d U ↔
    U () { d with blocks := Function.update d.blocks index p } := ends_of_run rfl

@[simp] theorem ends_setBlockSize : Ends (setBlockSize index p) d U ↔
    U () { d with blockSizes := Function.update d.blockSizes index p } := ends_of_run rfl

end

/-- `return 0` after an error is no pass -/
lemma complained {msg : String} :
    (mallocError tn i msg >>= fun _ => (pure false : Prog (Driver σ) Bool)) d
      ≠ some (true, d') := by
  intro h
  have h1 := (Prod.mk.inj (Option.some.inj h)).1
  exact absurd h1 (by simp)

lemma addRange_iff : addRange P lo size tn i d = some (true, d') ↔
    Admits P d.heap d.ranges lo size ∧
      d' = { d with ranges := ⟨lo, lastByte lo size⟩ :: d.ranges } := by
  unfold addRange
  by_cases hpos : 0 < size
  swap
  · rw [if_pos hpos]
    exact ⟨fun h => absurd h (by simp [quit]), fun h => absurd h.1.pos hpos⟩
  rw [if_neg (not_not.mpr hpos)]
  by_cases hal : lo % ALIGNMENT = 0
  swap
  · rw [if_pos hal]
    exact ⟨fun h => absurd h complained, fun h => absurd h.1.aligned hal⟩
  rw [if_neg (not_not.mpr hal)]
  show (ite (lo < P.memHeapLo d.heap ∨ lo > P.memHeapHi d.heap ∨ lastByte lo size < P.memHeapLo d.heap
    ∨ lastByte lo size > P.memHeapHi d.heap) _ _ : Prog (Driver σ) Bool) d = _ ↔ _
  by_cases hin : lo < P.memHeapLo d.heap ∨ lo > P.memHeapHi d.heap ∨
      lastByte lo size < P.memHeapLo d.heap ∨ lastByte lo size > P.memHeapHi d.heap
  · rw [if_pos hin]
    refine ⟨fun h => absurd h complained, fun h => ?_⟩
    have h1 := h.1.inHeap
    omega
  have hlast : subW (offset lo size) 1 = lastByte lo size := rfl
  rw [if_neg hin, bind_eq_some]
  simp only [hlast]
  constructor
  · rintro ⟨o, u, h1, h2⟩
    obtain ⟨rfl, rfl⟩ := Prod.mk.inj (Option.some.inj h1)
    cases ho : d.ranges.find? (fun p => p.meets lo (lastByte lo size)) with
    | some p =>
      rw [ho] at h2
      exact absurd h2 complained
    | none =>
      rw [ho] at h2
      obtain ⟨-, rfl⟩ := Prod.mk.inj (Option.some.inj h2)
      refine ⟨⟨hpos, hal, by omega, fun p hp => ?_⟩, rfl⟩
      simpa using List.find?_eq_none.mp ho p hp
  · rintro ⟨h, rfl⟩
    refine ⟨none, d, ?_, rfl⟩
    have ho : d.ranges.find? (fun p => p.meets lo (lastByte lo size)) = none :=
      List.find?_eq_none.mpr fun p hp => by simpa using h.apart p hp
    show some (d.ranges.find? (fun p => p.meets lo (lastByte lo size)), d) = _
    rw [ho]

lemma dataKept_iff {b : Bool} {p : Nat} {kept : Int} :
    dataKept P p index kept d = some (b, d') ↔
      (b = true ↔ ∀ j < kept.toNat, charInt (P.load d.heap (addW p j)) = (lowByte index : Int)) ∧
        d' = d := by
  unfold dataKept
  simp only [Option.some.injEq, Prod.mk.injEq]
  refine and_congr ?_ eq_comm
  rw [Bool.eq_iff_iff, List.all_eq_true]
  simp only [List.mem_range, decide_eq_true_iff]
  exact iff_comm

lemma passed_of_validOp (h : validOp P tn i op d = some (true, d')) : Passed P d op d' := by
  obtain ⟨type, index, size⟩ := op
  cases type with
  | alloc =>
    obtain ⟨p, d1, h1, h2⟩ := bind_eq_some.mp h
    obtain ⟨t, ht, rfl⟩ := call_eq_some.mp h1
    by_cases hp : p = 0
    · rw [if_pos hp] at h2
      exact absurd h2 complained
    rw [if_neg hp] at h2
    obtain ⟨b, d2, h3, h4⟩ := bind_eq_some.mp h2
    cases b with
    | false => exact absurd (Prod.mk.inj (Option.some.inj h4)).1 (by simp)
    | true =>
      obtain ⟨hadm, rfl⟩ := addRange_iff.mp h3
      obtain ⟨-, rfl⟩ := Prod.mk.inj (Option.some.inj h4)
      exact .alloc ht hp hadm
  | realloc =>
    obtain ⟨oldp, d0, h0, h⟩ := bind_eq_some.mp h
    obtain ⟨rfl, rfl⟩ := Prod.mk.inj (Option.some.inj h0)
    obtain ⟨p, d1, h1, h2⟩ := bind_eq_some.mp h
    obtain ⟨t, ht, rfl⟩ := call_eq_some.mp h1
    by_cases hp : p = 0
    · rw [if_pos hp] at h2
      exact absurd h2 complained
    rw [if_neg hp] at h2
    obtain ⟨_, d2, h3, h2⟩ := bind_eq_some.mp h2
    obtain ⟨-, rfl⟩ := Prod.mk.inj (Option.some.inj h3)
    obtain ⟨b, d3, h4, h5⟩ := bind_eq_some.mp h2
    cases b with
    | false => exact absurd (Prod.mk.inj (Option.some.inj h5)).1 (by simp)
    | true =>
      obtain ⟨hadm, rfl⟩ := addRange_iff.mp h4
      obtain ⟨old, d4, h6, h5⟩ := bind_eq_some.mp h5
      obtain ⟨rfl, rfl⟩ := Prod.mk.inj (Option.some.inj h6)
      obtain ⟨b, d5, h7, h5⟩ := bind_eq_some.mp h5
      obtain ⟨hb, rfl⟩ := dataKept_iff.mp h7
      cases b with
      | false => exact absurd h5 complained
      | true =>
        obtain ⟨-, rfl⟩ := Prod.mk.inj (Option.some.inj h5)
        exact .realloc ht hp hadm (hb.mp rfl)
  | free =>
    obtain ⟨p, d0, h0, h⟩ := bind_eq_some.mp h
    obtain ⟨rfl, rfl⟩ := Prod.mk.inj (Option.some.inj h0)
    obtain ⟨_, d1, h1, h⟩ := bind_eq_some.mp h
    obtain ⟨-, rfl⟩ := Prod.mk.inj (Option.some.inj h1)
    obtain ⟨_, d2, h2, h⟩ := bind_eq_some.mp h
    obtain ⟨t, ht, rfl⟩ := call_eq_some.mp h2
    obtain ⟨-, rfl⟩ := Prod.mk.inj (Option.some.inj h)
    exact .free ht

lemma Passed.validOp_eq (h : Passed P d op d') : validOp P tn i op d = some (true, d') := by
  cases h with
  | alloc hm hp hadm =>
    refine bind_eq_some.mpr ⟨_, _, call_eq_some.mpr ⟨_, hm, rfl⟩, ?_⟩
    rw [if_neg hp]
    exact bind_eq_some.mpr ⟨true, _, addRange_iff.mpr ⟨hadm, rfl⟩, rfl⟩
  | realloc hm hp hadm hdata =>
    refine bind_eq_some.mpr ⟨_, _, rfl, bind_eq_some.mpr ⟨_, _, call_eq_some.mpr ⟨_, hm, rfl⟩, ?_⟩⟩
    rw [if_neg hp]
    refine bind_eq_some.mpr ⟨_, _, rfl, bind_eq_some.mpr
      ⟨true, _, addRange_iff.mpr ⟨hadm, rfl⟩, bind_eq_some.mpr ⟨_, _, rfl, ?_⟩⟩⟩
    exact bind_eq_some.mpr ⟨true, _, dataKept_iff.mpr ⟨⟨fun _ => hdata, fun _ => rfl⟩, rfl⟩, rfl⟩
  | free hm =>
    refine bind_eq_some.mpr ⟨_, _, rfl, bind_eq_some.mpr ⟨_, _, rfl, ?_⟩⟩
    exact bind_eq_some.mpr ⟨_, _, call_eq_some.mpr ⟨_, hm, rfl⟩, rfl⟩

/-- **One round of the loop.** -/
theorem validOp_iff : validOp P tn i op d = some (true, d') ↔ Passed P d op d' :=
  ⟨passed_of_validOp, Passed.validOp_eq⟩

theorem validOps_iff : validOps P tn i ops d = some (1, e) ↔ Lts.Run (Passed P) d ops e := by
  induction ops generalizing i d with
  | nil =>
    rw [Lts.run_nil]
    constructor
    · intro h
      exact (Prod.mk.inj (Option.some.inj h)).2.symm
    · rintro rfl
      rfl
  | cons op ops ih =>
    rw [Lts.run_cons]
    constructor
    · intro h
      obtain ⟨b, c, h1, h2⟩ := bind_eq_some.mp h
      cases b with
      | false => exact absurd (Prod.mk.inj (Option.some.inj h2)).1 (by simp)
      | true => exact ⟨c, validOp_iff.mp h1, ih.mp h2⟩
    · rintro ⟨c, h1, h2⟩
      exact bind_eq_some.mpr ⟨true, c, validOp_iff.mpr h1, ih.mpr h2⟩

lemma Passed.quiet (h : Passed P d op e) : e.errors = d.errors ∧ e.printed = d.printed := by
  cases h with
  | alloc => exact ⟨rfl, rfl⟩
  | realloc => exact ⟨rfl, rfl⟩
  | free => exact ⟨rfl, rfl⟩

lemma passes_quiet (h : Lts.Run (Passed P) d ops e) : e.errors = d.errors ∧ e.printed = d.printed := by
  induction h with
  | nil => exact ⟨rfl, rfl⟩
  | snoc _ hl ih => exact ⟨hl.quiet.1.trans ih.1, hl.quiet.2.trans ih.2⟩

/-! ## the moments of a run -/

/-- the driver in front of the loop: the heap reset, the package initialised, no range recorded -/
def Started (P : Package σ) (d d' : Driver σ) : Prop :=
  ∃ r t, (P.memResetBrk >>= fun _ => P.mmInit) d.heap = some (r, t) ∧ 0 ≤ r ∧
    d' = { d with heap := t, ranges := [] }

/-- **The driver after the requests `pre`**, the first ones of the trace, when they all passed -/
def Moment (P : Package σ) (trace : Trace) (tracenum : Nat) (d : Driver σ) (pre : List TraceOp)
    (c : Driver σ) : Prop :=
  pre <+: trace.ops ∧ evalMmValid P { trace with ops := pre } tracenum d = some (1, c)

variable {trace : Trace} {c : Driver σ}

theorem evalMmValid_iff : evalMmValid P trace tn d = some (1, e) ↔
    ∃ d', Started P d d' ∧ Lts.Run (Passed P) d' trace.ops e := by
  unfold evalMmValid
  constructor
  · intro h
    obtain ⟨_, d1, h1, h⟩ := bind_eq_some.mp h
    obtain ⟨s, hs, rfl⟩ := call_eq_some.mp h1
    obtain ⟨_, d2, h2, h⟩ := bind_eq_some.mp h
    obtain ⟨-, rfl⟩ := Prod.mk.inj (Option.some.inj h2)
    obtain ⟨r, d3, h3, h⟩ := bind_eq_some.mp h
    obtain ⟨t, ht, rfl⟩ := call_eq_some.mp h3
    by_cases hr : r < 0
    · rw [if_pos hr] at h
      exact absurd (Prod.mk.inj (Option.some.inj h)).1 (by simp)
    · rw [if_neg hr] at h
      exact ⟨_, ⟨r, t, bind_eq_some.mpr ⟨(), s, hs, ht⟩, by omega, rfl⟩, validOps_iff.mp h⟩
  · rintro ⟨d', ⟨r, t, hrt, hr, rfl⟩, hrun⟩
    obtain ⟨_, s, hs, ht⟩ := bind_eq_some.mp hrt
    refine bind_eq_some.mpr ⟨(), _, call_eq_some.mpr ⟨s, hs, rfl⟩, bind_eq_some.mpr ⟨(), _, rfl,
      bind_eq_some.mpr ⟨r, _, call_eq_some.mpr ⟨t, ht, rfl⟩, ?_⟩⟩⟩
    rw [if_neg (by omega)]
    exact validOps_iff.mpr hrun

theorem moment_iff : Moment P trace tn d pre c ↔
    pre <+: trace.ops ∧ ∃ d', Started P d d' ∧ Lts.Run (Passed P) d' pre c := by
  unfold Moment
  rw [evalMmValid_iff]

theorem moment_snoc : Moment P trace tn d (pre ++ [op]) c ↔
    pre ++ [op] <+: trace.ops ∧ ∃ b, Moment P trace tn d pre b ∧ Passed P b op c := by
  simp only [moment_iff, Lts.run_snoc]
  constructor
  · rintro ⟨h, d', h1, b, h2, h3⟩
    exact ⟨h, b, ⟨(List.prefix_append _ _).trans h, d', h1, h2⟩, h3⟩
  · rintro ⟨h, b, ⟨-, d', h1, h2⟩, h3⟩
    exact ⟨h, d', h1, b, h2, h3⟩

/-- a verdict of `1` has a moment after each of the requests -/
theorem exists_moment (h : evalMmValid P trace tn d = some (1, e)) (hpre : pre <+: trace.ops) :
    ∃ c, Moment P trace tn d pre c := by
  obtain ⟨d', h1, h2⟩ := evalMmValid_iff.mp h
  obtain ⟨post, hpost⟩ := id hpre
  rw [← hpost, Lts.run_append] at h2
  obtain ⟨c, h3, -⟩ := h2
  exact ⟨c, moment_iff.mpr ⟨hpre, d', h1, h3⟩⟩

/-- **Induction over the moments of a run.** -/
theorem Moment.induct {I : List TraceOp → Driver σ → Prop} (h0 : ∀ d', Started P d d' → I [] d')
    (hstep : ∀ pre op b c, pre ++ [op] <+: trace.ops → Moment P trace tn d pre b → I pre b →
      Passed P b op c → I (pre ++ [op]) c)
    (h : Moment P trace tn d pre c) : I pre c := by
  induction pre using List.reverseRecOn generalizing c with
  | nil =>
    obtain ⟨-, d', h1, h2⟩ := moment_iff.mp h
    rw [Lts.run_nil] at h2
    rw [h2]
    exact h0 d' h1
  | append_singleton pre op ih =>
    obtain ⟨hpre, b, h1, h2⟩ := moment_snoc.mp h
    exact hstep pre op b c hpre h1 (ih h1) h2

end
end SegList

import SegList.Driver.Report
import SegList.Driver.Util

/-!
# A session on mm.c

What comes out of a session, from the text of the trace files on: every trace is read, replayed once
for correctness and, when it is correct, eleven times more, one trace after the other in the same
arena.

* `Balanced.reject`       a `REALLOC` of an id with a low byte above 127 is complained of, although
                          its data was kept;
* `evalTrace_on_mm`       so a legal trace is correct unless it has such a request, and the arena is
                          ready for the next one;
* `session_on_mm`         the session returns, and its error lines are those of these requests.
-/

set_option linter.unusedSectionVars false

open Bytes Prog Scan

namespace SegList
open Pool

/-! ## requests that differ in what the driver does not read -/

/-- the size of a `FREE` is not looked at -/
inductive TraceOp.Same : TraceOp → TraceOp → Prop where
  | refl (op : TraceOp) : Same op op
  | free (index : Nat) (size size' : Int) : Same ⟨.free, index, size⟩ ⟨.free, index, size'⟩

/-- an id whose low byte is no positive `char` is reallocated -/
def TraceOp.High (op : TraceOp) : Prop := op.type = .realloc ∧ 128 ≤ op.index % 256

instance (op : TraceOp) : Decidable op.High := inferInstanceAs (Decidable (_ ∧ _))

section
variable {base limit : Nat} {g : Ledger base limit} {op op' : TraceOp} {ops ops' : List TraceOp}
  {ids : List Nat} {numIds : Nat} {m : Int}

namespace TraceOp.Same

lemma legal (h : Same op op') (hl : op.Legal numIds m ids) : op'.Legal numIds m ids := by
  cases h with
  | refl => exact hl
  | free index size size' => exact ⟨hl.index, fun hne => absurd rfl hne, hl.named⟩

lemma after_eq (h : Same op op') : op'.after ids = op.after ids := by
  cases h <;> rfl

lemma serve_eq (h : Same op op') : g.serve op' = g.serve op := by
  cases h <;> rfl

lemma answers (h : Same op op') (ha : op.type ≠ .free → g.answer op ≠ 0) :
    op'.type ≠ .free → g.answer op' ≠ 0 := by
  cases h with
  | refl => exact ha
  | free index size size' => exact fun hne => absurd rfl hne

lemma high_iff (h : Same op op') : op'.High ↔ op.High := by
  cases h <;> rfl

end TraceOp.Same

lemma legalFrom_same (h : List.Forall₂ TraceOp.Same ops ops') (hl : LegalFrom numIds m ids ops) :
    LegalFrom numIds m ids ops' := by
  induction h generalizing ids with
  | nil => trivial
  | cons h _ ih =>
    refine ⟨h.legal hl.1, ?_⟩
    rw [h.after_eq]
    exact ih hl.2

lemma answers_same (h : List.Forall₂ TraceOp.Same ops ops') (ha : g.Answers ops) :
    g.Answers ops' := by
  induction h generalizing g with
  | nil => trivial
  | cons h _ ih =>
    refine ⟨h.answers ha.1, ?_⟩
    rw [h.serve_eq]
    exact ih ha.2

lemma findIdx?_same (h : List.Forall₂ TraceOp.Same ops ops') :
    ops'.findIdx? (fun op => op.High) = ops.findIdx? (fun op => op.High) := by
  induction h with
  | nil => rfl
  | cons h _ ih =>
    rw [List.findIdx?_cons, List.findIdx?_cons, ih]
    simp only [h.high_iff]

lemma mapIdx_same {f : Nat → TraceOp → TraceOp} (h : ∀ i op, TraceOp.Same op (f i op)) :
    List.Forall₂ TraceOp.Same ops (ops.mapIdx f) := by
  induction ops generalizing f with
  | nil => exact .nil
  | cons op ops ih =>
    rw [List.mapIdx_cons]
    exact .cons (h 0 op) (ih fun i => h (i + 1))

lemma stored_same (env : Env) (f : TraceFile) :
    List.Forall₂ TraceOp.Same f.ops (f.stored env) := by
  refine mapIdx_same fun i op => ?_
  obtain ⟨type, index, size⟩ := op
  cases type with
  | alloc => exact .refl _
  | realloc => exact .refl _
  | free => exact .free index size _

end

/-! ## eval_mm_valid -/

def notPreserved : String := "mm_realloc did not preserve the data from old block"

section
variable {A : Arena} {g : Ledger A.base A.limit} {ids : List Nat} {op : TraceOp}
  {ops pre : List TraceOp} {numIds tn i k : Nat} {d c e : Driver Heap} {trace : Trace}

/-- **A `REALLOC` of a high id is complained of**: the bytes are there, but the comparison is between
`char`s and a byte. -/
lemma Balanced.reject (h : Balanced A ids d g) (hl : op.Legal numIds MAX_HEAP ids)
    (hr : op.type ≠ .free → g.answer op ≠ 0) (hi : op.High)
    (hold : 0 < d.blockSizes op.index ∧ d.blockSizes op.index < 2 ^ 31) :
    Ends (validOp mmPackage tn i op) d (fun b e => b = false ∧ Ready A.lo e.heap ∧
      Reports [⟨tn, i, notPreserved⟩] d e) := by
  obtain ⟨t, hrun⟩ := h.mirrors.runs hl hr
  obtain ⟨-, hM, hd⟩ := h.mirrors.serve hl hrun hr
  have hother := h.others hl hd
  have hlive := h.mirrors.sound.live_serve hr
  rw [← h.mirrors.call_eq hl] at hother hlive
  obtain ⟨type, index, size⟩ := op
  obtain ⟨ht, hhigh⟩ := hi
  obtain rfl : type = .realloc := ht
  obtain ⟨e, -⟩ := hlive.resolve_left fun hc => absurd hc.2 (by simp)
  obtain ⟨hadm, -⟩ := Balanced.store (d := { d.drop (d.blocks index) with heap := t }) hM (by simp)
    (hl.size (by simp)) e (h.drop_ranges _) hother
  generalize g.answer ⟨.realloc, index, size⟩ = p at hrun hM hadm hr
  have hold : 0 < d.blockSizes index ∧ d.blockSizes index < 2 ^ 31 := hold
  -- the first byte is compared, and no `char` is above 127
  have hpos : 0 < (keptSize (d.blockSizes index) size).toNat := by
    have h1 : 0 < size := hadm.pos
    unfold keptSize
    rw [toInt_eq hold.2]
    split <;> omega
  have hkept : ¬ ∀ j < (keptSize (d.blockSizes index) size).toNat,
      charInt (mmPackage.load t (addW p j)) = (lowByte index : Int) := by
    intro hall
    have h1 := hall 0 hpos
    have h2 := charInt_lt (mmPackage.load t (addW p 0))
    have h3 : 128 ≤ index % 256 := hhigh
    rw [h1, lowByte_eq] at h2
    omega
  have hcall : call (mmPackage.mmRealloc (d.blocks index) (toSize size)) d =
      some (p, { d with heap := t }) := call_eq_some.mpr ⟨t, hrun, rfl⟩
  have hadd : addRange mmPackage p size tn i { d.drop (d.blocks index) with heap := t } =
      some (true, _) := addRange_iff.mpr ⟨hadm, rfl⟩
  have hdata : dataKept mmPackage p index (keptSize (d.blockSizes index) size)
      { d.drop (d.blocks index) with
        heap := t, ranges := ⟨p, lastByte p size⟩ :: (d.drop (d.blocks index)).ranges } =
      some (false, _) :=
    dataKept_iff.mpr ⟨⟨fun hf => absurd hf (by simp), fun hall => absurd hall hkept⟩, rfl⟩
  refine ⟨false, { d.drop (d.blocks index) with
    heap := t, ranges := ⟨p, lastByte p size⟩ :: (d.drop (d.blocks index)).ranges,
    errors := d.errors + 1, printed := errorLine tn i notPreserved :: d.printed },
    bind_eq_some.mpr ⟨_, _, rfl, bind_eq_some.mpr ⟨_, _, hcall, ?_⟩⟩, rfl, hM.ready, ⟨rfl, rfl⟩⟩
  rw [if_neg (hr (by simp))]
  exact bind_eq_some.mpr ⟨_, _, rfl, bind_eq_some.mpr ⟨true, _, hadd, bind_eq_some.mpr
    ⟨_, _, rfl, bind_eq_some.mpr ⟨false, _, hdata, rfl⟩⟩⟩⟩

lemma Started.evalMmValid_eq {σ : Type} {P : Package σ} {d c : Driver σ} (h : Started P d c) :
    evalMmValid P trace tn d = validOps P tn 0 trace.ops c := by
  obtain ⟨r, t, hrt, hr, rfl⟩ := h
  obtain ⟨_, s, hs, ht⟩ := bind_eq_some.mp hrt
  have h1 : call P.memResetBrk d = some ((), { d with heap := s }) := call_eq_some.mpr ⟨s, hs, rfl⟩
  have h2 : call P.mmInit { d with heap := s, ranges := [] } =
      some (r, { d with heap := t, ranges := [] }) := call_eq_some.mpr ⟨t, ht, rfl⟩
  unfold evalMmValid
  rw [bind_run, h1]
  show ((call P.mmInit { d with heap := s, ranges := [] }).bind _) = _
  rw [h2]
  show (if r < 0 then _ else validOps P tn 0 trace.ops : Prog (Driver σ) Int) _ = _
  rw [if_neg (by omega)]

lemma validOps_append {σ : Type} {P : Package σ} {d c : Driver σ} (h : Lts.Run (Passed P) d pre c) :
    validOps P tn i (pre ++ ops) d = validOps P tn (i + pre.length) ops c := by
  induction pre generalizing i d with
  | nil =>
    rw [Lts.run_nil.mp h]
    rfl
  | cons op pre ih =>
    obtain ⟨b, h1, h2⟩ := Lts.run_cons.mp h
    show (validOp P tn i op >>= _) d = _
    rw [bind_run, validOp_iff.mpr h1]
    show validOps P tn (i + 1) (pre ++ ops) b = _
    rw [ih h2, List.length_cons, Nat.add_right_comm, Nat.add_assoc]

/-- the error that `eval_mm_valid` reports for a legal trace: the first `REALLOC` of a high id -/
def fault (tn : Nat) (ops : List TraceOp) : Option Fault :=
  (ops.findIdx? fun op => op.High).map fun k => ⟨tn, k, notPreserved⟩

lemma Reports.of_silent {xs : List Fault} (h : Reports xs c e) (h' : Silent d c) : Reports xs d e :=
  h'.reports.append h

lemma findIdx?_split {α : Type} {p : α → Bool} {xs : List α} (h : xs.findIdx? p = some k) :
    ∃ pre x post, xs = pre ++ x :: post ∧ p x = true ∧ pre.length = k ∧ ∀ y ∈ pre, p y = false := by
  induction xs generalizing k with
  | nil => exact absurd h (by simp)
  | cons x xs ih =>
    rw [List.findIdx?_cons] at h
    cases hx : p x with
    | true =>
      rw [if_pos hx] at h
      exact ⟨[], x, xs, rfl, hx, Option.some.inj h, fun y hy => absurd hy List.not_mem_nil⟩
    | false =>
      rw [if_neg (by simp [hx])] at h
      obtain ⟨j, hj, rfl⟩ := Option.map_eq_some_iff.mp h
      obtain ⟨pre, y, post, rfl, h1, rfl, h2⟩ := ih hj
      exact ⟨x :: pre, y, post, rfl, h1, rfl, List.forall_mem_cons.mpr ⟨hx, h2⟩⟩

/-- **The verdict on a legal trace** that the arena has room for. -/
theorem evalMmValid_on_mm (hd : Ready A.lo d.heap) (hl : trace.Legal MAX_HEAP)
    (ha : (Ledger.first A).Answers trace.ops) : Ends (evalMmValid mmPackage trace tn) d
      (fun v e => Ready A.lo e.heap ∧ (v = if (fault tn trace.ops).isSome then 0 else 1) ∧
        Reports (fault tn trace.ops).toList d e) := by
  unfold fault
  cases hk : trace.ops.findIdx? (fun op => op.High) with
  | none =>
    have hlow : ∀ op ∈ trace.ops, op.type = .realloc → op.index % 256 < 128 := by
      intro op hop ht
      have h1 : ¬ op.High := by simpa using List.findIdx?_eq_none_iff.mp hk op hop
      by_contra hge
      exact h1 ⟨ht, by omega⟩
    obtain ⟨e, hv, h1, h2⟩ := accepts_of_small hd hl (neverOut_of_answers hd hl ha) hlow
    have hm : Moment mmPackage trace tn d trace.ops e := ⟨List.prefix_refl _, hv⟩
    exact ⟨1, e, hv, (hm.mirrors hd hl).2.ready, rfl, ⟨h1, h2⟩⟩
  | some k =>
    obtain ⟨pre, op, post, hsplit, hhigh, rfl, hlow⟩ := findIdx?_split hk
    have hhigh : op.High := by simpa using hhigh
    have hlow : ∀ op ∈ pre, op.type = .realloc → op.index % 256 < 128 := by
      intro op hop ht
      have h1 : ¬ op.High := by simpa using hlow op hop
      by_contra hge
      exact h1 ⟨ht, by omega⟩
    have hl' : LegalFrom trace.numIds MAX_HEAP [] (pre ++ op :: post) := hsplit ▸ hl
    rw [hsplit] at ha
    have hap : (Ledger.first A).Answers pre := ha.of_prefix (List.prefix_append _ _)
    -- the requests in front of it pass
    have hlp : Trace.Legal ⟨trace.numIds, pre⟩ MAX_HEAP := hl'.of_append
    have hout : NeverOut ⟨trace.numIds, pre⟩ tn d := neverOut_of_answers hd hlp hap
    obtain ⟨c, hc, hB⟩ := Balanced.moment hd hlp hout hlow (List.prefix_refl pre)
    have hop := hl'.request
    have hreject : Ends (validOp mmPackage tn pre.length op) c (fun b e => b = false ∧
        Ready A.lo e.heap ∧ Reports [⟨tn, pre.length, notPreserved⟩] c e) :=
      hB.reject hop ha.request hhigh (hc.sizes hlp op.index (hop.named (by simp [hhigh.1])))
    obtain ⟨b, e, hrun, rfl, hready, hrep⟩ := hreject
    obtain ⟨-, d', h1, h2⟩ := moment_iff.mp hc
    have hq := passes_quiet h2
    refine ⟨0, e, ?_, hready, rfl, hrep.of_silent (IsTrans.trans _ _ _ h1.silent ⟨hq.1, hq.2⟩)⟩
    rw [h1.evalMmValid_eq, hsplit, validOps_append h2, Nat.zero_add]
    exact bind_eq_some.mpr ⟨false, e, hrun, rfl⟩

/-- the arena is ready, and nothing was reported -/
def Idle (A : Arena) (d e : Driver Heap) : Prop := Ready A.lo e.heap ∧ Silent d e

/-- ten runs of a function that leaves the arena ready -/
lemma fsecs_idle {f : Prog (Driver Heap) Unit}
    (hf : ∀ d, Ready A.lo d.heap → Ends f d (fun _ e => Idle A d e)) (hd : Ready A.lo d.heap) :
    Ends (fsecs f) d (fun _ e => Idle A d e) := by
  have hn : ∀ n d, Ready A.lo d.heap → Ends (ftimerGettod f n) d (fun _ e => Idle A d e) := by
    intro n
    induction n with
    | zero => exact fun d hd => ⟨(), d, rfl, hd, Std.Refl.refl d⟩
    | succ n ih =>
      intro d hd
      unfold ftimerGettod
      rw [ends_bind]
      refine (hf d hd).mono fun _ c hc => (ih c hc.1).mono fun _ e he => ?_
      exact ⟨he.1, IsTrans.trans _ _ _ hc.2 he.2⟩
  exact hn 10 d hd

variable {f : TraceFile} {fs : List TraceFile} {job : Job} {jobs : List Job} {tracedir : String}

/-- **The runs of one trace** leave the arena ready for the next one. -/
theorem evalTrace_on_mm (hd : Ready A.lo d.heap) (hl : f.trace.Legal MAX_HEAP)
    (ha : (Ledger.first A).Answers f.ops) : Ends (evalTrace mmPackage tn f) d (fun st e =>
      Ready A.lo e.heap ∧ (st.valid = 0 ↔ (fault tn f.ops).isSome) ∧
        Reports (fault tn f.ops).toList d e) := by
  have hl' : LegalFrom f.numIds.toNat MAX_HEAP [] f.ops := hl
  have hvalid : Ends (evalMmValid mmPackage f.trace tn) d (fun v e => Ready A.lo e.heap ∧
      (v = if (fault tn f.ops).isSome then 0 else 1) ∧ Reports (fault tn f.ops).toList d e) :=
    evalMmValid_on_mm hd hl ha
  obtain ⟨v, c, hrun, hc, hv, hr⟩ := hvalid
  unfold evalTrace
  rw [ends_bind, ends_of_run hrun]
  by_cases hsome : (fault tn f.ops).isSome
  · rw [if_pos hsome] at hv
    rw [ends_ite_neg (by simp [hv]), ends_pure]
    exact ⟨hc, ⟨fun _ => hsome, fun _ => hv⟩, hr⟩
  · rw [if_neg hsome] at hv
    rw [ends_ite_pos (by simp [hv]), ends_bind]
    refine ((evalMmUtil_mirrors hc hl' ha).with_moves (evalMmUtil_silent _)).mono fun util u hu => ?_
    have hspeed : ∀ d, Ready A.lo d.heap →
        Ends (evalMmSpeed mmPackage f.trace) d (fun _ e => Idle A d e) := fun d hd =>
      ((evalMmSpeed_mirrors hd hl' ha).with_moves (evalMmSpeed_silent _)).mono fun _ e he =>
        ⟨he.1.ready, he.2⟩
    rw [ends_bind]
    refine (fsecs_idle hspeed hu.1.ready).mono fun _ e he => ?_
    rw [ends_pure]
    refine ⟨he.1, ⟨fun h0 => ?_, fun h => absurd h hsome⟩, ?_⟩
    · have h1 : v = 0 := h0
      omega
    · have h1 := (hr.append hu.2.reports).append he.2.reports
      rwa [List.append_nil, List.append_nil] at h1

/-! ## the session -/

/-- **A file with a trace in it**, in any layout: the counts in front are right, and the trace is
legal and one that the arena has room for -/
structure Carries (A : Arena) (tracedir : String) (job : Job) (f : TraceFile) : Prop where
  memory : ∀ k n, job.env.gets k n = true
  path : (tracedir ++ job.filename).length < MAXLINE
  text : ∃ text, job.file = some text ∧ words text = f.words
  printable : f.Printable
  numIds : f.numIds = f.maxIndex + 1
  numOps : f.numOps = f.ops.length
  room : f.ops.length * sizeofTraceOp < 2 ^ 32
  legal : f.trace.Legal MAX_HEAP
  answered : (Ledger.first A).Answers f.ops

lemma Carries.read (h : Carries A tracedir job f) :
    readTrace job.env tracedir job.filename job.file = .ok { f with ops := f.stored job.env } := by
  obtain ⟨text, htext, hwords⟩ := h.text
  have h2 : sizeofTraceOp = 12 := rfl
  have h1 := h.room
  rw [h2] at h1
  have hn : toSize f.numOps = f.ops.length := by
    rw [h.numOps]
    exact toSize_natCast (by omega)
  have hi : toSize (f.numIds - 1) = f.maxIndex := by
    have h3 := h.printable.numIds
    rw [h.numIds] at h3 ⊢
    unfold FitsInt at h3
    unfold toSize
    omega
  have hroom : f.room = f.ops.length := by
    unfold TraceFile.room mulW
    rw [hn, h2, Nat.mod_eq_of_lt (by omega)]
    omega
  rw [htext]
  unfold readTrace
  rw [if_neg (by simp [h.memory])]
  simp only [if_neg (Nat.not_le.mpr h.path)]
  rw [readText_printed h.memory h.printable hwords]
  unfold TraceFile.outcome
  have h4 := h.numIds
  rw [if_neg (by omega), if_neg (by omega), if_neg (by omega)]

/-- the errors of the session, one for each trace that has one -/
def faults : Nat → List TraceFile → List Fault
  | _, [] => []
  | tn, f :: fs => (fault tn f.ops).toList ++ faults (tn + 1) fs

lemma evalTraces_on_mm (hd : Ready A.lo d.heap) (h : List.Forall₂ (Carries A tracedir) jobs fs) :
    Ends (evalTraces mmPackage tracedir tn jobs) d (fun stats e =>
      numcorrect stats + (faults tn fs).length = jobs.length ∧ Reports (faults tn fs) d e) := by
  induction h generalizing tn d with
  | nil => exact ⟨[], d, rfl, rfl, rfl, rfl⟩
  | @cons job f jobs fs hj _ ih =>
    have hsame := stored_same job.env f
    have hload : loadTrace tracedir job d = some ({ f with ops := f.stored job.env },
        { d with blocks := job.blocks, blockSizes := job.blockSizes }) := by
      unfold loadTrace
      rw [hj.read]
    have hl : Trace.Legal ⟨f.numIds.toNat, f.stored job.env⟩ MAX_HEAP := legalFrom_same hsame hj.legal
    have hfault : fault tn (f.stored job.env) = fault tn f.ops := by
      unfold fault
      rw [findIdx?_same hsame]
    unfold evalTraces
    rw [ends_bind, ends_of_run hload, ends_bind]
    have heval : Ends (evalTrace mmPackage tn { f with ops := f.stored job.env })
        { d with blocks := job.blocks, blockSizes := job.blockSizes } (fun st e =>
          Ready A.lo e.heap ∧ (st.valid = 0 ↔ (fault tn (f.stored job.env)).isSome) ∧
            Reports (fault tn (f.stored job.env)).toList _ e) :=
      evalTrace_on_mm hd hl (answers_same hsame hj.answered)
    refine heval.mono fun st c ⟨hready, hvalid, hrep⟩ => ?_
    rw [hfault] at hvalid hrep
    rw [ends_bind]
    refine (ih hready).mono fun stats e he => ?_
    rw [ends_pure]
    refine ⟨?_, ?_⟩
    · have h1 := he.1
      show numcorrect (st :: stats) + ((fault tn f.ops).toList ++ faults (tn + 1) fs).length =
        jobs.length + 1
      unfold numcorrect at h1 ⊢
      rw [List.countP_cons, List.length_append]
      cases hf : fault tn f.ops with
      | none =>
        have hne : st.valid ≠ 0 := fun h0 => by simpa [hf] using hvalid.mp h0
        rw [if_pos (by simpa using hne)]
        simp only [Option.toList_none, List.length_nil]
        omega
      | some x =>
        have h0 : st.valid = 0 := hvalid.mpr (by simp [hf])
        rw [if_neg (by simp [h0])]
        simp only [Option.toList_some, List.length_singleton]
        omega
    · exact (hrep.append he.2).of_silent ⟨rfl, rfl⟩

/-- **A session on `mm.c`**: for any files with traces in them, `main` behind its options returns;
its error lines are those of the first `REALLOC` of a high id in each trace that has one, and the
other traces are correct.  So without such requests nothing is reported, and all traces are
correct. -/
theorem session_on_mm (hd : d.errors = 0) (htrace : d.heap.trace = [])
    (h : List.Forall₂ (Carries A tracedir) jobs fs) : Ends (do
        call (memInit A.lo)
        driverMain mmPackage tracedir jobs) d (fun r e =>
      r.1 + (faults 0 fs).length = jobs.length ∧ r.2 = terminated (faults 0 fs).length ∧
        Reports (faults 0 fs) d e) := by
  have hlo : A.lo ≠ 0 := Nat.ne_of_gt A.pos
  have hinit : call (memInit A.lo) d = some ((), _) :=
    call_eq_some.mpr ⟨_, memInit_run hlo A.room d.heap, rfl⟩
  rw [ends_bind, ends_of_run hinit]
  have hready : Ready A.lo { d.heap with
      memStartBrk := A.lo, memMaxAddr := A.lo + MAX_HEAP, memBrk := A.lo } :=
    ⟨hlo, rfl, rfl, fun e he => absurd (htrace ▸ he) List.not_mem_nil⟩
  unfold driverMain
  rw [ends_bind]
  refine (evalTraces_on_mm hready h).mono fun stats e he => ?_
  obtain ⟨h1, h2⟩ := he
  refine ⟨_, _, rfl, h1, ?_, h2.of_silent ⟨rfl, rfl⟩⟩
  show terminated e.errors = _
  rw [h2.errors]
  show terminated (d.errors + _) = _
  rw [hd, Nat.zero_add]

end

namespace Sample

/-- a block with id 128, then more room for it -/
def highFile : TraceFile := ⟨20000, 129, 2, 1, [⟨.alloc, 128, 8⟩, ⟨.realloc, 128, 16⟩]⟩

def highJob : Job :=
  ⟨"b.rep", some "20000\n129\n2\n1\na 128 8\nr 128 16\n".toList, env, fun _ => 0, fun _ => 0⟩

lemma carried : Carries arena "./" job file :=
  ⟨fun _ _ => rfl, by decide, ⟨text, rfl, by decide +kernel⟩,
    ⟨⟨by decide, by decide, by decide, by decide⟩, by decide⟩, by decide, by decide, by decide,
    by decide, by decide +kernel⟩

lemma high_carried : Carries arena "./" highJob highFile :=
  ⟨fun _ _ => rfl, by decide, ⟨_, rfl, by decide +kernel⟩,
    ⟨⟨by decide, by decide, by decide, by decide⟩, by decide⟩, by decide, by decide, by decide,
    by decide, by decide +kernel⟩

end Sample

/-- three files; the second one has a `REALLOC` of id 128 -/
theorem session_on_mm_sample : Ends (do
      call (memInit 8)
      driverMain mmPackage "./" [Sample.job, Sample.highJob, Sample.job])
    ⟨Sample.start, [], fun _ => 0, fun _ => 0, 0, []⟩
    (fun r e => r.1 + 1 = 3 ∧ r.2 = terminated 1 ∧
      Reports [⟨1, 1, notPreserved⟩] ⟨Sample.start, [], fun _ => 0, fun _ => 0, 0, []⟩ e) := by
  have h : List.Forall₂ (Carries Sample.arena "./") [Sample.job, Sample.highJob, Sample.job]
      [Sample.file, Sample.highFile, Sample.file] :=
    .cons Sample.carried (.cons Sample.high_carried (.cons Sample.carried .nil))
  have hf : faults 0 [Sample.file, Sample.highFile, Sample.file] = [⟨1, 1, notPreserved⟩] := rfl
  have hrun := session_on_mm (d := ⟨Sample.start, [], fun _ => 0, fun _ => 0, 0, []⟩) rfl rfl h
  rw [hf] at hrun
  exact hrun

end SegList

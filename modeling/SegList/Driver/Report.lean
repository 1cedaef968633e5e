import SegList.Driver.ReadTrace
import SegList.Driver.Verdict
import SegList.Model.Session

/-!
# What the driver reports

Against any package, whatever it does:

* `evalMmValid_verdict`   `eval_mm_valid` stops at the first request that does not pass, and reports
                          one error, with the line of this request;
* `session_reported`      so at the end of the session the errors are as many as the traces that are
                          not correct, and each of these has its error line.
-/

set_option linter.unusedSectionVars false

open Bytes Prog

namespace SegList

def errorLine (tracenum opnum : Nat) (msg : String) : String :=
  "ERROR [trace " ++ toString tracenum ++ ", line " ++ toString (LINENUM opnum) ++ "]: " ++ msg ++ "\n"

section
variable {σ α : Type} {P : Package σ} {d e e' : Driver σ} {op : TraceOp} {ops pre : List TraceOp}
  {trace : Trace} {tn i lo : Nat} {size : Int}

/-- one error for request `i`, and nothing else printed -/
def Complains (tn i : Nat) (d e : Driver σ) : Prop :=
  ∃ msg, e.errors = d.errors + 1 ∧ e.printed = errorLine tn i msg :: d.printed

/-- nothing reported -/
structure Silent (d e : Driver σ) : Prop where
  errors : e.errors = d.errors
  printed : e.printed = d.printed

instance : Std.Refl (Silent (σ := σ)) := ⟨fun _ => ⟨rfl, rfl⟩⟩

instance : IsTrans (Driver σ) Silent :=
  ⟨fun _ _ _ h h' => ⟨h'.errors.trans h.errors, h'.printed.trans h.printed⟩⟩

lemma Complains.after (h : Silent d e) (h' : Complains tn i e e') : Complains tn i d e' := by
  obtain ⟨msg, h1, h2⟩ := h'
  exact ⟨msg, by rw [h1, h.errors], by rw [h2, h.printed]⟩

/-! ## one request -/

lemma silent_call {m : Prog σ α} {r : α} (h : call m d = some (r, e)) : Silent d e := by
  obtain ⟨t, -, rfl⟩ := call_eq_some.mp h
  exact ⟨rfl, rfl⟩

lemma complains_of_run {msg : String}
    (h : (mallocError tn i msg >>= fun _ => (pure false : Prog (Driver σ) Bool)) d = some (false, e)) :
    Complains tn i d e := by
  obtain ⟨-, rfl⟩ := Prod.mk.inj (Option.some.inj h)
  exact ⟨msg, rfl, rfl⟩

lemma addRange_complains (h : addRange P lo size tn i d = some (false, e)) : Complains tn i d e := by
  unfold addRange at h
  split at h
  · exact absurd h (by simp [quit])
  split at h
  · exact complains_of_run h
  obtain ⟨heap, d1, h1, h⟩ := bind_eq_some.mp h
  obtain ⟨rfl, rfl⟩ := Prod.mk.inj (Option.some.inj h1)
  split at h
  · exact complains_of_run h
  obtain ⟨o, d2, h2, h⟩ := bind_eq_some.mp h
  obtain ⟨-, rfl⟩ := Prod.mk.inj (Option.some.inj h2)
  cases o with
  | some p => exact complains_of_run h
  | none =>
    obtain ⟨_, d3, -, h⟩ := bind_eq_some.mp h
    exact absurd (Prod.mk.inj (Option.some.inj h)).1 (by simp)

/-- **A request that does not pass is complained of**, once. -/
lemma validOp_complains (h : validOp P tn i op d = some (false, e)) : Complains tn i d e := by
  obtain ⟨type, index, size⟩ := op
  cases type with
  | alloc =>
    obtain ⟨p, d1, h1, h⟩ := bind_eq_some.mp h
    have hs := silent_call h1
    split at h
    · exact (complains_of_run h).after hs
    obtain ⟨b, d2, h2, h⟩ := bind_eq_some.mp h
    cases b with
    | false =>
      obtain ⟨-, rfl⟩ := Prod.mk.inj (Option.some.inj h)
      exact (addRange_complains h2).after hs
    | true => exact absurd (Prod.mk.inj (Option.some.inj h)).1 (by simp)
  | realloc =>
    obtain ⟨oldp, d0, h0, h⟩ := bind_eq_some.mp h
    obtain ⟨rfl, rfl⟩ := Prod.mk.inj (Option.some.inj h0)
    obtain ⟨p, d1, h1, h⟩ := bind_eq_some.mp h
    have hs := silent_call h1
    split at h
    · exact (complains_of_run h).after hs
    obtain ⟨_, d2, h2, h⟩ := bind_eq_some.mp h
    obtain ⟨-, rfl⟩ := Prod.mk.inj (Option.some.inj h2)
    obtain ⟨b, d3, h3, h⟩ := bind_eq_some.mp h
    cases b with
    | false =>
      obtain ⟨-, rfl⟩ := Prod.mk.inj (Option.some.inj h)
      exact (addRange_complains h3).after ⟨hs.errors, hs.printed⟩
    | true =>
      obtain ⟨-, rfl⟩ := addRange_iff.mp h3
      obtain ⟨old, d4, h4, h⟩ := bind_eq_some.mp h
      obtain ⟨rfl, rfl⟩ := Prod.mk.inj (Option.some.inj h4)
      obtain ⟨b, d5, h5, h⟩ := bind_eq_some.mp h
      obtain ⟨-, rfl⟩ := dataKept_iff.mp h5
      cases b with
      | false => exact (complains_of_run h).after ⟨hs.errors, hs.printed⟩
      | true => exact absurd (Prod.mk.inj (Option.some.inj h)).1 (by simp)
  | free =>
    obtain ⟨p, d0, -, h⟩ := bind_eq_some.mp h
    obtain ⟨_, d1, -, h⟩ := bind_eq_some.mp h
    obtain ⟨_, d2, -, h⟩ := bind_eq_some.mp h
    exact absurd (Prod.mk.inj (Option.some.inj h)).1 (by simp)

/-! ## eval_mm_valid -/

/-- request `k` is the first one that does not pass: those before it do, from `d` to `c` -/
def FailsAt (P : Package σ) (d : Driver σ) (ops : List TraceOp) (k : Nat) : Prop :=
  ∃ c op, ops[k]? = some op ∧ Lts.Run (Passed P) d (ops.take k) c ∧ ∀ c', ¬ Passed P c op c'

/-- the loop returns `1` or `0`; if `0`, one request failed and was complained of -/
lemma validOps_cases {v : Int} (h : validOps P tn i ops d = some (v, e)) :
    v = 1 ∧ Lts.Run (Passed P) d ops e ∨
      v = 0 ∧ ∃ k, FailsAt P d ops k ∧ Complains tn (i + k) d e := by
  induction ops generalizing i d with
  | nil =>
    obtain ⟨rfl, rfl⟩ := Prod.mk.inj (Option.some.inj h)
    exact Or.inl ⟨rfl, .nil⟩
  | cons op ops ih =>
    obtain ⟨b, c, h1, h2⟩ := bind_eq_some.mp h
    cases b with
    | false =>
      obtain ⟨rfl, rfl⟩ := Prod.mk.inj (Option.some.inj h2)
      refine Or.inr ⟨rfl, 0, ⟨d, op, rfl, .nil, fun c' hc => ?_⟩, validOp_complains h1⟩
      rw [validOp_iff.mpr hc] at h1
      exact absurd (Prod.mk.inj (Option.some.inj h1)).1 (by simp)
    | true =>
      have hp := validOp_iff.mp h1
      rcases ih h2 with ⟨rfl, h3⟩ | ⟨rfl, k, ⟨c', q, h3, h4, h5⟩, h6⟩
      · exact Or.inl ⟨rfl, Lts.run_cons.mpr ⟨c, hp, h3⟩⟩
      · have hs : Silent d c := ⟨hp.quiet.1, hp.quiet.2⟩
        rw [Nat.add_right_comm] at h6
        exact Or.inr ⟨rfl, k + 1, ⟨c', q, h3, Lts.run_cons.mpr ⟨c, hp, h4⟩, h5⟩, h6.after hs⟩

lemma Started.silent (h : Started P d e) : Silent d e := by
  obtain ⟨r, t, -, -, rfl⟩ := h
  exact ⟨rfl, rfl⟩

/-- what `eval_mm_valid` found and reported: nothing, a package that does not start, or the first
request that fails -/
inductive Verdict (P : Package σ) (trace : Trace) (tn : Nat) (d e : Driver σ) : Int → Prop where
  | correct : (∃ c, Started P d c ∧ Lts.Run (Passed P) c trace.ops e) → Silent d e →
      Verdict P trace tn d e 1
  | notStarted : (∀ c, ¬ Started P d c) → e.errors = d.errors + 1 →
      e.printed = errorLine tn 0 "mm_init failed." :: d.printed → Verdict P trace tn d e 0
  | fails {c : Driver σ} {k : Nat} : Started P d c → FailsAt P c trace.ops k →
      Complains tn k d e → Verdict P trace tn d e 0

/-- **The verdict on any package**: `eval_mm_valid` returns `1` when all requests pass, and reports
nothing then; else it reports one error, with the line of the first request that does not pass. -/
theorem evalMmValid_verdict {v : Int} (h : evalMmValid P trace tn d = some (v, e)) :
    Verdict P trace tn d e v := by
  obtain ⟨_, d1, h1, h⟩ := bind_eq_some.mp h
  obtain ⟨s, hs, rfl⟩ := call_eq_some.mp h1
  obtain ⟨_, d2, h2, h⟩ := bind_eq_some.mp h
  obtain ⟨-, rfl⟩ := Prod.mk.inj (Option.some.inj h2)
  obtain ⟨r, d3, h3, h⟩ := bind_eq_some.mp h
  obtain ⟨t, ht, rfl⟩ := call_eq_some.mp h3
  have hrun : (P.memResetBrk >>= fun _ => P.mmInit) d.heap = some (r, t) :=
    bind_eq_some.mpr ⟨(), s, hs, ht⟩
  by_cases hr : r < 0
  · rw [if_pos hr] at h
    obtain ⟨rfl, rfl⟩ := Prod.mk.inj (Option.some.inj h)
    refine .notStarted (fun c hc => ?_) rfl rfl
    obtain ⟨r', t', hrun', h0, -⟩ := hc
    rw [hrun] at hrun'
    obtain ⟨rfl, -⟩ := Prod.mk.inj (Option.some.inj hrun')
    omega
  · rw [if_neg hr] at h
    have hstart : Started P d { d with heap := t, ranges := [] } := ⟨r, t, hrun, by omega, rfl⟩
    rcases validOps_cases h with ⟨rfl, h4⟩ | ⟨rfl, k, h4, h5⟩
    · have hq := passes_quiet h4
      exact .correct ⟨_, hstart, h4⟩ ⟨hq.1, hq.2⟩
    · rw [Nat.zero_add] at h5
      exact .fails hstart h4 (h5.after hstart.silent)

/-! ## eval_mm_util and eval_mm_speed -/

lemma call_silent (m : Prog σ α) : Moves Silent (call m) := fun _ _ _ h => silent_call h

lemma getBlock_silent (index : Nat) : Moves (σ := Driver σ) Silent (getBlock index) := by
  intro d r e h
  obtain ⟨-, rfl⟩ := Prod.mk.inj (Option.some.inj h)
  exact ⟨rfl, rfl⟩

lemma getBlockSize_silent (index : Nat) : Moves (σ := Driver σ) Silent (getBlockSize index) := by
  intro d r e h
  obtain ⟨-, rfl⟩ := Prod.mk.inj (Option.some.inj h)
  exact ⟨rfl, rfl⟩

lemma setBlock_silent (index p : Nat) : Moves (σ := Driver σ) Silent (setBlock index p) := by
  intro d r e h
  obtain ⟨-, rfl⟩ := Prod.mk.inj (Option.some.inj h)
  exact ⟨rfl, rfl⟩

lemma setBlockSize_silent (index n : Nat) : Moves (σ := Driver σ) Silent (setBlockSize index n) := by
  intro d r e h
  obtain ⟨-, rfl⟩ := Prod.mk.inj (Option.some.inj h)
  exact ⟨rfl, rfl⟩

lemma quit_silent : Moves (σ := Driver σ) Silent (quit (α := α)) := .never fun _ => rfl

lemma utilOp_silent (total : Int × Int) (op : TraceOp) : Moves Silent (utilOp P total op) := by
  unfold utilOp
  split
  · refine (call_silent _).bind fun p => quit_silent.ite ?_
    exact (setBlock_silent _ _).bind fun _ => (setBlockSize_silent _ _).bind fun _ => .pure _
  · refine (getBlockSize_silent _).bind fun _ => (getBlock_silent _).bind fun _ =>
      (call_silent _).bind fun p => quit_silent.ite ?_
    exact (setBlock_silent _ _).bind fun _ => (setBlockSize_silent _ _).bind fun _ => .pure _
  · exact (getBlockSize_silent _).bind fun _ => (getBlock_silent _).bind fun _ =>
      (call_silent _).bind fun _ => .pure _

lemma utilOps_silent (total : Int × Int) (ops : List TraceOp) : Moves Silent (utilOps P total ops) := by
  induction ops generalizing total with
  | nil => exact .pure _
  | cons op ops ih => exact (utilOp_silent total op).bind fun total => ih total

lemma evalMmUtil_silent (trace : Trace) : Moves Silent (evalMmUtil P trace) := by
  refine (call_silent _).bind fun _ => (call_silent _).bind fun r => quit_silent.ite ?_
  refine (utilOps_silent _ _).bind fun total d r e h => ?_
  obtain ⟨-, rfl⟩ := Prod.mk.inj (Option.some.inj h)
  exact ⟨rfl, rfl⟩

lemma speedOp_silent (op : TraceOp) : Moves Silent (speedOp P op) := by
  unfold speedOp
  split
  · exact (call_silent _).bind fun p => quit_silent.ite (setBlock_silent _ _)
  · exact (getBlock_silent _).bind fun _ => (call_silent _).bind fun p =>
      quit_silent.ite (setBlock_silent _ _)
  · exact (getBlock_silent _).bind fun _ => call_silent _

lemma speedOps_silent (ops : List TraceOp) : Moves Silent (speedOps P ops) := by
  induction ops with
  | nil => exact .pure _
  | cons op ops ih => exact (speedOp_silent op).bind fun _ => ih

lemma evalMmSpeed_silent (trace : Trace) : Moves Silent (evalMmSpeed P trace) :=
  (call_silent _).bind fun _ => (call_silent _).bind fun _ => quit_silent.ite (speedOps_silent _)

lemma ftimerGettod_silent {f : Prog (Driver σ) Unit} (hf : Moves Silent f) (n : Nat) :
    Moves Silent (ftimerGettod f n) := by
  induction n with
  | zero => exact .pure _
  | succ n ih => exact hf.bind fun _ => ih

/-! ## the session -/

/-- an error line: number of the trace, number of the request, text -/
structure Fault where
  tracenum : Nat
  opnum : Nat
  msg : String

def Fault.line (x : Fault) : String := errorLine x.tracenum x.opnum x.msg

/-- the fault is there, in a run of the trace from `d`: the package does not start, or the request
named is the first one that does not pass -/
def Fault.Occurs (P : Package σ) (trace : Trace) (d : Driver σ) (x : Fault) : Prop :=
  (∀ c, ¬ Started P d c) ∧ x.opnum = 0 ∧ x.msg = "mm_init failed." ∨
    ∃ c, Started P d c ∧ FailsAt P c trace.ops x.opnum

/-- the line is about a file of the session that begins in `d` with file number `i`, and the fault
is there in the state that the session has come to at this file -/
def Blames (P : Package σ) (tracedir : String) (i : Nat) (jobs : List Job) (d : Driver σ)
    (x : Fault) : Prop :=
  ∃ j job f stats b c, x.tracenum = i + j ∧ jobs[j]? = some job ∧
    evalTraces P tracedir i (jobs.take j) d = some (stats, b) ∧
    loadTrace tracedir job b = some (f, c) ∧ x.Occurs P f.trace c

/-- the numbers of the traces that are not correct, counted from `i` on -/
def incorrect : Nat → List Stats → List Nat
  | _, [] => []
  | i, st :: stats => if st.valid = 0 then i :: incorrect (i + 1) stats else incorrect (i + 1) stats

/-- from `d` to `e` the faults were reported, in this order -/
structure Reports (faults : List Fault) (d e : Driver σ) : Prop where
  errors : e.errors = d.errors + faults.length
  printed : e.printed = (faults.map Fault.line).reverse ++ d.printed

variable {job : Job} {jobs : List Job} {stats : List Stats} {st : Stats} {tracedir : String}
  {f : TraceFile} {xs ys : List Fault}

lemma Silent.reports (h : Silent d e) : Reports [] d e := ⟨h.errors, h.printed⟩

lemma Reports.append (h : Reports xs d e) (h' : Reports ys e e') : Reports (xs ++ ys) d e' := by
  refine ⟨?_, ?_⟩
  · rw [h'.errors, h.errors, List.length_append, Nat.add_assoc]
  · rw [h'.printed, h.printed, List.map_append, List.reverse_append, List.append_assoc]

lemma Verdict.fault {v : Int} (h : Verdict P trace tn d e v) :
    v = 1 ∧ Reports [] d e ∨
      v = 0 ∧ ∃ x : Fault, x.tracenum = tn ∧ Reports [x] d e ∧ x.Occurs P trace d := by
  cases h with
  | correct _ hs => exact Or.inl ⟨rfl, hs.reports⟩
  | notStarted hno h1 h2 =>
    exact Or.inr ⟨rfl, ⟨tn, 0, _⟩, rfl, ⟨h1, h2⟩, Or.inl ⟨hno, rfl, rfl⟩⟩
  | fails hstart hfails hc =>
    obtain ⟨msg, h1, h2⟩ := hc
    exact Or.inr ⟨rfl, ⟨tn, _, msg⟩, rfl, ⟨h1, h2⟩, Or.inr ⟨_, hstart, hfails⟩⟩

/-- the runs of one trace: only the first of them reports -/
lemma evalTrace_reports (h : evalTrace P tn f d = some (st, e)) :
    st.valid = 1 ∧ Reports [] d e ∨
      st.valid = 0 ∧ ∃ x : Fault, x.tracenum = tn ∧ Reports [x] d e ∧ x.Occurs P f.trace d := by
  obtain ⟨v, d1, h1, h⟩ := bind_eq_some.mp h
  rcases (evalMmValid_verdict h1).fault with ⟨rfl, hr⟩ | ⟨rfl, hr⟩
  · rw [if_pos (by simp)] at h
    obtain ⟨util, d2, h2, h⟩ := bind_eq_some.mp h
    obtain ⟨_, d3, h3, h⟩ := bind_eq_some.mp h
    obtain ⟨rfl, rfl⟩ := Prod.mk.inj (Option.some.inj h)
    have h4 := evalMmUtil_silent _ _ _ _ h2
    have h5 := ftimerGettod_silent (evalMmSpeed_silent _) 10 _ _ _ h3
    exact Or.inl ⟨rfl, (hr.append h4.reports).append h5.reports⟩
  · rw [if_neg (by simp)] at h
    obtain ⟨rfl, rfl⟩ := Prod.mk.inj (Option.some.inj h)
    exact Or.inr ⟨rfl, hr⟩

lemma loadTrace_silent (job : Job) : Moves (σ := Driver σ) Silent (loadTrace tracedir job) := by
  intro d f e h
  unfold loadTrace at h
  split at h
  · obtain ⟨-, rfl⟩ := Prod.mk.inj (Option.some.inj h)
    exact ⟨rfl, rfl⟩
  · exact nomatch h

lemma Blames.cons {x : Fault} {c : Driver σ} (h : Blames P tracedir (i + 1) jobs e x)
    (h1 : loadTrace tracedir job d = some (f, c)) (h2 : evalTrace P i f c = some (st, e)) :
    Blames P tracedir i (job :: jobs) d x := by
  obtain ⟨j, job', f', stats, b, c', e1, e2, h3, h4⟩ := h
  refine ⟨j + 1, job', f', st :: stats, b, c', by omega, e2, ?_, h4⟩
  exact bind_eq_some.mpr ⟨f, c, h1, bind_eq_some.mpr ⟨st, e, h2,
    bind_eq_some.mpr ⟨stats, b, h3, rfl⟩⟩⟩

/-- every trace of the session has its entry, and every fault its trace -/
structure Tally (P : Package σ) (tracedir : String) (i : Nat) (jobs : List Job) (d : Driver σ)
    (stats : List Stats) (faults : List Fault) : Prop where
  length : stats.length = jobs.length
  verdict : ∀ st ∈ stats, st.valid = 0 ∨ st.valid = 1
  incorrect : faults.map Fault.tracenum = incorrect i stats
  blames : ∀ x ∈ faults, Blames P tracedir i jobs d x

lemma evalTraces_reports (h : evalTraces P tracedir i jobs d = some (stats, e)) :
    ∃ faults, Reports faults d e ∧ Tally P tracedir i jobs d stats faults := by
  -- induction on the files
  induction jobs generalizing i d stats with
  | nil =>
    obtain ⟨rfl, rfl⟩ := Prod.mk.inj (Option.some.inj h)
    exact ⟨[], ⟨rfl, rfl⟩, rfl, fun st hst => absurd hst List.not_mem_nil, rfl,
      fun x hx => absurd hx List.not_mem_nil⟩
  | cons job jobs ih =>
    obtain ⟨f, d1, h1, h⟩ := bind_eq_some.mp h
    obtain ⟨st, d2, h2, h⟩ := bind_eq_some.mp h
    obtain ⟨rest, d3, h3, h⟩ := bind_eq_some.mp h
    obtain ⟨rfl, rfl⟩ := Prod.mk.inj (Option.some.inj h)
    have hs := loadTrace_silent job _ _ _ h1
    obtain ⟨xs, hr, ht⟩ := ih h3
    have hlen : (st :: rest).length = (job :: jobs).length := by
      rw [List.length_cons, List.length_cons, ht.length]
    have hnext : ∀ x ∈ xs, Blames P tracedir i (job :: jobs) d x :=
      fun x hx => (ht.blames x hx).cons h1 h2
    rcases evalTrace_reports h2 with ⟨hv, hr1⟩ | ⟨hv, x, hx, hr1, ho⟩
    · refine ⟨xs, (hs.reports.append hr1).append hr, hlen, ?_, ?_, hnext⟩
      · exact List.forall_mem_cons.mpr ⟨Or.inr hv, ht.verdict⟩
      · rw [ht.incorrect]
        show _ = if st.valid = 0 then _ else _
        rw [if_neg (by rw [hv]; simp)]
    · refine ⟨x :: xs, (hs.reports.append hr1).append hr, hlen, ?_, ?_, ?_⟩
      · exact List.forall_mem_cons.mpr ⟨Or.inl hv, ht.verdict⟩
      · rw [List.map_cons, ht.incorrect, hx]
        show _ = if st.valid = 0 then _ else _
        rw [if_pos hv]
      · exact List.forall_mem_cons.mpr ⟨⟨0, job, f, [], d, d1, hx, rfl, rfl, h1, ho⟩, hnext⟩

lemma numcorrect_add_incorrect :
    numcorrect stats + (incorrect i stats).length = stats.length := by
  induction stats generalizing i with
  | nil => rfl
  | cons st stats ih =>
    have h := ih (i := i + 1)
    unfold numcorrect at h ⊢
    unfold incorrect
    rw [List.countP_cons, List.length_cons]
    by_cases hv : st.valid = 0
    · rw [if_pos hv, if_neg (by simp [hv]), List.length_cons]
      omega
    · rw [if_neg hv, if_pos (by simp [hv])]
      omega

lemma terminated_eq_none {n : Nat} : terminated n = none ↔ n = 0 := by
  unfold terminated
  split <;> simp_all

/-- **What a session reports**, whatever the package does: for each file that is not correct there
is one error line, which names this file and the first of its requests that does not pass, and there
are no others.  So the correct files and the errors together are the files, and the line with the
number of errors is left out exactly when every file is correct. -/
theorem session_reported {n : Nat} {line : Option String} (hd : d.errors = 0)
    (h : driverMain P tracedir jobs d = some ((n, line), e)) :
    ∃ stats faults, Reports faults d e ∧ Tally P tracedir 0 jobs d stats faults ∧
      n = numcorrect stats ∧ n + e.errors = jobs.length ∧ (line = none ↔ n = jobs.length) := by
  obtain ⟨stats, d1, h1, h2⟩ := bind_eq_some.mp h
  obtain ⟨h3, rfl⟩ := Prod.mk.inj (Option.some.inj h2)
  obtain ⟨rfl, rfl⟩ := Prod.mk.inj h3
  obtain ⟨faults, hr, ht⟩ := evalTraces_reports h1
  have hnum : numcorrect stats + (incorrect 0 stats).length = stats.length :=
    numcorrect_add_incorrect
  have hlen : (incorrect 0 stats).length = faults.length := by
    rw [← ht.incorrect, List.length_map]
  have herr : d1.errors = faults.length := by rw [hr.errors, hd, Nat.zero_add]
  rw [ht.length, hlen] at hnum
  refine ⟨stats, faults, hr, ht, rfl, by omega, ?_⟩
  rw [terminated_eq_none]
  omega

end

namespace Sample

/-- the file with one block, found on the disk -/
def job : Job := ⟨"a.rep", some text, env, fun _ => 0, fun _ => 0⟩

lemma session_run : ∃ e, driverMain scripted "./" [job] (scene [12]) =
    some ((0, some "Terminated with 1 errors\n"), e) := by
  have h : (driverMain scripted "./" [job] (scene [12])).map Prod.fst =
      some (0, some "Terminated with 1 errors\n") := by decide +kernel
  obtain ⟨⟨v, e⟩, h1, rfl⟩ := Option.map_eq_some_iff.mp h
  exact ⟨e, h1⟩

end Sample

/-- a payload at 12 is not aligned -/
theorem session_reported_sample : ∃ e stats faults, Reports faults (Sample.scene [12]) e ∧
    Tally Sample.scripted "./" 0 [Sample.job] (Sample.scene [12]) stats faults ∧
    0 = numcorrect stats ∧ 0 + e.errors = 1 ∧
    (some "Terminated with 1 errors\n" = none ↔ 0 = 1) := by
  obtain ⟨e, he⟩ := Sample.session_run
  exact ⟨e, session_reported rfl he⟩

end SegList

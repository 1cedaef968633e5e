import SegList.Driver.Rounds
import SegList.Lib.Lockstep
import SegList.Model.Libc

/-!
# What is timed is what is measured

`eval_mm_util`, `eval_mm_speed`, `eval_libc_valid` and `eval_libc_speed` have a loop each, written
out four times.  The four loops make the same calls (`loops_agree`): whatever the functions that are
called, they all return or all exit, and leave the same heap and the same pointers.  Only the loop of
`eval_mm_valid` writes the payloads between the calls, and is left out.
-/

set_option linter.unusedSectionVars false

open Bytes Prog

namespace SegList

section
variable {σ α : Type} {P : Package σ} {op : TraceOp} {ops : List TraceOp} {total : Int × Int}
  {tn i p n : Nat}

/-- the same heap and the same array `blocks` -/
def SameMemory (d d' : Driver σ) : Prop := d'.heap = d.heap ∧ d'.blocks = d.blocks

/-! ## the statements of the loops -/

lemma call_lockstep (m : Prog σ α) : Lockstep SameMemory Eq (call m) (call m) := by
  rintro d d' ⟨hh, hb⟩
  unfold call
  rw [hh]
  cases m d.heap with
  | none => exact .none
  | some x => exact .some ⟨rfl, rfl, hb⟩

lemma quit_lockstep {β : Type} {V : α → β → Prop} {m : Prog (Driver σ) β} (h : ∀ d, m d = none) :
    Lockstep SameMemory V (quit : Prog (Driver σ) α) m := .never (fun _ => rfl) h

lemma setBlock_lockstep : Lockstep (SameMemory (σ := σ)) Eq (setBlock i p) (setBlock i p) := by
  rintro d d' ⟨hh, hb⟩
  refine .some ⟨rfl, hh, ?_⟩
  show Function.update d'.blocks i p = Function.update d.blocks i p
  rw [hb]

lemma getBlock_lockstep : Lockstep (SameMemory (σ := σ)) Eq (getBlock i) (getBlock i) := by
  rintro d d' ⟨hh, hb⟩
  exact .some ⟨(congrFun hb i).symm, hh, hb⟩

lemma setBlockSize_unseen : Unseen (SameMemory (σ := σ)) (setBlockSize i n) :=
  fun _ => ⟨_, _, rfl, fun _ h => h⟩

lemma getBlockSize_unseen : Unseen (SameMemory (σ := σ)) (getBlockSize i) :=
  fun _ => ⟨_, _, rfl, fun _ h => h⟩

/-! ## one request -/

/-- a request for memory and what comes behind it, which exits when there is none -/
lemma request_lockstep {β : Type} {V : Unit → β → Prop} {m : Prog σ Nat} {f : Nat → Prog (Driver σ) β}
    {e : Prog (Driver σ) β} (he : ∀ d, e d = none) (hf : ∀ p, Lockstep SameMemory V (setBlock i p) (f p)) :
    Lockstep SameMemory V (call m >>= fun p => if p = 0 then quit else setBlock i p)
      (call m >>= fun p => if p = 0 then e else f p) := by
  refine (call_lockstep m).bind ?_
  rintro p p' rfl
  exact .ite Iff.rfl (quit_lockstep he) (hf p)

lemma speedOp_util : Lockstep SameMemory (fun _ _ => True) (speedOp P op) (utilOp P total op) := by
  obtain ⟨type, index, size⟩ := op
  -- behind a request `eval_mm_util` keeps the size and adds it up
  have hset : ∀ p (x : Int × Int), Lockstep (SameMemory (σ := σ)) (fun _ _ => True) (setBlock index p)
      (setBlock index p >>= fun _ => setBlockSize index (toSize size) >>= fun _ => pure x) :=
    fun p x => setBlock_lockstep.behind fun _ _ _ => .front setBlockSize_unseen fun _ => .pure trivial
  unfold speedOp utilOp
  cases type with
  | alloc => exact request_lockstep (fun _ => rfl) fun p => hset p _
  | realloc =>
    refine .front getBlockSize_unseen fun oldsize => getBlock_lockstep.bind ?_
    rintro oldp _ rfl
    exact request_lockstep (fun _ => rfl) fun p => hset p _
  | free =>
    refine .front getBlockSize_unseen fun oldsize => getBlock_lockstep.bind ?_
    rintro p _ rfl
    exact (call_lockstep _).behind fun _ _ _ => .pure trivial

lemma speedOp_libcValid :
    Lockstep SameMemory Eq (speedOp P op) (libcValidOp P.libc tn i op) := by
  obtain ⟨type, index, size⟩ := op
  unfold speedOp libcValidOp
  cases type with
  | alloc => exact request_lockstep (fun _ => rfl) fun p => setBlock_lockstep
  | realloc =>
    refine getBlock_lockstep.bind ?_
    rintro oldp _ rfl
    exact request_lockstep (fun _ => rfl) fun p => setBlock_lockstep
  | free =>
    refine getBlock_lockstep.bind ?_
    rintro p _ rfl
    exact call_lockstep _

lemma speedOp_libcSpeed : Lockstep SameMemory Eq (speedOp P op) (libcSpeedOp P.libc op) := by
  obtain ⟨type, index, size⟩ := op
  unfold speedOp libcSpeedOp
  cases type with
  | alloc => exact request_lockstep (fun _ => rfl) fun p => setBlock_lockstep
  | realloc =>
    refine getBlock_lockstep.bind ?_
    rintro oldp _ rfl
    exact request_lockstep (fun _ => rfl) fun p => setBlock_lockstep
  | free =>
    refine getBlock_lockstep.bind ?_
    rintro p _ rfl
    exact call_lockstep _

/-! ## the loops -/

lemma speedOps_util :
    Lockstep SameMemory (fun _ _ => True) (speedOps P ops) (utilOps P total ops) := by
  induction ops generalizing total with
  | nil => exact .pure trivial
  | cons op ops ih => exact speedOp_util.bind fun _ _ _ => ih

lemma speedOps_libcSpeed : Lockstep SameMemory Eq (speedOps P ops) (libcSpeedOps P.libc ops) := by
  induction ops with
  | nil => exact .pure rfl
  | cons op ops ih => exact speedOp_libcSpeed.bind fun _ _ _ => ih

lemma speedOps_libcValid :
    Lockstep SameMemory (fun _ x => x = 1) (speedOps P ops) (libcValidOps P.libc tn i ops) := by
  induction ops generalizing i with
  | nil => exact .pure rfl
  | cons op ops ih => exact speedOp_libcValid.bind fun _ _ _ => ih

/-- **The four loops agree**, over any functions and on any trace: from states with the same heap and
pointers, `eval_mm_speed` returns if and only if `eval_mm_util` does, and its loop if and only if
`eval_libc_speed` and `eval_libc_valid` do over the same functions; the heap and the pointers are then
the same again, and `eval_libc_valid` returns `1`. -/
theorem loops_agree (P : Package σ) (trace : Trace) (tracenum : Nat) :
    Lockstep SameMemory (fun _ _ => True) (evalMmSpeed P trace) (evalMmUtil P trace) ∧
    Lockstep SameMemory Eq (speedOps P trace.ops) (evalLibcSpeed P.libc trace) ∧
    Lockstep SameMemory (fun _ x => x = 1) (speedOps P trace.ops)
      (evalLibcValid P.libc trace tracenum) := by
  refine ⟨?_, speedOps_libcSpeed, speedOps_libcValid⟩
  unfold evalMmSpeed evalMmUtil
  refine (call_lockstep _).bind fun _ _ _ => (call_lockstep _).bind ?_
  rintro r _ rfl
  refine .ite Iff.rfl (quit_lockstep fun _ => rfl) (speedOps_util.behind fun _ _ _ => ?_)
  exact fun _ _ h => .some ⟨trivial, h⟩

end
end SegList

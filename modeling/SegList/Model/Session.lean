import SegList.Model.Trace

/-!
# mdriver.c: the run over the trace files

`main` reads the trace files one after the other and runs each three times against the package: once
for correctness, and if it is correct once for space and ten times for time.  The range list, the
heap and the number of errors go from one trace to the next, the arrays of a trace do not.

The options and the text of the results are left out, and the clock: of the timing functions only
the calls of the function that is timed are left.
-/

open Prog

namespace SegList

/-- `mm_stats[i]`: `util` is the quotient of its two numbers, or the `0` of `calloc` -/
structure Stats where
  ops : Int
  valid : Int
  util : Option (Int × Nat)
deriving DecidableEq, Repr

/-- a trace file, what `read_trace` finds in memory, and what is in the fresh arrays `blocks` and
`block_sizes` -/
structure Job where
  filename : String
  file : Option (List Char)
  env : Env
  blocks : Nat → Nat
  blockSizes : Nat → Nat

section
variable {σ : Type}

/-- `ftimer_gettod(f, argp, n)` without the clock -/
def ftimerGettod (f : Prog (Driver σ) Unit) : Nat → Prog (Driver σ) Unit
  | 0 => return ()
  | n + 1 => do
    f
    ftimerGettod f n

/-- `fsecs(f, argp)` with `USE_GETTOD` -/
def fsecs (f : Prog (Driver σ) Unit) : Prog (Driver σ) Unit := ftimerGettod f 10

/-- `read_trace` in the loop of `main` -/
def loadTrace (tracedir : String) (job : Job) : Prog (Driver σ) TraceFile := fun d =>
  match readTrace job.env tracedir job.filename job.file with
  | .ok f => some (f, { d with blocks := job.blocks, blockSizes := job.blockSizes })
  | .error _ => none

/-- the runs of one trace -/
def evalTrace (P : Package σ) (tracenum : Nat) (f : TraceFile) : Prog (Driver σ) Stats := do
  let valid ← evalMmValid P f.trace tracenum
  if valid ≠ 0 then
    let util ← evalMmUtil P f.trace
    fsecs (evalMmSpeed P f.trace)
    return ⟨f.numOps, valid, some util⟩
  else
    return ⟨f.numOps, valid, none⟩

/-- the loop of `main` over the trace files, from number `i` on -/
def evalTraces (P : Package σ) (tracedir : String) : Nat → List Job → Prog (Driver σ) (List Stats)
  | _, [] => return []
  | i, job :: jobs => do
    let f ← loadTrace tracedir job
    let stats ← evalTrace P i f
    return stats :: (← evalTraces P tracedir (i + 1) jobs)

def numcorrect (stats : List Stats) : Nat := stats.countP fun st => st.valid ≠ 0

/-- the line in place of the performance index -/
def terminated (errors : Nat) : Option String :=
  if errors = 0 then none else some ("Terminated with " ++ toString errors ++ " errors\n")

/-- `main` behind `mem_init`: the number of correct traces, and the line that is printed when there
were errors -/
def driverMain (P : Package σ) (tracedir : String) (jobs : List Job) :
    Prog (Driver σ) (Nat × Option String) := do
  let stats ← evalTraces P tracedir 0 jobs
  fun d => some ((numcorrect stats, terminated d.errors), d)

end
end SegList

import SegList.Lib.Scan
import SegList.Model.Driver

/-!
# mdriver.c: reading a trace file

`read_trace` reads four numbers and then requests, one after the other, with `fscanf`.  What it does
not return from is a `Stop`: an `exit(1)`, a failed assertion, or what C leaves undefined: a number
that its type does not hold, a word that `type` has no room for, a request behind the end of
`trace->ops`.

Numbers that are not there leave their variable as it was, so what was in memory before is a part of
the input (`Env`), as is whether the C library has memory.  An `index` is kept as an `unsigned`, a
`size` as an `int`.
-/

open Bytes Scan

namespace SegList

def MAXLINE : Nat := 1024

/-- `sizeof(trace_t)`, `sizeof(traceop_t)` and the size of a pointer or a `size_t` (`gcc -m32`) -/
def sizeofTrace : Nat := 28
def sizeofTraceOp : Nat := 12
def sizeofPointer : Nat := 4

/-- why `read_trace` does not return -/
inductive Stop where
  /-- `exit(1)` after this text was printed -/
  | exit (text : String)
  /-- a failed `assert` -/
  | assertion (text : String)
  /-- C does not say what happens -/
  | undefined
deriving DecidableEq, Repr

/-- `trace_t` without the arrays `blocks` and `block_sizes`; both have `num_ids` entries -/
structure TraceFile where
  suggHeapsize : Int
  numIds : Int
  numOps : Int
  weight : Int
  ops : List TraceOp
deriving DecidableEq, Repr

/-- the trace as the rest of the driver uses it -/
def TraceFile.trace (f : TraceFile) : Trace := ⟨f.numIds.toNat, f.ops⟩

/-- the requests that `trace->ops` has room for: `num_ops * sizeof(traceop_t)` is a `size_t` -/
def TraceFile.room (f : TraceFile) : Nat := mulW (toSize f.numOps) sizeofTraceOp / sizeofTraceOp

/-- a C `int` -/
def FitsInt (i : Int) : Prop := -2 ^ 31 ≤ i ∧ i < 2 ^ 31

instance (i : Int) : Decidable (FitsInt i) := inferInstanceAs (Decidable (_ ∧ _))

/-- the four numbers in front are `int`s -/
structure TraceFile.HeaderFits (f : TraceFile) : Prop where
  suggHeapsize : FitsInt f.suggHeapsize
  numIds : FitsInt f.numIds
  numOps : FitsInt f.numOps
  weight : FitsInt f.weight

/-- what `read_trace` finds: memory of the C library, and what is in memory before it is written -/
structure Env where
  /-- the `k`-th `malloc` gets that many bytes -/
  gets : Nat → Nat → Bool
  /-- `strerror(errno)` -/
  strerror : String
  /-- the numbers in the fresh trace record -/
  header : TraceFile
  header_fits : header.HeaderFits
  /-- the local variable `size` -/
  size : Nat
  size_lt : size < 2 ^ 32
  /-- the `size` fields in the fresh array `trace->ops` -/
  sizes : Nat → Int
  sizes_fit : ∀ i, FitsInt (sizes i)

def unixError {α : Type} (env : Env) (msg : String) : Except Stop α :=
  .error (.exit (msg ++ ": " ++ env.strerror ++ "\n"))

/-- `fscanf(tracefile, "%d", &old)` -/
def scanInt (old : Int) (s : List Char) : Except Stop (Int × List Char) :=
  match number s with
  | (none, s) => .ok (old, s)
  | (some i, s) => if FitsInt i then .ok (i, s) else .error .undefined

/-- `%u`: the number, if there is one -/
def scanUnsigned (s : List Char) : Except Stop (Option Nat × List Char) :=
  match number s with
  | (none, s) => .ok (none, s)
  | (some i, s) => if i.natAbs < 2 ^ 32 then .ok (some (i % 2 ^ 32).toNat, s) else .error .undefined

/-- the variables of the loop; the length of `ops` is `op_index` -/
structure Reader where
  index : Nat
  size : Nat
  maxIndex : Nat
  ops : List TraceOp

/-- `trace->ops[op_index] = ...; op_index++` for an array of `room` requests -/
def Reader.push (r : Reader) (room : Nat) (op : TraceOp) : Except Stop Reader :=
  if r.ops.length < room then .ok { r with ops := r.ops ++ [op] } else .error .undefined

/-- `fscanf(tracefile, "%u %u", &index, &size)` -/
def scanTwo (r : Reader) (s : List Char) : Except Stop (Reader × List Char) := do
  match ← scanUnsigned s with
  | (none, s) => return (r, s)
  | (some index, s) =>
    let (size, s) ← scanUnsigned s
    return ({ r with index := index, size := size.getD r.size }, s)

/-- `max_index = (index > max_index) ? index : max_index` -/
def Reader.maximum (r : Reader) : Reader :=
  { r with maxIndex := if r.index > r.maxIndex then r.index else r.maxIndex }

/-- the cases `'a'` and `'r'` -/
def readSized (room : Nat) (type : OpType) (r : Reader) (s : List Char) :
    Except Stop (Reader × List Char) := do
  let (r, s) ← scanTwo r s
  let r ← r.push room ⟨type, r.index, toInt r.size⟩
  return (r.maximum, s)

/-- `fscanf(tracefile, "%ud", &index)`, where the `d` is a character of the format -/
def scanOne (r : Reader) (s : List Char) : Except Stop (Reader × List Char) := do
  match ← scanUnsigned s with
  | (none, s) => return (r, s)
  | (some index, s) => return ({ r with index := index }, literal 'd' s)

/-- the case `'f'`: the field `size` is not written -/
def readFree (env : Env) (room : Nat) (r : Reader) (s : List Char) :
    Except Stop (Reader × List Char) := do
  let (r, s) ← scanOne r s
  let r ← r.push room ⟨.free, r.index, env.sizes r.ops.length⟩
  return (r, s)

/-- one round of the loop, after the word `type` was read -/
def readOp (env : Env) (path : String) (room : Nat) (type : List Char) (r : Reader) (s : List Char) :
    Except Stop (Reader × List Char) :=
  match type with
  | 'a' :: _ => readSized room .alloc r s
  | 'r' :: _ => readSized room .realloc r s
  | 'f' :: _ => readFree env room r s
  | c :: _ => .error (.exit ("Bogus type character (" ++ String.singleton c ++ ") in tracefile " ++
      path ++ "\n"))
  | [] => .error .undefined

/-- the loop of `read_trace`.  Every round reads a word, so there are fewer rounds than characters. -/
def readOps (env : Env) (path : String) (room : Nat) :
    Nat → Reader → List Char → Except Stop Reader
  | 0, _, _ => .error .undefined
  | fuel + 1, r, s =>
    match word s with
    | none => .ok r
    | some (type, s) =>
      if MAXLINE ≤ type.length then .error .undefined
      else do
        let (r, s) ← readOp env path room type r s
        readOps env path room fuel r s

/-- the four numbers in front -/
def readHeader (env : Env) (s : List Char) : Except Stop (TraceFile × List Char) := do
  let (suggHeapsize, s) ← scanInt env.header.suggHeapsize s
  let (numIds, s) ← scanInt env.header.numIds s
  let (numOps, s) ← scanInt env.header.numOps s
  let (weight, s) ← scanInt env.header.weight s
  return (⟨suggHeapsize, numIds, numOps, weight, []⟩, s)

/-- the two assertions at the end; `num_ids - 1` is an `int` -/
def checkCounts (f : TraceFile) (r : Reader) : Except Stop TraceFile :=
  if f.numIds = -2 ^ 31 then .error .undefined
  else if r.maxIndex ≠ toSize (f.numIds - 1) then
    .error (.assertion "max_index == trace->num_ids - 1")
  else if toSize f.numOps ≠ r.ops.length then .error (.assertion "trace->num_ops == op_index")
  else .ok { f with ops := r.ops }

/-- `read_trace` behind `fopen` -/
def readText (env : Env) (path : String) (text : List Char) : Except Stop TraceFile := do
  let (f, s) ← readHeader env text
  if ¬ env.gets 2 (mulW (toSize f.numOps) sizeofTraceOp) then
    unixError env "malloc 2 failed in read_trace"
  else if ¬ env.gets 3 (mulW (toSize f.numIds) sizeofPointer) then
    unixError env "malloc 3 failed in read_trace"
  else if ¬ env.gets 4 (mulW (toSize f.numIds) sizeofPointer) then
    unixError env "malloc 4 failed in read_trace"
  else
    checkCounts f (← readOps env path f.room (text.length + 1) ⟨0, env.size, 0, []⟩ s)

/-- `read_trace`; `file` is the text of the file, if it can be opened -/
def readTrace (env : Env) (tracedir filename : String) (file : Option (List Char)) :
    Except Stop TraceFile :=
  let path := tracedir ++ filename
  if ¬ env.gets 1 sizeofTrace then unixError env "malloc 1 failed in read_trance"
  else if MAXLINE ≤ path.length then .error .undefined
  else
    match file with
    | none =>
      let msg := "Could not open " ++ path ++ " in read_trace"
      if MAXLINE ≤ msg.length then .error .undefined else unixError env msg
    | some text => readText env path text

end SegList

import SegList.Model.Mm

/-!
# mdriver.c: the trace driver

The driver reads a trace of requests and runs it three times against a malloc package: for
correctness (`eval_mm_valid`), for space (`eval_mm_util`) and for time (`eval_mm_speed`).  It knows
the package by its functions only, so they are a parameter, `Package`; `mmPackage` is the package
of `mm.c` on the simulated break of `memlib.c`.

`char` is signed (`gcc -m32` on x86).  The C library's `malloc` of a range record succeeds: else the
driver exits.
-/

open Bytes Prog

namespace SegList

/-! ## numbers and pointers of the driver -/

/-- an `int` passed as a `size_t` -/
def toSize (i : Int) : Nat := (i % 2 ^ 32).toNat

/-- a byte read through a `char *`, as an `int` -/
def charInt (b : UInt8) : Int := if b.toNat < 128 then b.toNat else b.toNat - 256

/-- `index & 0xFF` -/
def lowByte (index : Nat) : Nat := index &&& 0xFF

/-- `%p` -/
def pointerText (p : Nat) : String :=
  if p = 0 then "(nil)" else "0x" ++ String.ofList (Nat.toDigits 16 p)

def LINENUM (i : Nat) : Nat := i + 5

/-! ## the package under test -/

/-- what the driver calls: `memlib.c` and a malloc package over it, and the bytes behind pointers -/
structure Package (σ : Type) where
  memResetBrk : Prog σ Unit
  memHeapLo : σ → Nat
  memHeapHi : σ → Nat
  memHeapsize : σ → Nat
  mmInit : Prog σ Int
  mmMalloc : Nat → Prog σ Nat
  mmRealloc : Nat → Nat → Prog σ Nat
  mmFree : Nat → Prog σ Unit
  /-- the byte behind a pointer -/
  load : σ → Nat → UInt8
  /-- `memset(p, v, len)` -/
  memset : Nat → UInt8 → Nat → σ → σ
  /-- the end of the heap is a 32-bit address -/
  memHeapHi_lt : ∀ s, memHeapHi s < 2 ^ 32

/-! ## the data of the driver -/

/-- `range_t`: the extent of a payload, both ends included -/
structure Range where
  lo : Nat
  hi : Nat
deriving DecidableEq, Repr

inductive OpType where
  | alloc
  | free
  | realloc
deriving DecidableEq, Repr

/-- `traceop_t` -/
structure TraceOp where
  type : OpType
  index : Nat
  size : Int
deriving DecidableEq, Repr

/-- what is used of `trace_t`; its arrays `blocks` and `block_sizes` are in `Driver` -/
structure Trace where
  numIds : Nat
  ops : List TraceOp
deriving DecidableEq, Repr

/-- the package's state, the range list, the arrays of the trace, the number of errors and the
texts they printed -/
structure Driver (σ : Type) where
  heap : σ
  ranges : List Range
  blocks : Nat → Nat
  blockSizes : Nat → Nat
  errors : Nat
  printed : List String

section
variable {σ α : Type}

/-- a function of the package called -/
def call (m : Prog σ α) : Prog (Driver σ) α := fun d =>
  (m d.heap).map fun x => (x.1, { d with heap := x.2 })

/-- `exit(1)`, a failed assertion -/
def quit : Prog (Driver σ) α := fun _ => none

def mallocError (tracenum opnum : Nat) (msg : String) : Prog (Driver σ) Unit := fun d =>
  some ((), { d with
    errors := d.errors + 1
    printed := ("ERROR [trace " ++ toString tracenum ++ ", line " ++ toString (LINENUM opnum) ++
      "]: " ++ msg ++ "\n") :: d.printed })

def setBlock (index p : Nat) : Prog (Driver σ) Unit := fun d =>
  some ((), { d with blocks := Function.update d.blocks index p })

def setBlockSize (index size : Nat) : Prog (Driver σ) Unit := fun d =>
  some ((), { d with blockSizes := Function.update d.blockSizes index size })

def getBlock (index : Nat) : Prog (Driver σ) Nat := fun d => some (d.blocks index, d)

def getBlockSize (index : Nat) : Prog (Driver σ) Nat := fun d => some (d.blockSizes index, d)

/-! ## the range list -/

/-- the overlap test of `add_range`: one end of the new payload lies in the old one -/
def Range.meets (p : Range) (lo hi : Nat) : Prop :=
  lo ≥ p.lo ∧ lo ≤ p.hi ∨ hi ≥ p.lo ∧ hi ≤ p.hi

instance (p : Range) (lo hi : Nat) : Decidable (p.meets lo hi) :=
  inferInstanceAs (Decidable (_ ∧ _ ∨ _ ∧ _))

def pushRange (r : Range) : Prog (Driver σ) Unit := fun d =>
  some ((), { d with ranges := r :: d.ranges })

/-- the loop of `add_range`: the first old payload that the new one meets -/
def findMeeting (lo hi : Nat) : Prog (Driver σ) (Option Range) := fun d =>
  some (d.ranges.find? (fun p => p.meets lo hi), d)

/-- `mem_heap_lo`, `mem_heap_hi` -/
def heapExtent (P : Package σ) : Prog (Driver σ) (Nat × Nat) := fun d =>
  some ((P.memHeapLo d.heap, P.memHeapHi d.heap), d)

def addRange (P : Package σ) (lo : Nat) (size : Int) (tracenum opnum : Nat) :
    Prog (Driver σ) Bool := do
  let hi := subW (offset lo size) 1
  if ¬ 0 < size then
    quit
  else if lo % ALIGNMENT ≠ 0 then
    mallocError tracenum opnum ("Payload address (" ++ pointerText lo ++ ") not aligned to " ++
      toString ALIGNMENT ++ " bytes")
    return false
  else
    let heap ← heapExtent P
    if lo < heap.1 ∨ lo > heap.2 ∨ hi < heap.1 ∨ hi > heap.2 then
      mallocError tracenum opnum ("Payload (" ++ pointerText lo ++ ":" ++ pointerText hi ++
        ") lies outside heap (" ++ pointerText heap.1 ++ ":" ++ pointerText heap.2 ++ ")")
      return false
    else
      match ← findMeeting lo hi with
      | some p =>
        mallocError tracenum opnum ("Payload (" ++ pointerText lo ++ ":" ++ pointerText hi ++
          ") overlaps another payload (" ++ pointerText p.lo ++ ":" ++ pointerText p.hi ++ ")\n")
        return false
      | none =>
        pushRange ⟨lo, hi⟩
        return true

/-- `remove_range`: the first record with this start -/
def removeRange (lo : Nat) : Prog (Driver σ) Unit := fun d =>
  some ((), { d with ranges := d.ranges.eraseP (fun p => p.lo = lo) })

def clearRanges : Prog (Driver σ) Unit := fun d => some ((), { d with ranges := [] })

/-! ## eval_mm_valid -/

/-- the comparison of `eval_mm_valid` after a `mm_realloc`: the first `oldsize` bytes, as `char`s,
are the low byte of the index -/
def dataKept (P : Package σ) (newp index : Nat) (oldsize : Int) : Prog (Driver σ) Bool := fun d =>
  some ((List.range oldsize.toNat).all fun j =>
    charInt (P.load d.heap (addW newp j)) = (lowByte index : Int), d)

/-- `memset(p, index & 0xFF, size)` -/
def fill (P : Package σ) (p index : Nat) (size : Int) : Prog (Driver σ) Unit := fun d =>
  some ((), { d with heap := P.memset p (UInt8.ofNat (lowByte index)) (toSize size) d.heap })

/-- one round of the loop of `eval_mm_valid`; `false` when it returns `0` -/
def validOp (P : Package σ) (tracenum i : Nat) (op : TraceOp) : Prog (Driver σ) Bool :=
  match op.type with
  | .alloc => do
    let p ← call (P.mmMalloc (toSize op.size))
    if p = 0 then
      mallocError tracenum i "mm_malloc failed."
      return false
    else if ← addRange P p op.size tracenum i then
      fill P p op.index op.size
      setBlock op.index p
      setBlockSize op.index (toSize op.size)
      return true
    else
      return false
  | .realloc => do
    let oldp ← getBlock op.index
    let newp ← call (P.mmRealloc oldp (toSize op.size))
    if newp = 0 then
      mallocError tracenum i "mm_realloc failed."
      return false
    else
      removeRange oldp
      if ← addRange P newp op.size tracenum i then
        let oldsize := toInt (← getBlockSize op.index)
        let oldsize := if op.size < oldsize then op.size else oldsize
        if ← dataKept P newp op.index oldsize then
          fill P newp op.index op.size
          setBlock op.index newp
          setBlockSize op.index (toSize op.size)
          return true
        else
          mallocError tracenum i "mm_realloc did not preserve the data from old block"
          return false
      else
        return false
  | .free => do
    let p ← getBlock op.index
    removeRange p
    call (P.mmFree p)
    return true

/-- the loop of `eval_mm_valid`, from request `i` on -/
def validOps (P : Package σ) (tracenum : Nat) : Nat → List TraceOp → Prog (Driver σ) Int
  | _, [] => return 1
  | i, op :: ops => do
    if ← validOp P tracenum i op then
      validOps P tracenum (i + 1) ops
    else
      return 0

def evalMmValid (P : Package σ) (trace : Trace) (tracenum : Nat) : Prog (Driver σ) Int := do
  call P.memResetBrk
  clearRanges
  if (← call P.mmInit) < 0 then
    mallocError tracenum 0 "mm_init failed."
    return 0
  else
    validOps P tracenum 0 trace.ops

/-! ## eval_mm_util -/

/-- `total_size` and `max_total_size` when `size` bytes are added -/
def addSize (total : Int × Int) (size : Int) : Int × Int :=
  (total.1 + size, if total.1 + size > total.2 then total.1 + size else total.2)

/-- one round of the loop of `eval_mm_util`, which updates the two sizes -/
def utilOp (P : Package σ) (total : Int × Int) (op : TraceOp) : Prog (Driver σ) (Int × Int) :=
  match op.type with
  | .alloc => do
    let p ← call (P.mmMalloc (toSize op.size))
    if p = 0 then
      quit
    else
      setBlock op.index p
      setBlockSize op.index (toSize op.size)
      return addSize total op.size
  | .realloc => do
    let oldsize := toInt (← getBlockSize op.index)
    let oldp ← getBlock op.index
    let newp ← call (P.mmRealloc oldp (toSize op.size))
    if newp = 0 then
      quit
    else
      setBlock op.index newp
      setBlockSize op.index (toSize op.size)
      return addSize total (op.size - oldsize)
  | .free => do
    let size := toInt (← getBlockSize op.index)
    let p ← getBlock op.index
    call (P.mmFree p)
    return (total.1 - size, total.2)

def utilOps (P : Package σ) : Int × Int → List TraceOp → Prog (Driver σ) (Int × Int)
  | total, [] => return total
  | total, op :: ops => do
    let total ← utilOp P total op
    utilOps P total ops

/-- `eval_mm_util`: the two numbers of the quotient it returns -/
def evalMmUtil (P : Package σ) (trace : Trace) : Prog (Driver σ) (Int × Nat) := do
  call P.memResetBrk
  if (← call P.mmInit) < 0 then
    quit
  else
    let total ← utilOps P (0, 0) trace.ops
    fun d => some ((total.2, P.memHeapsize d.heap), d)

/-! ## eval_mm_speed -/

def speedOp (P : Package σ) (op : TraceOp) : Prog (Driver σ) Unit :=
  match op.type with
  | .alloc => do
    let p ← call (P.mmMalloc (toSize op.size))
    if p = 0 then
      quit
    else
      setBlock op.index p
  | .realloc => do
    let oldp ← getBlock op.index
    let newp ← call (P.mmRealloc oldp (toSize op.size))
    if newp = 0 then
      quit
    else
      setBlock op.index newp
  | .free => do
    let block ← getBlock op.index
    call (P.mmFree block)

def speedOps (P : Package σ) : List TraceOp → Prog (Driver σ) Unit
  | [] => return ()
  | op :: ops => do
    speedOp P op
    speedOps P ops

def evalMmSpeed (P : Package σ) (trace : Trace) : Prog (Driver σ) Unit := do
  call P.memResetBrk
  if (← call P.mmInit) < 0 then
    quit
  else
    speedOps P trace.ops

end

/-! ## the package of mm.c -/

/-- `memset(p, v, len)` of the C library -/
def Heap.filled (s : Heap) (p : Nat) (v : UInt8) (len : Nat) : Heap :=
  { s with mem := fun x => if p ≤ x ∧ x < p + len then v else s.mem x }

/-- `mm.c` on the break of `memlib.c` -/
def mmPackage : Package Heap where
  memResetBrk := SegList.memResetBrk
  memHeapLo s := s.memStartBrk
  memHeapHi s := s.heapHi
  memHeapsize s := subW s.memBrk s.memStartBrk
  mmInit := SegList.mmInit
  mmMalloc := SegList.mmMalloc
  mmRealloc := SegList.mmRealloc
  mmFree := SegList.mmFree
  load s p := s.mem p
  memset p v len s := s.filled p v len
  memHeapHi_lt _ := Nat.mod_lt _ (Nat.two_pow_pos 32)

end SegList

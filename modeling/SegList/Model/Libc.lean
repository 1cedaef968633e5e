import SegList.Model.Driver

/-!
# mdriver.c: the C library's malloc

With the option `-l` the driver runs the traces against `malloc`, `realloc` and `free` of the C
library too: once to see that they run to completion (`eval_libc_valid`) and then for time
(`eval_libc_speed`).  The three functions are a parameter.
-/

open Bytes Prog

namespace SegList

/-- what is called of the C library -/
structure Libc (σ : Type) where
  malloc : Nat → Prog σ Nat
  realloc : Nat → Nat → Prog σ Nat
  free : Nat → Prog σ Unit

section
variable {σ : Type}

/-- one round of the loop of `eval_libc_valid` -/
def libcValidOp (L : Libc σ) (tracenum i : Nat) (op : TraceOp) : Prog (Driver σ) Unit :=
  match op.type with
  | .alloc => do
    let p ← call (L.malloc (toSize op.size))
    if p = 0 then do
      mallocError tracenum i "libc malloc failed"
      quit
    else
      setBlock op.index p
  | .realloc => do
    let oldp ← getBlock op.index
    let newp ← call (L.realloc oldp (toSize op.size))
    if newp = 0 then do
      mallocError tracenum i "libc realloc failed"
      quit
    else
      setBlock op.index newp
  | .free => do
    let p ← getBlock op.index
    call (L.free p)

def libcValidOps (L : Libc σ) (tracenum : Nat) : Nat → List TraceOp → Prog (Driver σ) Int
  | _, [] => return 1
  | i, op :: ops => do
    libcValidOp L tracenum i op
    libcValidOps L tracenum (i + 1) ops

def evalLibcValid (L : Libc σ) (trace : Trace) (tracenum : Nat) : Prog (Driver σ) Int :=
  libcValidOps L tracenum 0 trace.ops

def libcSpeedOp (L : Libc σ) (op : TraceOp) : Prog (Driver σ) Unit :=
  match op.type with
  | .alloc => do
    let p ← call (L.malloc (toSize op.size))
    if p = 0 then
      quit
    else
      setBlock op.index p
  | .realloc => do
    let oldp ← getBlock op.index
    let newp ← call (L.realloc oldp (toSize op.size))
    if newp = 0 then
      quit
    else
      setBlock op.index newp
  | .free => do
    let block ← getBlock op.index
    call (L.free block)

def libcSpeedOps (L : Libc σ) : List TraceOp → Prog (Driver σ) Unit
  | [] => return ()
  | op :: ops => do
    libcSpeedOp L op
    libcSpeedOps L ops

def evalLibcSpeed (L : Libc σ) (trace : Trace) : Prog (Driver σ) Unit := libcSpeedOps L trace.ops

/-- a package under test in the place of the C library -/
def Package.libc (P : Package σ) : Libc σ := ⟨P.mmMalloc, P.mmRealloc, P.mmFree⟩

end
end SegList

import SegList.Model.Heap

/-!
# memlib.c: the simulated break

`mem_sbrk` tests its limit with 32-bit pointer arithmetic: `mem_brk + incr` is computed first, and
compared with `mem_max_addr` after it may have wrapped.
-/

open Bytes Prog

namespace SegList

/-- maximum heap size in bytes -/
def MAX_HEAP : Nat := 20 * (1 <<< 20)

/-- `mem_init`; `p` is what `malloc(MAX_HEAP)` returned -/
def memInit (p : Nat) : M Unit :=
  if p = 0 then do
    message "mem_init_vm: malloc error\n"
    diverge
  else fun s =>
    some ((), { s with memStartBrk := p, memMaxAddr := addW p MAX_HEAP, memBrk := p })

theorem memInit_run {p : Nat} (h0 : p ≠ 0) (hp : p + MAX_HEAP < 2 ^ 32) (s : Heap) :
    memInit p s = some ((), { s with
      memStartBrk := p, memMaxAddr := p + MAX_HEAP, memBrk := p }) := by
  unfold memInit
  rw [if_neg h0, addW_eq hp]

theorem memInit_null (s : Heap) : memInit 0 s = none := rfl

def memResetBrk : M Unit := fun s => some ((), { s with memBrk := s.memStartBrk })

def memSbrk (incr : Int) : M Nat := fun s =>
  let oldBrk := s.memBrk
  if incr < 0 ∨ offset s.memBrk incr > s.memMaxAddr then
    some (minusOne, (s.log (.message "ERROR: mem_sbrk failed. Ran out of memory...\n")).log
      (.sbrk incr minusOne))
  else
    some (oldBrk, { s with memBrk := offset s.memBrk incr }.log (.sbrk incr oldBrk))

def memHeapLo : M Nat := fun s => some (s.memStartBrk, s)

/-- the address of the last heap byte -/
def Heap.heapHi (s : Heap) : Nat := subW s.memBrk 1

def memHeapHi : M Nat := fun s => some (s.heapHi, s)

def memHeapsize : M Nat := fun s => some (subW s.memBrk s.memStartBrk, s)

end SegList

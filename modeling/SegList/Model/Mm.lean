import SegList.Model.Memlib

/-!
# mm.c: the segregated-list allocator

One definition for each macro and function of `mm.c`, in the order of the file.  A block pointer
`bp` points behind the header word of a block: the header is at `bp - 4`, the footer at
`bp + size - 8`, and a free block keeps the links `next` at `bp` and `prev` at `bp + 4`.
`mm_malloc` hands out `bp + 8`.
-/

open Bytes Prog

namespace SegList

/-! ## constants and macros -/

def ALIGNMENT : Nat := 8
def WSIZE : Nat := 4
def DSIZE : Nat := 8
def CHUNKSIZE : Nat := 1 <<< 12
def BUCKETS_COUNT : Nat := 32
def OVERHEAD : Nat := 32

def align (size : Nat) : Nat := addW size (ALIGNMENT - 1) &&& notW 0x7

def pack (size alloc : Nat) : Nat := size ||| alloc

def getSize (p : Nat) : M Nat := do return (← get p) &&& notW 0x7

def getAlloc (p : Nat) : M Nat := do return (← get p) &&& 0x1

def hdrp (bp : Nat) : Nat := subW bp WSIZE

def ftrp (bp : Nat) : M Nat := do return subW (addW bp (← getSize (hdrp bp))) DSIZE

/-- `FTRP` of an expression, which the macro expands twice -/
def ftrpOf (bp : M Nat) : M Nat := do
  return subW (addW (← bp) (← getSize (hdrp (← bp)))) DSIZE

def nextBlkp (bp : Nat) : M Nat := do return addW bp (← getSize (subW bp WSIZE))

def prevBlkp (bp : Nat) : M Nat := do return subW bp (← getSize (subW bp DSIZE))

def setHeapListp (p : Nat) : M Unit := fun s => some ((), { s with heapListp := p })
def heapListp : M Nat := fun s => some (s.heapListp, s)

/-! ## the bucket table and its lists -/

/-- the loop of `buckets_init` -/
def clearBuckets : Nat → Nat → M Unit
  | 0, _ => return ()
  | bucketsCount + 1, bucket => do
    put bucket 0
    clearBuckets bucketsCount (addW bucket WSIZE)

def bucketsInit (bucketsCount startingPosition : Nat) : M Unit := do
  let _ ← memSbrk (WSIZE * BUCKETS_COUNT : Nat)
  clearBuckets bucketsCount startingPosition

/-- the loop of `find_bucket`, `rounds` rounds from `k` on -/
def findBucketFrom (words : Nat) : Nat → Nat → M Nat
  | 0, _ => return 0
  | rounds + 1, k => do
    if mulW words WSIZE ≤ 1 <<< k then
      return addW (← memHeapLo) (WSIZE * k)
    findBucketFrom words rounds (k + 1)

/-- `find_bucket`; the comparison is unsigned, so `1 << 31` is `2^31` -/
def findBucket (words : Nat) : M Nat := findBucketFrom words BUCKETS_COUNT 0

/-- the inner loop of `find_fit`: the first node that fits, or the end of the list -/
def findFitNodes (newsize : Nat) : Nat → Nat → M (Option Nat)
  | 0, _ => diverge
  | fuel + 1, node => do
    if node ≠ 0 then
      if mulW newsize WSIZE ≤ (← getSize (hdrp node)) then
        return some node
      findFitNodes newsize fuel (← get node)
    else
      return none

/-- the outer loop of `find_fit` -/
def findFitBuckets (newsize : Nat) : Nat → Nat → M Nat
  | 0, _ => diverge
  | fuel + 1, bucket => do
    if bucket < addW (← memHeapLo) (WSIZE * BUCKETS_COUNT) then
      match ← findFitNodes newsize addrSpace (← get bucket) with
      | some node => return node
      | none => findFitBuckets newsize fuel (addW bucket WSIZE)
    else
      return 0

/-- `find_fit`; the outer loop starts at address `0` when `find_bucket` finds no class -/
def findFit (words : Nat) : M Nat := do
  findFitBuckets words addrSpace (← findBucket words)

def addToBucket (blockPtr bucket : Nat) : M Unit := do
  let node ← get bucket
  put blockPtr 0
  put (addW blockPtr WSIZE) 0
  if node = 0 then
    put bucket blockPtr
  else
    put (addW node WSIZE) blockPtr
    put blockPtr node
    put bucket blockPtr

def addToSeglist (ptr : Nat) : M Unit := do
  let size ← getSize (hdrp ptr)
  addToBucket ptr (← findBucket (size / WSIZE))

/-- `remove_from_bucket`; in the second case `node` is read even when it is `0` -/
def removeFromBucket (blockPtr bucket : Nat) : M Unit := do
  if (← get bucket) = blockPtr then
    put bucket (← get blockPtr)
    let node ← get blockPtr
    if node ≠ 0 then
      put (addW node WSIZE) 0
  else
    let node ← get (addW blockPtr WSIZE)
    (if node ≠ 0 then do put node (← get blockPtr) else pure ())
    let node2 ← get node
    if node2 ≠ 0 then
      put (addW node2 WSIZE) node

def removeFromSeglist (ptr : Nat) : M Unit := do
  let size ← getSize (hdrp ptr)
  removeFromBucket ptr (← findBucket (size / WSIZE))

/-! ## blocks -/

def place (bp size : Nat) : M Unit := do
  let csize ← getSize (hdrp bp)
  if subW csize size ≥ 4 * DSIZE then
    removeFromSeglist bp
    put (hdrp bp) (pack size 1)
    put (← ftrp bp) (pack size 1)
    let bp ← nextBlkp bp
    put (hdrp bp) (pack (subW csize size) 0)
    put (← ftrp bp) (pack (subW csize size) 0)
    addToSeglist bp
  else
    removeFromSeglist bp
    put (hdrp bp) (pack csize 1)
    put (← ftrp bp) (pack csize 1)

def coalesce (bp : Nat) : M Nat := do
  let prevAlloc ← getAlloc (← ftrpOf (prevBlkp bp))
  let nextAlloc ← getAlloc (hdrp (← nextBlkp bp))
  let size ← getSize (hdrp bp)
  if prevAlloc ≠ 0 ∧ nextAlloc ≠ 0 then
    addToSeglist bp
    return bp
  else if prevAlloc ≠ 0 ∧ nextAlloc = 0 then
    let size := addW size (← getSize (hdrp (← nextBlkp bp)))
    removeFromSeglist (← nextBlkp bp)
    put (hdrp bp) (pack size 0)
    put (← ftrp bp) (pack size 0)
    addToSeglist bp
    return bp
  else if prevAlloc = 0 ∧ nextAlloc ≠ 0 then
    let size := addW size (← getSize (hdrp (← prevBlkp bp)))
    removeFromSeglist (← prevBlkp bp)
    put (← ftrp bp) (pack size 0)
    put (hdrp (← prevBlkp bp)) (pack size 0)
    let bp ← prevBlkp bp
    addToSeglist bp
    return bp
  else
    let size := addW size (addW (← getSize (hdrp (← prevBlkp bp)))
      (← getSize (← ftrpOf (nextBlkp bp))))
    removeFromSeglist (← nextBlkp bp)
    removeFromSeglist (← prevBlkp bp)
    put (hdrp (← prevBlkp bp)) (pack size 0)
    put (← ftrpOf (nextBlkp bp)) (pack size 0)
    let bp ← prevBlkp bp
    addToSeglist bp
    return bp

def extendHeap (words : Nat) : M Nat := do
  let size := if words % 2 ≠ 0 then mulW (addW words 1) WSIZE else mulW words WSIZE
  let bp ← memSbrk (toInt size)
  if bp = minusOne then
    return 0
  put (hdrp bp) (pack size 0)
  put (← ftrp bp) (pack size 0)
  put (hdrp (← nextBlkp bp)) (pack 0 1)
  coalesce bp

/-! ## the package -/

def mmInit : M Int := do
  let p ← memSbrk (4 * WSIZE : Nat)
  setHeapListp p
  if p = minusOne then
    return -1
  bucketsInit BUCKETS_COUNT p
  let p := addW p (BUCKETS_COUNT * WSIZE)
  setHeapListp p
  put p 0
  put (addW p (1 * WSIZE)) (pack DSIZE 1)
  put (addW p (2 * WSIZE)) (pack DSIZE 1)
  put (addW p (3 * WSIZE)) (pack 0 1)
  setHeapListp (addW p (2 * WSIZE))
  if (← extendHeap (CHUNKSIZE / WSIZE)) = 0 then
    return -1
  return 0

def mmMalloc (size : Nat) : M Nat := do
  let newsize := align (addW size OVERHEAD)
  (if (← heapListp) = 0 then do let _ ← mmInit else pure ())
  if size = 0 then
    return 0
  let bp ← findFit (newsize / WSIZE)
  if bp ≠ 0 then
    place bp newsize
    return addW bp DSIZE
  let extendsize := max newsize CHUNKSIZE
  let bp ← extendHeap (extendsize / WSIZE)
  if bp = 0 then
    return 0
  place bp newsize
  return addW bp DSIZE

def mmFree (ptr : Nat) : M Unit := do
  let ptr := subW ptr DSIZE
  let size ← getSize (hdrp ptr)
  put (hdrp ptr) (pack size 0)
  put (← ftrp ptr) (pack size 0)
  let _ ← coalesce ptr

/-- `mm_realloc`; the `memcpy` and the `mm_free` follow also when `mm_malloc` returned `NULL` -/
def mmRealloc (ptr size : Nat) : M Nat := do
  if ptr = 0 then
    mmMalloc size
  else if size = 0 then
    mmFree ptr
    return 0
  else
    let newptr ← mmMalloc size
    let csize ← getSize (hdrp (subW ptr DSIZE))
    let csize := if size < csize then size else csize
    memcpy newptr ptr csize
    mmFree ptr
    return newptr

/-! ## the consistency checker -/

/-- the first loop of `mm_check`: headers and footers -/
def checkTags : Nat → Nat → M Bool
  | 0, _ => diverge
  | fuel + 1, bp => do
    if bp ≤ (← memHeapHi) then
      if (← get (hdrp bp)) ≠ (← get (← ftrp bp)) then
        message "ERROR: header and footer do not match!\n"
        return false
      checkTags fuel (← nextBlkp bp)
    else
      return true

/-- the inner loop of the second part of `mm_check`.  The `if` has no braces, so `return 0` is
executed in the first round whatever `GET_ALLOC` is, and `node = GET(node)` never. -/
def checkNodes (node : Nat) : M Bool := do
  if node ≠ 0 then
    (if (← getAlloc (hdrp node)) ≠ 0 then message "ERROR: allocated block in free seglist!\n"
      else pure ())
    return false
  else
    return true

/-- the outer loop of the second part of `mm_check`: the buckets -/
def checkBuckets : Nat → Nat → M Bool
  | 0, _ => diverge
  | fuel + 1, bucket => do
    if bucket < addW (← memHeapLo) (WSIZE * BUCKETS_COUNT) then
      if ← checkNodes (← get bucket) then
        checkBuckets fuel (addW bucket WSIZE)
      else
        return false
    else
      return true

/-- the third loop of `mm_check`: neighbours that are both free -/
def checkCoalesced : Nat → Nat → M Bool
  | 0, _ => diverge
  | fuel + 1, bp => do
    if bp ≤ (← memHeapHi) then
      let free ← getAlloc (hdrp bp)
      -- the second operand of `&&` is evaluated only when the first one holds
      let bothFree ← (if free = 0 then do return (← getAlloc (hdrp (← nextBlkp bp))) == 0
        else pure false)
      if bothFree then
        message "ERROR: blocks not coalesced!\n"
        return false
      checkCoalesced fuel (← nextBlkp bp)
    else
      return true

def mmCheck : M Int := do
  if ← checkTags addrSpace (← nextBlkp (← heapListp)) then
    if ← checkBuckets addrSpace (← memHeapLo) then
      if ← checkCoalesced addrSpace (← nextBlkp (← heapListp)) then
        return 1
      else
        return 0
    else
      return 0
  else
    return 0

end SegList

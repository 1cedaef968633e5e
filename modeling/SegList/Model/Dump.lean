import SegList.Model.Driver

/-!
# mm.c: printing the heap

`print_heap` and `print_seglist`, for debugging: one loop over words, with another last word.
-/

open Bytes Prog

namespace SegList

def border : String := "             --------------\n"

/-- `0x%x` -/
def hexText (w : Nat) : String := "0x" ++ String.ofList (Nat.toDigits 16 w)

def printWord (currentWord : Nat) : M Unit := do
  message border
  let w ← get currentWord
  message (pointerText currentWord ++ "  |  " ++ hexText w ++ "\n")
  message border

/-- the loop over the words from `currentWord` up to `last`, which is computed anew in every round -/
def printUpTo (last : M Nat) : Nat → Nat → M Unit
  | 0, _ => diverge
  | fuel + 1, currentWord => do
    if currentWord ≤ (← last) then
      printWord currentWord
      printUpTo last fuel (addW currentWord WSIZE)
    else
      return ()

/-- `print_seglist`; the comparison is `<=` -/
def printSeglist : M Unit := do
  printUpTo (do return addW (← memHeapLo) (WSIZE * BUCKETS_COUNT)) addrSpace (← memHeapLo)

def printHeap : M Unit := do
  printUpTo memHeapHi addrSpace (← memHeapLo)

end SegList

import SegList.Lib.Prog
import SegList.Lib.Words

/-!
# The machine state: simulated memory, static variables, log of accesses

`Heap` is what the allocator works on: the bytes of the address space, the three static variables
of `memlib.c`, the static `heap_listp` of `mm.c`, and a log of what was done (newest first).  The
log is not part of the C program; it records every word access with the break at that moment,
every `memcpy`, every `mem_sbrk` and every message, so that statements about accesses can be made.

Addresses and `size_t` values are numbers below `2^32` (`gcc -m32`), with the wrapping operations
of `SegList.Lib.Words`.  Memory is total: bytes outside the arena have some value too.  A program
`M α` returns `none` when it does not return.
-/

open Bytes Prog

namespace SegList

/-- what the log records -/
inductive Event where
  /-- the word at `p` is read while `mem_brk` is `brk` -/
  | load (p brk : Nat)
  /-- the word at `p` is written while `mem_brk` is `brk` -/
  | store (p brk : Nat)
  /-- `memcpy(dst, src, len)` -/
  | memcpy (dst src len : Nat)
  /-- `mem_sbrk(incr)` returned `ret` -/
  | sbrk (incr : Int) (ret : Nat)
  /-- a text printed on stdout or stderr -/
  | message (text : String)
deriving DecidableEq, Repr

structure Heap where
  mem : Mem
  memStartBrk : Nat
  memBrk : Nat
  memMaxAddr : Nat
  heapListp : Nat
  trace : List Event

abbrev M := Prog Heap

namespace Heap

def log (s : Heap) (e : Event) : Heap := { s with trace := e :: s.trace }

/-- the word at `p` -/
def word (s : Heap) (p : Nat) : Nat := Bytes.word s.mem p

/-- the word `v` stored at `p` -/
def store (s : Heap) (p v : Nat) : Heap :=
  { s with mem := setWord s.mem p v, trace := .store p s.memBrk :: s.trace }

/-- `len` bytes copied from `src` to `dst` -/
def copied (s : Heap) (dst src len : Nat) : Heap :=
  { s with mem := copyBytes s.mem dst src len, trace := .memcpy dst src len :: s.trace }

section
variable (s : Heap) (e : Event) (p v q n : Nat)

@[simp] theorem log_mem : (s.log e).mem = s.mem := rfl
@[simp] theorem log_memStartBrk : (s.log e).memStartBrk = s.memStartBrk := rfl
@[simp] theorem log_memBrk : (s.log e).memBrk = s.memBrk := rfl
@[simp] theorem log_memMaxAddr : (s.log e).memMaxAddr = s.memMaxAddr := rfl
@[simp] theorem log_heapListp : (s.log e).heapListp = s.heapListp := rfl
@[simp] theorem log_trace : (s.log e).trace = e :: s.trace := rfl
@[simp] theorem log_word : (s.log e).word p = s.word p := rfl
@[simp] theorem store_mem : (s.store p v).mem = setWord s.mem p v := rfl
@[simp] theorem store_memStartBrk : (s.store p v).memStartBrk = s.memStartBrk := rfl
@[simp] theorem store_memBrk : (s.store p v).memBrk = s.memBrk := rfl
@[simp] theorem store_memMaxAddr : (s.store p v).memMaxAddr = s.memMaxAddr := rfl
@[simp] theorem store_heapListp : (s.store p v).heapListp = s.heapListp := rfl
@[simp] theorem store_trace : (s.store p v).trace = .store p s.memBrk :: s.trace := rfl
@[simp] theorem copied_mem : (s.copied p q n).mem = copyBytes s.mem p q n := rfl
@[simp] theorem copied_memStartBrk : (s.copied p q n).memStartBrk = s.memStartBrk := rfl
@[simp] theorem copied_memBrk : (s.copied p q n).memBrk = s.memBrk := rfl
@[simp] theorem copied_memMaxAddr : (s.copied p q n).memMaxAddr = s.memMaxAddr := rfl
@[simp] theorem copied_heapListp : (s.copied p q n).heapListp = s.heapListp := rfl
@[simp] theorem copied_trace : (s.copied p q n).trace = .memcpy p q n :: s.trace := rfl

theorem word_lt : s.word p < 2 ^ 32 := Bytes.word_lt s.mem p

variable {v}

theorem word_store_self (hv : v < 2 ^ 32) : (s.store p v).word p = v :=
  word_setWord_self s.mem p hv

variable {p q}

theorem word_store_of_apart (h : p + 4 ≤ q ∨ q + 4 ≤ p) : (s.store p v).word q = s.word q :=
  word_setWord_of_apart s.mem h

end

theorem word_congr {s t : Heap} {p : Nat} (h : ∀ x, p ≤ x → x < p + 4 → t.mem x = s.mem x) :
    t.word p = s.word p := Bytes.word_congr h

end Heap

/-! ## the statements of the language -/

/-- `GET(p)` -/
def get (p : Nat) : M Nat := fun s => some (s.word p, s.log (.load p s.memBrk))

/-- `PUT(p, val)` -/
def put (p val : Nat) : M Unit := fun s => some ((), s.store p val)

/-- `memcpy(dst, src, len)` of the C library -/
def memcpy (dst src len : Nat) : M Unit := fun s => some ((), s.copied dst src len)

/-- `printf(text)`, `fprintf(stderr, text)` -/
def message (text : String) : M Unit := fun s => some ((), s.log (.message text))

/-- a loop that never ends, `exit(1)` -/
def diverge {α : Type} : M α := fun _ => none

/-- the number of addresses.  A loop that writes nothing and is driven by one address either ends
within this many rounds or never (`Walk.walk_of_bounded`); it is the bound of every such loop. -/
def addrSpace : Nat := 2 ^ 32

/-- a `size_t` passed as an `int` -/
def toInt (n : Nat) : Int := if n < 2 ^ 31 then n else n - 2 ^ 32

/-- `p + incr` for a pointer and an `int` -/
def offset (p : Nat) (incr : Int) : Nat := ((p + incr) % 2 ^ 32).toNat

/-- `(void *)-1` -/
def minusOne : Nat := 2 ^ 32 - 1

theorem get_run {α : Type} (p : Nat) (f : Nat → M α) (s : Heap) :
    (get p >>= f) s = f (s.word p) (s.log (.load p s.memBrk)) := rfl

section
variable {s : Heap}

@[simp] theorem ends_get {p : Nat} {Q : Nat → Heap → Prop} :
    Ends (get p) s Q ↔ Q (s.word p) (s.log (.load p s.memBrk)) := ends_of_run rfl

@[simp] theorem ends_put {p v : Nat} {Q : Unit → Heap → Prop} :
    Ends (put p v) s Q ↔ Q () (s.store p v) := ends_of_run rfl

@[simp] theorem ends_memcpy {p q n : Nat} {Q : Unit → Heap → Prop} :
    Ends (memcpy p q n) s Q ↔ Q () (s.copied p q n) := ends_of_run rfl

@[simp] theorem ends_message {text : String} {Q : Unit → Heap → Prop} :
    Ends (message text) s Q ↔ Q () (s.log (.message text)) := ends_of_run rfl

end

theorem toInt_eq {n : Nat} (h : n < 2 ^ 31) : toInt n = n := if_pos h

theorem toInt_neg {n : Nat} (h : 2 ^ 31 ≤ n) (hn : n < 2 ^ 32) : toInt n < 0 := by
  unfold toInt
  rw [if_neg (by omega)]
  omega

theorem offset_eq {p n : Nat} (h : p + n < 2 ^ 32) : offset p n = p + n := by
  unfold offset
  omega

end SegList

import SegList.Lib.Tile
import Mathlib.Data.Nat.Log
import Mathlib.Data.List.Chain
import Mathlib.Logic.Function.Basic

/-!
# The abstract allocator: segregated LIFO first fit

What the package is for, without memory: an address-ordered list of blocks and one sequence of free
blocks for each size class.

* `Pool.malloc`   the first block that fits, scanning the sequences upward from the class of the
                  size, else new space merged with a free block at the end; split when the rest is
                  a block of its own;
* `Pool.free`     the block merged with its free neighbours, in front of the sequence of its class;
* `Pool.realloc`  `malloc`, then `free`.

`Pool.WF`: the blocks tile the space, no two neighbours are free, and the sequences hold exactly
the free blocks, each in the class of its size.
-/

set_option linter.unusedSectionVars false

namespace SegList

/-- a block: where it starts, its size, whether it is in use -/
structure Block where
  addr : Nat
  size : Nat
  alloc : Bool
deriving DecidableEq, Repr

/-- the blocks cover an interval of addresses -/
abbrev Tiling := Tile.Tiled Block.addr Block.size

/-- the class of a size: the smallest `k` with `size ≤ 2^k` -/
def cls (size : Nat) : Nat := Nat.clog 2 size

def classes : Nat := 32

/-- the block size for a request: header, footer, links and the padding to a multiple of eight -/
def fitSize (n : Nat) : Nat := (n + 39) / 8 * 8

structure Pool where
  /-- the blocks in the order of their addresses -/
  blocks : List Block
  /-- the free blocks of each class -/
  lists : Nat → List Block
  /-- where the last block ends -/
  brk : Nat

/-! ## the sequences of free blocks -/

section
variable (L : Nat → List Block) (b : Block)

/-- `b` put in front of its class -/
def push : Nat → List Block :=
  Function.update L (cls b.size) (b :: L (cls b.size))

/-- `b` taken out of its class -/
def drop : Nat → List Block :=
  Function.update L (cls b.size) ((L (cls b.size)).erase b)

/-- `b`, if there is one, taken out of its class -/
def dropOpt (L : Nat → List Block) (o : Option Block) : Nat → List Block := o.elim L (drop L)

end

/-! ## merging -/

/-- the first block when it is free, and the blocks after it -/
def popFree : List Block → Option Block × List Block
  | [] => (none, [])
  | b :: bs => if b.alloc then (none, b :: bs) else (some b, bs)

/-- `b` with a free predecessor and a free successor absorbed -/
def merged (p : Option Block) (b : Block) (n : Option Block) : Block :=
  ⟨p.elim b.addr Block.addr, p.elim 0 Block.size + b.size + n.elim 0 Block.size, false⟩

namespace Pool

/-- the free block `b` between `pre` and `post`, in no sequence so far, merged with its free
neighbours and put in front of its class -/
def join (pre : List Block) (b : Block) (post : List Block) (L : Nat → List Block) (brk : Nat) :
    Block × Pool :=
  let (p, before) := popFree pre.reverse
  let (n, after) := popFree post
  let m := merged p b n
  (m, ⟨before.reverse ++ m :: after, push (dropOpt (dropOpt L n) p) m, brk⟩)

/-- `e` new bytes at the end, merged with a free block there -/
def grow (a : Pool) (e : Nat) : Block × Pool :=
  join a.blocks ⟨a.brk, e, false⟩ [] a.lists (a.brk + e)

def empty (base : Nat) : Pool := ⟨[], fun _ => [], base⟩

/-- the first pool: one free block of 4096 bytes -/
def initial (base : Nat) : Pool :=
  ⟨[⟨base, 4096, false⟩], push (fun _ => []) ⟨base, 4096, false⟩, base + 4096⟩

/-! ## placing -/

/-- the first free block of size at least `s`, from the class of `s` upward -/
def fit (a : Pool) (s : Nat) : Option Block :=
  ((List.range' (cls s) (classes - cls s)).flatMap a.lists).find? (fun b => s ≤ b.size)

/-- the free block `b` handed out for the size `s`, split when the rest is at least 32 bytes -/
def place (a : Pool) (b : Block) (s : Nat) : Pool :=
  match Tile.focus Block.addr b.addr a.blocks with
  | none => a
  | some (pre, _, post) =>
    if 32 ≤ b.size - s then
      let rest : Block := ⟨b.addr + s, b.size - s, false⟩
      ⟨pre ++ ⟨b.addr, s, true⟩ :: rest :: post, push (drop a.lists b) rest, a.brk⟩
    else
      ⟨pre ++ ⟨b.addr, b.size, true⟩ :: post, drop a.lists b, a.brk⟩

/-! ## the operations -/

/-- the pointer for a request of `n` bytes (`0`: none), and the pool after it -/
def malloc (limit : Nat) (a : Pool) (n : Nat) : Nat × Pool :=
  if n = 0 then (0, a)
  else
    let s := fitSize n
    match a.fit s with
    | some b => (b.addr + 8, a.place b s)
    | none =>
      if a.brk + max s 4096 ≤ limit then
        let (b, a') := a.grow (max s 4096)
        (b.addr + 8, a'.place b s)
      else (0, a)

/-- the pointer `p` given back -/
def free (a : Pool) (p : Nat) : Pool :=
  match Tile.focus Block.addr (p - 8) a.blocks with
  | none => a
  | some (pre, b, post) =>
    if b.alloc then (join pre { b with alloc := false } post a.lists a.brk).2 else a

def realloc (limit : Nat) (a : Pool) (p n : Nat) : Nat × Pool :=
  if p = 0 then a.malloc limit n
  else if n = 0 then (0, a.free p)
  else
    let (q, a') := a.malloc limit n
    (q, a'.free p)

/-! ## well-formed pools -/

/-- no two neighbours are both free -/
def Eager (bs : List Block) : Prop := bs.IsChain (fun x y => x.alloc = true ∨ y.alloc = true)

/-- sizes are multiples of eight, not below the smallest block -/
def Sized (bs : List Block) : Prop := ∀ b ∈ bs, 32 ≤ b.size ∧ b.size % 8 = 0

structure WF (base : Nat) (a : Pool) : Prop where
  tiled : Tiling base a.blocks a.brk
  sized : Sized a.blocks
  eager : Eager a.blocks
  /-- the sequences hold the free blocks, each in the class of its size -/
  listed : ∀ k b, b ∈ a.lists k ↔ b ∈ a.blocks ∧ b.alloc = false ∧ cls b.size = k
  nodup : ∀ k, (a.lists k).Nodup

/-- a pool that is well formed but for the free block `b`, which is in no sequence and may have
free neighbours -/
structure Loose (base brk : Nat) (pre : List Block) (b : Block) (post : List Block)
    (L : Nat → List Block) : Prop where
  tiled : Tiling base (pre ++ b :: post) brk
  sized : Sized (pre ++ b :: post)
  free : b.alloc = false
  eagerL : Eager pre
  eagerR : Eager post
  listed : ∀ k c, c ∈ L k ↔ (c ∈ pre ∨ c ∈ post) ∧ c.alloc = false ∧ cls c.size = k
  nodup : ∀ k, (L k).Nodup

end Pool
end SegList

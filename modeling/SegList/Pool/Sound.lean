import SegList.Pool.Invariant

/-!
# Sound pools: the abstract allocator on well-formed values only

`SoundPool base limit` is a pool that is well formed and ends at or before `limit`; `malloc`,
`free` and `realloc` are operations on it, total on all arguments.

* `malloc_cases`    a request is answered from a list, from new space, or not at all;
* `malloc_spec`     what a successful request changes among the blocks in use;
* `realloc_cases`   a `realloc` is a `malloc`, a `free`, or both.
-/

set_option linter.unusedSectionVars false

namespace SegList
namespace Pool

section
variable {base limit : Nat} {a : Pool} {b : Block} {s n : Nat}

/-! ## the search -/

theorem fit_some (h : WF base a) (hb : a.fit s = some b) :
    b ∈ a.blocks ∧ b.alloc = false ∧ s ≤ b.size := by
  unfold fit at hb
  have h1 := List.find?_some hb
  obtain ⟨k, -, hk⟩ := List.mem_flatMap.mp (List.mem_of_find?_eq_some hb)
  obtain ⟨h2, h3, -⟩ := (h.listed k b).mp hk
  exact ⟨h2, h3, by simpa using h1⟩

theorem fit_eq_none (h : WF base a) (hb : ∀ b ∈ a.blocks, b.alloc = false → b.size < s) :
    a.fit s = none := by
  cases hf : a.fit s with
  | none => rfl
  | some b =>
    obtain ⟨h1, h2, h3⟩ := fit_some h hf
    have := hb b h1 h2
    omega

/-- the search misses no block, because it starts at the class of the size asked for -/
theorem fit_complete (h : WF base a) (hb : b ∈ a.blocks) (hf : b.alloc = false) (hs : s ≤ b.size)
    (hc : cls b.size < classes) : ∃ c, a.fit s = some c := by
  have hmono : cls s ≤ cls b.size := Nat.clog_mono_right 2 hs
  refine Option.isSome_iff_exists.mp (List.find?_isSome.mpr ⟨b, ?_, by simpa using hs⟩)
  refine List.mem_flatMap.mpr ⟨cls b.size, List.mem_range'_1.mpr ⟨hmono, by omega⟩, ?_⟩
  exact (h.listed _ b).mpr ⟨hb, hf, rfl⟩

/-! ## requests -/

theorem malloc_zero (limit : Nat) (a : Pool) : a.malloc limit 0 = (0, a) := if_pos rfl

theorem malloc_of_fit (limit : Nat) (hn : n ≠ 0) {b : Block} (hf : a.fit (fitSize n) = some b) :
    a.malloc limit n = (b.addr + 8, a.place b (fitSize n)) := by
  unfold malloc
  rw [if_neg hn]
  simp only [hf]

theorem malloc_of_room (hn : n ≠ 0) (hf : a.fit (fitSize n) = none)
    (hl : a.brk + max (fitSize n) 4096 ≤ limit) :
    a.malloc limit n = ((a.grow (max (fitSize n) 4096)).1.addr + 8,
      (a.grow (max (fitSize n) 4096)).2.place (a.grow (max (fitSize n) 4096)).1 (fitSize n)) := by
  unfold malloc
  rw [if_neg hn]
  simp only [hf, if_pos hl]

theorem malloc_of_full (hn : n ≠ 0) (hf : a.fit (fitSize n) = none)
    (hl : limit < a.brk + max (fitSize n) 4096) : a.malloc limit n = (0, a) := by
  unfold malloc
  rw [if_neg hn]
  simp only [hf, if_neg (Nat.not_le_of_lt hl)]

/-- a request is answered from a list, from new space, or not at all -/
theorem malloc_cases (limit : Nat) (a : Pool) (hn : n ≠ 0) :
    (∃ b, a.fit (fitSize n) = some b ∧ a.malloc limit n = (b.addr + 8, a.place b (fitSize n))) ∨
    (a.fit (fitSize n) = none ∧ a.brk + max (fitSize n) 4096 ≤ limit ∧
      a.malloc limit n = ((a.grow (max (fitSize n) 4096)).1.addr + 8,
        (a.grow (max (fitSize n) 4096)).2.place (a.grow (max (fitSize n) 4096)).1 (fitSize n))) ∨
    (a.fit (fitSize n) = none ∧ limit < a.brk + max (fitSize n) 4096 ∧
      a.malloc limit n = (0, a)) := by
  cases hf : a.fit (fitSize n) with
  | some b => exact Or.inl ⟨b, rfl, malloc_of_fit limit hn hf⟩
  | none =>
    rcases Nat.lt_or_ge limit (a.brk + max (fitSize n) 4096) with hl | hl
    · exact Or.inr (Or.inr ⟨rfl, hl, malloc_of_full hn hf hl⟩)
    · exact Or.inr (Or.inl ⟨rfl, hl, malloc_of_room hn hf hl⟩)

theorem malloc_null (h : (a.malloc limit n).1 = 0) : (a.malloc limit n).2 = a := by
  by_cases hn : n = 0
  · rw [hn, malloc_zero]
  rcases malloc_cases limit a hn with ⟨b, -, e⟩ | ⟨-, -, e⟩ | ⟨-, -, e⟩
  · rw [e] at h
    exact absurd h (Nat.succ_ne_zero _)
  · rw [e] at h
    exact absurd h (Nat.succ_ne_zero _)
  · rw [e]

theorem max_fit (n : Nat) : 32 ≤ max (fitSize n) 4096 ∧ max (fitSize n) 4096 % 8 = 0 := by
  have := fitSize_mod n
  omega

theorem grow_block (a : Pool) (e : Nat) : (a.grow e).1 ∈ (a.grow e).2.blocks ∧
    (a.grow e).1.alloc = false ∧ e ≤ (a.grow e).1.size := join_block

theorem mem_grow_alloc {e : Nat} {c : Block} :
    c ∈ (a.grow e).2.blocks ∧ c.alloc = true ↔ c ∈ a.blocks ∧ c.alloc = true := by
  unfold grow
  rw [mem_join_alloc]
  simp

theorem malloc_wf (h : WF base a) (limit n : Nat) : WF base (a.malloc limit n).2 := by
  by_cases hn : n = 0
  · rw [hn, malloc_zero]
    exact h
  have h8 := fitSize_mod n
  have hs : 32 ≤ fitSize n := by
    have := le_fitSize n
    omega
  rcases malloc_cases limit a hn with ⟨b, hb, e⟩ | ⟨-, -, e⟩ | ⟨-, -, e⟩
  · obtain ⟨h1, h2, h3⟩ := fit_some h hb
    rw [e]
    exact place_wf h h1 h2 hs h8 h3
  · obtain ⟨h1, h2⟩ := max_fit n
    obtain ⟨h3, h4, h5⟩ := grow_block a (max (fitSize n) 4096)
    rw [e]
    exact place_wf (grow_wf h h1 h2) h3 h4 hs h8 (by omega)
  · rw [e]
    exact h

theorem malloc_brk_le (limit : Nat) (a : Pool) (n : Nat) (h : a.brk ≤ limit) :
    (a.malloc limit n).2.brk ≤ limit := by
  by_cases hn : n = 0
  · rw [hn, malloc_zero]
    exact h
  rcases malloc_cases limit a hn with ⟨b, -, e⟩ | ⟨-, hl, e⟩ | ⟨-, -, e⟩
  · rw [e]
    exact (place_brk a b _).trans_le h
  · rw [e]
    exact (place_brk _ _ _).trans_le ((grow_brk a _).trans_le hl)
  · rw [e]
    exact h

theorem le_malloc_brk (limit : Nat) (a : Pool) (n : Nat) : a.brk ≤ (a.malloc limit n).2.brk := by
  by_cases hn : n = 0
  · rw [hn, malloc_zero]
  rcases malloc_cases limit a hn with ⟨b, -, e⟩ | ⟨-, -, e⟩ | ⟨-, -, e⟩
  · rw [e]
    exact (place_brk a b _).ge
  · rw [e]
    show a.brk ≤ (Pool.place _ _ _).brk
    rw [place_brk, grow_brk]
    omega
  · rw [e]

theorem WF.addr_ne (h : WF base a) {c : Block} (hb : b ∈ a.blocks) (hf : b.alloc = false)
    (hc : c ∈ a.blocks) (hu : c.alloc = true) : c.addr ≠ b.addr := by
  intro e
  rw [h.tiled.eq_of_addr hc hb e, hf] at hu
  exact absurd hu (by simp)

/-- the block `b` newly in use for a request of `n` bytes, among the blocks of `a` and `a'` -/
structure Taken (a a' : Pool) (n : Nat) (b : Block) : Prop where
  alloc : b.alloc = true
  size_ge : fitSize n ≤ b.size
  size_le : b.size ≤ fitSize n + 24
  fresh : ∀ c ∈ a.blocks, c.alloc = true → c.addr ≠ b.addr
  mem_alloc : ∀ c, c ∈ a'.blocks ∧ c.alloc = true ↔ c = b ∨ c ∈ a.blocks ∧ c.alloc = true

lemma Taken.mem {a' : Pool} (h : Taken a a' n b) : b ∈ a'.blocks :=
  ((h.mem_alloc b).mpr (Or.inl rfl)).1

lemma Taken.keeps {a' : Pool} {c : Block} (h : Taken a a' n b) (hc : c ∈ a.blocks)
    (hu : c.alloc = true) : c ∈ a'.blocks := ((h.mem_alloc c).mpr (Or.inr ⟨hc, hu⟩)).1

lemma Taken.ne {a' : Pool} {c : Block} (h : Taken a a' n b) (hc : c ∈ a.blocks)
    (hu : c.alloc = true) : b ≠ c := fun e => h.fresh c hc hu (by rw [e])

theorem place_taken (h : WF base a) (hb : b ∈ a.blocks) (hf : b.alloc = false)
    (hsb : fitSize n ≤ b.size) : Taken a (a.place b (fitSize n)) n (placed b (fitSize n)) := by
  obtain ⟨h1, h2⟩ := placed_size hsb (fitSize_mod n) (h.sized b hb).2
  refine ⟨placed_alloc b _, h1, h2, ?_, fun c => mem_place_alloc h hb hf⟩
  intro c hc hu
  rw [placed_addr]
  exact h.addr_ne hb hf hc hu

/-- **A request that is answered takes one block into use**, of the size asked for up to 24 bytes,
and leaves the others in use as they are. -/
theorem malloc_spec (h : WF base a) (hp : (a.malloc limit n).1 ≠ 0) :
    ∃ b, (a.malloc limit n).1 = b.addr + 8 ∧ Taken a (a.malloc limit n).2 n b := by
  have hn : n ≠ 0 := by
    rintro rfl
    exact hp (by rw [malloc_zero])
  rcases malloc_cases limit a hn with ⟨b, hb, e⟩ | ⟨-, -, e⟩ | ⟨-, -, e⟩
  · obtain ⟨h1, h2, h3⟩ := fit_some h hb
    refine ⟨placed b (fitSize n), ?_, ?_⟩
    · rw [e, placed_addr]
    · rw [e]
      exact place_taken h h1 h2 h3
  · obtain ⟨h1, h2⟩ := max_fit n
    obtain ⟨h3, h4, h5⟩ := grow_block a (max (fitSize n) 4096)
    have ht := place_taken (n := n) (grow_wf h h1 h2) h3 h4 (by omega)
    refine ⟨placed (a.grow (max (fitSize n) 4096)).1 (fitSize n), ?_, ?_⟩
    · rw [e, placed_addr]
    · rw [e]
      refine ⟨ht.alloc, ht.size_ge, ht.size_le, fun c hc hu => ?_, fun c => ?_⟩
      · exact ht.fresh c (mem_grow_alloc.mpr ⟨hc, hu⟩).1 hu
      · rw [ht.mem_alloc, mem_grow_alloc]
  · rw [e] at hp
    exact absurd rfl hp

end
end Pool

theorem Pool.mem_malloc {base limit : Nat} {a : Pool} {n : Nat} {b : Block} (h : WF base a)
    (hb : b ∈ a.blocks) (hu : b.alloc = true) : b ∈ (a.malloc limit n).2.blocks := by
  by_cases hp : (a.malloc limit n).1 = 0
  · rwa [malloc_null hp]
  · obtain ⟨c, -, hT⟩ := malloc_spec h hp
    exact hT.keeps hb hu

/-! ## the first pool -/

namespace Pool

theorem initial_eq (base : Nat) : (empty base).grow 4096 = (⟨base, 4096, false⟩, initial base) := by
  simp [grow, join, empty, initial, popFree, merged, dropOpt]

theorem empty_wf (base : Nat) : WF base (empty base) := by
  refine ⟨rfl, fun b hb => absurd hb (List.not_mem_nil), List.isChain_nil, fun k b => ?_,
    fun _ => List.nodup_nil⟩
  show b ∈ [] ↔ b ∈ [] ∧ _
  simp

theorem initial_wf (base : Nat) : WF base (initial base) := by
  have h := grow_wf (e := 4096) (empty_wf base) (by omega) (by omega)
  rwa [initial_eq] at h

end Pool

/-! ## pools that carry their invariant -/

/-- a well-formed pool that ends at or before `limit` -/
structure SoundPool (base limit : Nat) extends Pool where
  wf : Pool.WF base toPool
  brk_le : brk ≤ limit

namespace SoundPool
variable {base limit : Nat}

/-- the first pool, when there is room for it -/
def initial (h : base + 4096 ≤ limit) : SoundPool base limit :=
  ⟨Pool.initial base, Pool.initial_wf base, h⟩

def malloc (a : SoundPool base limit) (n : Nat) : Nat × SoundPool base limit :=
  ((a.toPool.malloc limit n).1, ⟨(a.toPool.malloc limit n).2, Pool.malloc_wf a.wf limit n,
    Pool.malloc_brk_le limit a.toPool n a.brk_le⟩)

def free (a : SoundPool base limit) (p : Nat) : SoundPool base limit :=
  ⟨a.toPool.free p, Pool.free_wf a.wf p, (Pool.free_brk a.toPool p).trans_le a.brk_le⟩

def realloc (a : SoundPool base limit) (p n : Nat) : Nat × SoundPool base limit :=
  if p = 0 then a.malloc n
  else if n = 0 then (0, a.free p)
  else ((a.malloc n).1, (a.malloc n).2.free p)

lemma realloc_of_ne (a : SoundPool base limit) {p n : Nat} (h0 : p ≠ 0) (hn : n ≠ 0) :
    a.realloc p n = ((a.malloc n).1, (a.malloc n).2.free p) := by
  unfold realloc
  rw [if_neg h0, if_neg hn]

lemma realloc_cases (a : SoundPool base limit) (p n : Nat) :
    p = 0 ∧ a.realloc p n = a.malloc n ∨ p ≠ 0 ∧ n = 0 ∧ a.realloc p n = (0, a.free p) ∨
      p ≠ 0 ∧ n ≠ 0 ∧ a.realloc p n = ((a.malloc n).1, (a.malloc n).2.free p) := by
  by_cases h0 : p = 0
  · exact Or.inl ⟨h0, if_pos h0⟩
  by_cases hn : n = 0
  · exact Or.inr (Or.inl ⟨h0, hn, (if_neg h0).trans (if_pos hn)⟩)
  · exact Or.inr (Or.inr ⟨h0, hn, a.realloc_of_ne h0 hn⟩)

lemma realloc_ret (a : SoundPool base limit) (p : Nat) {n : Nat} (hn : n ≠ 0) :
    (a.realloc p n).1 = (a.malloc n).1 := by
  rcases a.realloc_cases p n with ⟨-, e⟩ | ⟨-, h0, -⟩ | ⟨-, -, e⟩
  · rw [e]
  · exact absurd h0 hn
  · rw [e]

end SoundPool

/-- a call of the package -/
inductive Call where
  | malloc (n : Nat)
  | free (p : Nat)
  | realloc (p n : Nat)
deriving DecidableEq, Repr

/-- the pointer a call returns (`0` for `free`), and the pool after it -/
def SoundPool.call {base limit : Nat} (a : SoundPool base limit) :
    Call → Nat × SoundPool base limit
  | .malloc n => a.malloc n
  | .free p => (0, a.free p)
  | .realloc p n => a.realloc p n

theorem SoundPool.le_call_brk {base limit : Nat} (a : SoundPool base limit) (k : Call) :
    a.brk ≤ (a.call k).2.brk := by
  have hm : ∀ n, a.brk ≤ (a.malloc n).2.brk := fun n => Pool.le_malloc_brk limit a.toPool n
  have hf : ∀ (b : SoundPool base limit) p, b.brk = (b.free p).brk := fun b p =>
    (Pool.free_brk b.toPool p).symm
  cases k with
  | malloc n => exact hm n
  | free p => exact (hf a p).le
  | realloc p n =>
    show a.brk ≤ (a.realloc p n).2.brk
    rcases a.realloc_cases p n with ⟨-, e⟩ | ⟨-, -, e⟩ | ⟨-, -, e⟩
    · rw [e]
      exact hm n
    · rw [e]
      exact (hf a p).le
    · rw [e]
      exact (hm n).trans (hf _ p).le

end SegList

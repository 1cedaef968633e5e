import SegList.Lib.Lts
import SegList.Pool.Canonical
import Mathlib.Algebra.Order.BigOperators.Group.List
import Mathlib.Algebra.Order.Ring.Nat
import Mathlib.Data.List.Nodup

/-!
# How much space a pool takes

* `SoundPool.call_brk_le`   a call makes the pool larger by at most what it needs, so a run by what
                            its calls need together (`SoundPool.run_brk_le`);
* `SoundPool.call_ne_zero`  a request is answered when there is room for what it needs;
* `Owns.space`              every live pointer costs 32 bytes more than it was requested with;
* `Owns.room_of_fit`        and a pool in which a search fails is not much larger than that, so no
                            call takes it beyond its `reach` (`Owns.call_brk_le`);
* `Pool.fit_freed`          a block given back is found again for the same size;
* `Pool.WF.whole`           a pool with no block in use is one free block.
-/

set_option linter.unusedSectionVars false

namespace SegList
open Pool

def Call.size : Call → Nat
  | .malloc n => n
  | .free _ => 0
  | .realloc _ n => n

/-- what the package asks `mem_sbrk` for when it finds no block for the call -/
def Call.need (k : Call) : Nat := if k.size = 0 then 0 else max (fitSize k.size) 4096

def Label.need : Label → Nat
  | .call k _ => k.need
  | .write _ _ => 0

def Label.live (L : Live) : Label → Live
  | .call k r => k.live L r
  | .write _ _ => L

/-- what the calls of a run need together -/
def budget (ls : List Label) : Nat := (ls.map Label.need).sum

section
variable {base limit : Nat} {a b : SoundPool base limit} {k : Call} {l : Label}
  {ls ls' : List Label} {n p : Nat}

lemma budget_snoc : budget (ls ++ [l]) = budget ls + l.need := by
  unfold budget
  rw [List.map_append, List.sum_append]
  simp

lemma malloc_brk_le_add (limit : Nat) (a : Pool) (n : Nat) :
    (a.malloc limit n).2.brk ≤ a.brk + (Call.malloc n).need := by
  by_cases hn : n = 0
  · rw [hn, malloc_zero]
    exact Nat.le_add_right _ _
  have e : (Call.malloc n).need = max (fitSize n) 4096 := if_neg hn
  rw [e]
  rcases malloc_cases limit a hn with ⟨b, -, e⟩ | ⟨-, -, e⟩ | ⟨-, -, e⟩
  · rw [e]
    exact (place_brk a b _).trans_le (Nat.le_add_right _ _)
  · rw [e]
    show (Pool.place _ _ _).brk ≤ _
    rw [place_brk, grow_brk]
  · rw [e]
    exact Nat.le_add_right _ _

/-- **A call makes the pool larger by at most what it needs.** -/
lemma SoundPool.call_brk_le (a : SoundPool base limit) (k : Call) :
    (a.call k).2.brk ≤ a.brk + k.need := by
  have hfree : ∀ (b : SoundPool base limit) p, (b.free p).brk = b.brk := fun b p =>
    free_brk b.toPool p
  cases k with
  | malloc n => exact malloc_brk_le_add limit a.toPool n
  | free p => exact (hfree a p).trans_le (Nat.le_add_right _ _)
  | realloc p n =>
    show (a.realloc p n).2.brk ≤ a.brk + (Call.malloc n).need
    rcases a.realloc_cases p n with ⟨-, e⟩ | ⟨-, -, e⟩ | ⟨-, -, e⟩
    · rw [e]
      exact malloc_brk_le_add limit a.toPool n
    · rw [e]
      exact (hfree a p).trans_le (Nat.le_add_right _ _)
    · rw [e]
      exact (hfree _ p).trans_le (malloc_brk_le_add limit a.toPool n)

lemma SoundPool.run_brk_le (h : Lts.Run SoundPool.Steps a ls b) : b.brk ≤ a.brk + budget ls := by
  induction h with
  | nil => exact Nat.le_add_right _ _
  | @snoc ls l t u _ hl ih =>
    rw [budget_snoc]
    cases l with
    | call k r =>
      have hu : t.call k = (r, u) := hl
      have h1 := t.call_brk_le k
      rw [hu] at h1
      show u.brk ≤ a.brk + (budget ls + k.need)
      have h2 : u.brk ≤ t.brk + k.need := h1
      omega
    | write x v =>
      obtain rfl : u = t := hl
      exact ih

lemma malloc_ne_zero (a : Pool) (hn : n ≠ 0) (hl : a.brk + max (fitSize n) 4096 ≤ limit) :
    (a.malloc limit n).1 ≠ 0 := by
  rcases malloc_cases limit a hn with ⟨b, -, e⟩ | ⟨-, -, e⟩ | ⟨-, hlt, -⟩
  · rw [e]
    exact Nat.succ_ne_zero _
  · rw [e]
    exact Nat.succ_ne_zero _
  · omega

/-- **A request is answered** when there is room for what it needs. -/
lemma SoundPool.call_ne_zero (a : SoundPool base limit) (h0 : k.size ≠ 0)
    (hl : a.brk + k.need ≤ limit) : (a.call k).1 ≠ 0 := by
  unfold Call.need at hl
  rw [if_neg h0] at hl
  cases k with
  | malloc n => exact malloc_ne_zero a.toPool h0 hl
  | free p => exact absurd rfl h0
  | realloc p n =>
    have e : (a.call (.realloc p n)).1 = (a.malloc n).1 := a.realloc_ret p h0
    rw [e]
    exact malloc_ne_zero a.toPool h0 hl

end

/-! ## what the live pointers take -/

lemma fitSize_mono {m n : Nat} (h : m ≤ n) : fitSize m ≤ fitSize n :=
  Nat.mul_le_mul_right 8 (Nat.div_le_div_right (by omega))

section
variable {base p n : Nat} {a : Pool} {L : Live}

lemma lose_perm (h : (L.map Prod.fst).Nodup) (hm : (p, n) ∈ L) : L.Perm ((p, n) :: lose L p) := by
  have hL : L.Nodup := List.Nodup.of_map _ h
  have hl : ((p, n) :: lose L p).Nodup :=
    List.nodup_cons.mpr ⟨fun hc => (mem_lose.mp hc).2 rfl, hL.sublist List.filter_sublist⟩
  refine (List.perm_ext_iff_of_nodup hL hl).mpr fun e => ?_
  rw [List.mem_cons, mem_lose]
  constructor
  · intro he
    by_cases hp : e.1 = p
    · exact Or.inl (List.inj_on_of_nodup_map h he hm hp)
    · exact Or.inr ⟨he, hp⟩
  · rintro (rfl | ⟨he, -⟩)
    · exact hm
    · exact he

/-- the blocks in use are those of the live pointers, each as large as its request needs, up to
24 bytes -/
lemma Owns.blocks_of (h : Owns a L) (hw : WF base a) :
    ∃ f : Nat × Nat → Block, (L.map f).Perm (a.blocks.filter fun b => b.alloc = true) ∧
      ∀ e ∈ L, fitSize e.2 ≤ (f e).size ∧ (f e).size ≤ fitSize e.2 + 24 := by
  have : Nonempty Block := ⟨⟨0, 0, false⟩⟩
  choose! f hmem hin hptr hlow hhigh using fun e : Nat × Nat => h.backed e.1 e.2
  have hkeys : (L.map f).map (fun b => b.addr + 8) = L.map Prod.fst := by
    rw [List.map_map]
    exact List.map_congr_left fun e he => (hptr e he).symm
  have hnd : (L.map f).Nodup := List.Nodup.of_map (fun b => b.addr + 8) (hkeys ▸ h.nodup)
  refine ⟨f, (List.perm_ext_iff_of_nodup hnd (hw.tiled.nodup.filter _)).mpr fun b => ?_,
    fun e he => ⟨hlow e he, hhigh e he⟩⟩
  rw [List.mem_map, List.mem_filter, decide_eq_true_iff]
  constructor
  · rintro ⟨e, he, rfl⟩
    exact ⟨hmem e he, hin e he⟩
  · rintro ⟨hb, hu⟩
    obtain ⟨m, hm⟩ := h.owned b hb hu
    have hp : b.addr + 8 = (f (b.addr + 8, m)).addr + 8 := hptr (b.addr + 8, m) hm
    exact ⟨_, hm, hw.tiled.eq_of_addr (hmem (b.addr + 8, m) hm) hb (by omega)⟩

/-- **The live pointers fit into the pool**, each with 32 bytes more than it was requested with. -/
theorem Owns.space (h : Owns a L) (hw : WF base a) :
    base + (L.map Prod.snd).sum + 32 * L.length ≤ a.brk := by
  obtain ⟨f, hp, hf⟩ := h.blocks_of hw
  have h1 : (L.map fun e => e.2 + 32).sum ≤ ((L.map f).map Block.size).sum := by
    rw [List.map_map]
    exact List.sum_le_sum fun e he => (le_fitSize e.2).trans (hf e he).1
  have h2 : ((L.map f).map Block.size).sum ≤ (a.blocks.map Block.size).sum := by
    rw [(hp.map Block.size).sum_nat]
    exact (List.filter_sublist.map Block.size).sum_le_sum fun _ _ => Nat.zero_le _
  have h3 : (L.map fun e => e.2 + 32).sum = (L.map Prod.snd).sum + L.length * 32 := by
    rw [List.sum_map_add, List.map_const', List.sum_replicate, Nat.nsmul_eq_mul]
  have h4 := hw.tiled.sum
  omega

/-- how far a pool may reach: the blocks of the live pointers, the free blocks between them when each
is smaller than a request of size `n` needs, and one extension -/
def reach (n : Nat) (L : Live) : Nat :=
  (L.map fun e => fitSize e.2 + 24).sum + (L.length + 1) * fitSize n + max (fitSize n) 4096

/-- **When a search fails there is room for the request** within the reach. -/
lemma Owns.room_of_fit (h : Owns a L) (hw : WF base a)
    (hc : ∀ b ∈ a.blocks, cls b.size < classes) {m : Nat} (hm : m ≤ n)
    (hf : a.fit (fitSize m) = none) : a.brk + max (fitSize m) 4096 ≤ base + reach n L := by
  obtain ⟨f, hp, hsz⟩ := h.blocks_of hw
  have hmn := fitSize_mono hm
  have hfree : ∀ b ∈ a.blocks, ¬ b.alloc = true → b.size ≤ fitSize n := by
    -- the search would have found it
    intro b hb hu
    by_contra hlt
    have hsb : fitSize m ≤ b.size := by omega
    obtain ⟨d, hd⟩ := fit_complete hw hb (by simpa using hu) hsb (hc b hb)
    rw [hd] at hf
    exact absurd hf (by simp)
  have h1 : (a.blocks.map Block.size).sum ≤ _ := (Tile.sum_le_gaps hw.eager hfree).1
  have h2 : ((L.map f).map Block.size).sum ≤ (L.map fun e => fitSize e.2 + 24).sum := by
    rw [List.map_map]
    exact List.sum_le_sum fun e he => (hsz e he).2
  rw [← (hp.map Block.size).sum_nat, ← hp.length_eq, List.length_map] at h1
  have h3 := hw.tiled.sum
  calc a.brk + max (fitSize m) 4096
    _ ≤ base + ((L.map fun e => fitSize e.2 + 24).sum + (L.length + 1) * fitSize n) +
        max (fitSize n) 4096 := Nat.add_le_add (by omega) (max_le_max_right 4096 hmn)
    _ = base + reach n L := Nat.add_assoc _ _ _

lemma Owns.malloc_brk_le (h : Owns a L) (hw : WF base a)
    (hc : ∀ b ∈ a.blocks, cls b.size < classes) (limit : Nat) {m : Nat} (hm : m ≤ n) :
    (a.malloc limit m).2.brk ≤ max a.brk (base + reach n L) := by
  by_cases hm0 : m = 0
  · rw [hm0, malloc_zero]
    exact Nat.le_max_left _ _
  rcases malloc_cases limit a hm0 with ⟨b, -, e⟩ | ⟨hf, -, e⟩ | ⟨-, -, e⟩
  · rw [e]
    exact (place_brk a b _).trans_le (Nat.le_max_left _ _)
  · rw [e]
    show (Pool.place _ _ _).brk ≤ _
    rw [place_brk, grow_brk]
    exact (h.room_of_fit hw hc hm hf).trans (Nat.le_max_right _ _)
  · rw [e]
    exact Nat.le_max_left _ _

lemma Owns.malloc_ne_zero (h : Owns a L) (hw : WF base a)
    (hc : ∀ b ∈ a.blocks, cls b.size < classes) {limit m : Nat} (hm0 : m ≠ 0) (hm : m ≤ n)
    (hl : base + reach n L ≤ limit) : (a.malloc limit m).1 ≠ 0 := by
  rcases malloc_cases limit a hm0 with ⟨b, -, e⟩ | ⟨-, -, e⟩ | ⟨hf, hlt, -⟩
  · rw [e]
    exact Nat.succ_ne_zero _
  · rw [e]
    exact Nat.succ_ne_zero _
  · exact absurd ((h.room_of_fit hw hc hm hf).trans hl) (Nat.not_le_of_lt hlt)

/-- **A call with a size up to `n` keeps the pool within its reach.** -/
lemma Owns.call_brk_le {limit : Nat} {a : SoundPool base limit} (h : Owns a.toPool L)
    (hc : ∀ b ∈ a.blocks, cls b.size < classes) {k : Call} (hk : k.SizeLe n) :
    (a.call k).2.brk ≤ max a.brk (base + reach n L) := by
  have hfree : ∀ (b : SoundPool base limit) p, (b.free p).brk = b.brk := fun b p =>
    free_brk b.toPool p
  cases k with
  | malloc m => exact h.malloc_brk_le a.wf hc limit hk
  | free p => exact (hfree a p).trans_le (Nat.le_max_left _ _)
  | realloc p m =>
    show (a.realloc p m).2.brk ≤ _
    rcases a.realloc_cases p m with ⟨-, e⟩ | ⟨-, -, e⟩ | ⟨-, -, e⟩
    · rw [e]
      exact h.malloc_brk_le a.wf hc limit hk
    · rw [e]
      exact (hfree a p).trans_le (Nat.le_max_left _ _)
    · rw [e]
      exact (hfree _ p).trans_le (h.malloc_brk_le a.wf hc limit hk)

lemma Owns.call_ne_zero {limit : Nat} {a : SoundPool base limit} (h : Owns a.toPool L)
    (hc : ∀ b ∈ a.blocks, cls b.size < classes) {k : Call} (hk : k.SizeLe n) (h0 : k.size ≠ 0)
    (hl : base + reach n L ≤ limit) : (a.call k).1 ≠ 0 := by
  cases k with
  | malloc m => exact h.malloc_ne_zero a.wf hc h0 hk hl
  | free p => exact absurd rfl h0
  | realloc p m =>
    have e : (a.call (.realloc p m)).1 = (a.malloc m).1 := a.realloc_ret p h0
    rw [e]
    exact h.malloc_ne_zero a.wf hc h0 hk hl

end

namespace Pool
variable {base limit n : Nat} {a : Pool} {b : Block}

/-- **A block given back is found again**: the search for any size up to its own ends. -/
lemma fit_freed (h : WF base a) (hb : b ∈ a.blocks) (hu : b.alloc = true) {s : Nat}
    (hs : s ≤ b.size) (hc : ∀ c ∈ (a.free (b.addr + 8)).blocks, cls c.size < classes) :
    ∃ c, (a.free (b.addr + 8)).fit s = some c := by
  obtain ⟨c, hcm, hcf, h1, h2⟩ := free_covers h hb hu
  exact fit_complete (free_wf h _) hcm hcf (by omega) (hc c hcm)

/-- **A pool with no block in use is one free block.** -/
lemma WF.whole (h : WF base a) (hf : ∀ b ∈ a.blocks, b.alloc = false) (hlt : base < a.brk) :
    a.blocks = [⟨base, a.brk - base, false⟩] := by
  have ht := h.tiled
  have he := h.eager
  cases hbs : a.blocks with
  | nil =>
    rw [hbs] at ht
    have e : base = a.brk := ht
    omega
  | cons b bs =>
    rw [hbs] at ht he hf
    cases bs with
    | nil =>
      obtain ⟨h1, -, h2⟩ := Tile.tiled_single.mp ht
      have h3 := hf b List.mem_cons_self
      obtain ⟨addr, size, alloc⟩ := b
      obtain rfl : addr = base := h1
      obtain rfl : alloc = false := h3
      have h4 : addr + size = a.brk := h2
      have h5 : size = a.brk - addr := by omega
      rw [h5]
    | cons c bs =>
      -- two free neighbours
      have h1 := hf b List.mem_cons_self
      have h2 := hf c (List.mem_cons_of_mem _ List.mem_cons_self)
      have h3 := (List.isChain_cons_cons.mp he).1
      rw [h1, h2] at h3
      exact absurd h3 (by simp)

end Pool
end SegList

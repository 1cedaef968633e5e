import SegList.Pool.Client

/-!
# The blocks in use determine the pool

In a well-formed pool no two neighbours are free, so the free blocks fill the gaps between those in
use, and the sequences hold the free blocks.  Two well-formed pools with the same extent and the
same blocks in use are therefore the same up to the order in the sequences (`WF.same`).

* `freeAll_same`      blocks given back in two orders;
* `malloc_free_same`  a block handed out and given back.
-/

set_option linter.unusedSectionVars false

namespace SegList
namespace Pool

/-- the same extent and blocks, and the same free blocks in each class -/
structure Same (a b : Pool) : Prop where
  brk : b.brk = a.brk
  blocks : b.blocks = a.blocks
  lists : ∀ k, (b.lists k).Perm (a.lists k)

/-- the same blocks in use -/
def SameUse (a b : Pool) : Prop :=
  ∀ c, c ∈ b.blocks ∧ c.alloc = true ↔ c ∈ a.blocks ∧ c.alloc = true

section
variable {base limit : Nat} {a b : Pool} {n p : Nat} {ps qs : List Nat}

/-- **The blocks in use determine the pool.** -/
theorem WF.same (ha : WF base a) (hb : WF base b) (hbrk : b.brk = a.brk) (hu : SameUse a b) :
    Same a b := by
  have htb := hb.tiled
  rw [hbrk] at htb
  have hblocks : b.blocks = a.blocks := by
    refine Tile.Tiled.canonical (F := fun c : Block => c.alloc = true) (fun x y hx hy h1 h2 => ?_)
      htb ha.tiled hb.eager ha.eager (fun c hc => ?_)
    · cases x
      cases y
      simp only [Bool.not_eq_true] at hx hy h1 h2
      rw [hx, hy, h1, h2]
    · have h := hu c
      rwa [and_iff_left hc, and_iff_left hc] at h
  refine ⟨hbrk, hblocks, fun k => (List.perm_ext_iff_of_nodup (hb.nodup k) (ha.nodup k)).mpr ?_⟩
  intro c
  rw [hb.listed, ha.listed, hblocks]

/-! ## blocks given back -/

def freeAll (a : Pool) (ps : List Nat) : Pool := ps.foldl Pool.free a

/-- `p` is the payload of a block in use -/
def InUse (a : Pool) (p : Nat) : Prop := ∃ b ∈ a.blocks, b.alloc = true ∧ p = b.addr + 8

theorem InUse.free (hp : InUse a p) (h : WF base a) {q : Nat} (hq : InUse a q) (hne : q ≠ p) :
    InUse (a.free p) q := by
  obtain ⟨b, hb, hu, rfl⟩ := hp
  obtain ⟨c, hc, hcu, rfl⟩ := hq
  have hcb : c ≠ b := by
    rintro rfl
    exact hne rfl
  exact ⟨c, mem_free h hb hu hc hcu hcb, hcu, rfl⟩

theorem mem_free_use (h : WF base a) (hp : InUse a p) {c : Block} :
    c ∈ (a.free p).blocks ∧ c.alloc = true ↔ (c ∈ a.blocks ∧ c.alloc = true) ∧ c.addr + 8 ≠ p := by
  obtain ⟨b, hb, hu, rfl⟩ := hp
  rw [mem_free_alloc h hb hu]
  constructor
  · rintro ⟨h1, h2, h3⟩
    refine ⟨⟨h2, h3⟩, fun e => h1 (h.tiled.eq_of_addr h2 hb ?_)⟩
    omega
  · rintro ⟨⟨h1, h2⟩, h3⟩
    refine ⟨?_, h1, h2⟩
    rintro rfl
    exact h3 rfl

theorem freeAll_spec (h : WF base a) (hp : ∀ p ∈ ps, InUse a p) (hn : ps.Nodup) :
    WF base (a.freeAll ps) ∧ (a.freeAll ps).brk = a.brk ∧
      ∀ c, c ∈ (a.freeAll ps).blocks ∧ c.alloc = true ↔
        (c ∈ a.blocks ∧ c.alloc = true) ∧ c.addr + 8 ∉ ps := by
  induction ps generalizing a with
  | nil => exact ⟨h, rfl, fun c => by simp [freeAll]⟩
  | cons p ps ih =>
    obtain ⟨hnp, hnps⟩ := List.nodup_cons.mp hn
    have h1 := hp p List.mem_cons_self
    have h2 : ∀ q ∈ ps, InUse (a.free p) q := by
      intro q hq
      refine h1.free h (hp q (List.mem_cons_of_mem _ hq)) ?_
      rintro rfl
      exact hnp hq
    obtain ⟨h3, h4, h5⟩ := ih (free_wf h p) h2 hnps
    refine ⟨h3, h4.trans (free_brk a p), fun c => ?_⟩
    show c ∈ ((a.free p).freeAll ps).blocks ∧ c.alloc = true ↔ _
    rw [h5 c, mem_free_use h h1, List.mem_cons, not_or, and_assoc]

/-- **Blocks given back in two orders** leave the same pool. -/
theorem freeAll_same (h : WF base a) (hp : ∀ p ∈ ps, InUse a p) (hn : ps.Nodup)
    (hq : ps.Perm qs) : Same (a.freeAll ps) (a.freeAll qs) := by
  obtain ⟨h1, h2, h3⟩ := freeAll_spec h hp hn
  obtain ⟨h4, h5, h6⟩ := freeAll_spec h (fun p hm => hp p (hq.mem_iff.mpr hm)) (hq.nodup hn)
  refine h1.same h4 (h5.trans h2.symm) fun c => ?_
  rw [h3 c, h6 c, hq.mem_iff]

/-! ## a block handed out and given back -/

theorem Taken.sameUse {a' : Pool} (hT : ∃ b, p = b.addr + 8 ∧ Taken a a' n b) (h : WF base a') :
    SameUse a (a'.free p) := by
  obtain ⟨b, rfl, hT⟩ := hT
  intro c
  rw [mem_free_alloc h hT.mem hT.alloc, hT.mem_alloc]
  constructor
  · rintro ⟨h1, h2⟩
    exact h2.resolve_left h1
  · rintro ⟨h1, h2⟩
    exact ⟨(hT.ne h1 h2).symm, Or.inr ⟨h1, h2⟩⟩

/-- **A block handed out and given back** leaves the pool as it was, or as its growth alone would
have left it. -/
theorem malloc_free_same (h : WF base a) (hp : (a.malloc limit n).1 ≠ 0) :
    ((a.malloc limit n).2.brk = a.brk →
      Same a ((a.malloc limit n).2.free (a.malloc limit n).1)) ∧
    ((a.malloc limit n).2.brk ≠ a.brk → a.brk + max (fitSize n) 4096 ≤ limit ∧
      Same (a.grow (max (fitSize n) 4096)).2
        ((a.malloc limit n).2.free (a.malloc limit n).1)) := by
  have hwf := malloc_wf h limit n
  have hfree := free_wf hwf (a.malloc limit n).1
  have hbrk := free_brk (a.malloc limit n).2 (a.malloc limit n).1
  have hu := Taken.sameUse (malloc_spec h hp) hwf
  refine ⟨fun e => h.same hfree (hbrk.trans e) hu, fun hne => ?_⟩
  have hn : n ≠ 0 := by
    rintro rfl
    exact hp (by rw [malloc_zero])
  rcases malloc_cases limit a hn with ⟨b, -, e⟩ | ⟨-, hl, e⟩ | ⟨-, -, e⟩
  · rw [e] at hne
    exact absurd (place_brk a b _) hne
  · obtain ⟨h1, h2⟩ := max_fit n
    refine ⟨hl, (grow_wf h h1 h2).same hfree (hbrk.trans ?_) fun c => ?_⟩
    · rw [e]
      exact place_brk _ _ _
    · rw [hu c, mem_grow_alloc]
  · rw [e] at hp
    exact absurd rfl hp

end
end Pool
end SegList

import SegList.Pool.Shift
import SegList.Safety.Refinement

/-!
# It does not matter where the arena lies

The C library's `malloc` gives `mem_init` some address; from any other one the package does the same,
with every pointer moved by the difference of the two.

* `Displaced`              two clients whose heaps are the same up to a move;
* `Displaced.ahead`, `Displaced.back`   each step of the one is a step of the other, whichever it is;
* `position_independent`   so each run of the one is a run of the other.
-/

set_option linter.unusedSectionVars false

open Bytes Prog

namespace SegList
open Pool

def Label.shift (d : Nat) : Label → Label
  | .call k r => .call (k.shift d) (shiftPtr d r)
  | .write x v => .write (x + d) v

def shiftLive (d : Nat) (L : Live) : Live := L.map fun e => (shiftPtr d e.1, e.2)

/-- the break, the blocks with their sizes and alloc bits, the lists of the buckets and the live
pointers, all `d` bytes further up -/
structure Relocated (d : Nat) (c c' : Client) : Prop where
  live : c'.live = shiftLive d c.live
  brk : c'.heap.memBrk = c.heap.memBrk + d
  blocks : ∃ bps, c.heap.blocks = some bps ∧ c'.heap.blocks = some (bps.map (· + d)) ∧ ∀ bp ∈ bps,
    c'.heap.getSize (hdrp (bp + d)) = c.heap.getSize (hdrp bp) ∧
    c'.heap.getAlloc (hdrp (bp + d)) = c.heap.getAlloc (hdrp bp)
  lists : ∀ k < 32, ∃ l, c.heap.bucket k = some l ∧ c'.heap.bucket k = some (l.map (· + d))

/-! ## live pointers -/

section
variable {L : Live} {d n p r m x : Nat} {k : Call}

lemma mem_shiftLive (h : (p, m) ∈ L) : (shiftPtr d p, m) ∈ shiftLive d L :=
  List.mem_map.mpr ⟨(p, m), h, rfl⟩

lemma of_mem_shiftLive (h : (x, m) ∈ shiftLive d L) : ∃ p, x = shiftPtr d p ∧ (p, m) ∈ L := by
  obtain ⟨⟨p, k⟩, hp, e⟩ := List.mem_map.mp h
  obtain ⟨rfl, rfl⟩ := Prod.mk.inj e
  exact ⟨p, rfl, hp⟩

lemma gain_shift : gain (shiftLive d L) (shiftPtr d r) n = shiftLive d (gain L r n) := by
  unfold gain
  by_cases hr : r = 0
  · rw [if_pos hr, if_pos (shiftPtr_eq_zero.mpr hr)]
  · rw [if_neg hr, if_neg (mt shiftPtr_eq_zero.mp hr)]
    rfl

lemma lose_shift : lose (shiftLive d L) (shiftPtr d p) = shiftLive d (lose L p) := by
  unfold lose shiftLive
  rw [List.filter_map]
  refine congrArg (List.map _) (List.filter_congr fun e _ => ?_)
  show decide (shiftPtr d e.1 ≠ shiftPtr d p) = decide (e.1 ≠ p)
  rw [decide_eq_decide, (shiftPtr_injective d).ne_iff]

namespace Call

lemma live_shift : (k.shift d).live (shiftLive d L) (shiftPtr d r) = shiftLive d (k.live L r) := by
  cases k with
  | malloc n => exact gain_shift
  | free p => exact lose_shift
  | realloc p n =>
    show gain (lose _ _) _ _ = shiftLive d (gain (lose L p) r n)
    rw [lose_shift, gain_shift]

lemma Names.shift (h : k.Names L) : (k.shift d).Names (shiftLive d L) := by
  cases k with
  | malloc n => trivial
  | free p =>
    obtain ⟨m, hm⟩ := h
    exact ⟨m, mem_shiftLive hm⟩
  | realloc p n =>
    rcases h with rfl | ⟨m, hm⟩
    · exact Or.inl rfl
    · exact Or.inr ⟨m, mem_shiftLive hm⟩

lemma Names.unshift (h : k.Names (shiftLive d L)) : ∃ k₀ : Call, k = k₀.shift d ∧ k₀.Names L := by
  cases k with
  | malloc n => exact ⟨.malloc n, rfl, trivial⟩
  | free x =>
    obtain ⟨m, hm⟩ := h
    obtain ⟨p, rfl, hp⟩ := of_mem_shiftLive hm
    exact ⟨.free p, rfl, m, hp⟩
  | realloc x n =>
    rcases h with rfl | ⟨m, hm⟩
    · exact ⟨.realloc 0 n, rfl, Or.inl rfl⟩
    · obtain ⟨p, rfl, hp⟩ := of_mem_shiftLive hm
      exact ⟨.realloc p n, rfl, Or.inr ⟨m, hp⟩⟩

lemma sizeLe_shift : (k.shift d).SizeLe n ↔ k.SizeLe n := by
  cases k <;> rfl

lemma found_shift : (k.shift d).Found (shiftPtr d r) ↔ k.Found r := by
  cases k with
  | malloc n => rfl
  | free p => rfl
  | realloc p n =>
    show (0 < n → shiftPtr d r ≠ 0) ↔ (0 < n → r ≠ 0)
    rw [Ne, shiftPtr_eq_zero]

end Call
end

/-! ## two clients -/

/-- both clients track a pool, the second one that of the first, `d` bytes further up -/
structure Displaced (A B : Arena) (d : Nat) (c c' : Client) : Prop where
  live : c'.live = shiftLive d c.live
  pools : ∃ (a : SoundPool A.base A.limit) (b : SoundPool B.base B.limit),
    Tracks A c a ∧ Tracks B c' b ∧ b.toPool = a.toPool.shift d

section
variable {A B : Arena} {d : Nat} {c c' t t' : Client} {l : Label} {k : Call}
  {a : SoundPool A.base A.limit} {b : SoundPool B.base B.limit}

lemma Tracks.step (h : Tracks A c a) (hk : k.Names c.live) (hz : k.SizeLe MAX_HEAP)
    (hf : k.Found (a.call k).1) : ∃ t, c.Step (.call k (a.call k).1) t := by
  obtain ⟨u, hu⟩ := h.answers k hk hz hf
  exact ⟨_, .call hk hz hu hf⟩

lemma Client.Step.live_eq {r : Nat} (h : c.Step (.call k r) t) : t.live = k.live c.live r := by
  cases h
  rfl

lemma Client.Step.unique {r : Nat} (h : c.Step (.call k r) t) (h' : c.Step (.call k r) t') :
    t' = t := by
  cases h with
  | call _ _ hrun _ =>
    cases h' with
    | call _ _ hrun' _ =>
      rw [hrun] at hrun'
      obtain ⟨-, rfl⟩ := Prod.mk.inj (Option.some.inj hrun')
      rfl

lemma call_displaced (hAB : B.lo = A.lo + d) (hab : b.toPool = a.toPool.shift d) (k : Call) :
    (b.call (k.shift d)).1 = shiftPtr d (a.call k).1 ∧
      (b.call (k.shift d)).2.toPool = (a.call k).2.toPool.shift d := by
  have hbase : 8 ≤ A.base := by
    show 8 ≤ A.lo + 144
    omega
  have hlim : B.limit = A.limit + d := by
    show B.lo + 20971520 = A.lo + 20971520 + d
    omega
  exact SoundPool.call_shift hbase hlim hab k

lemma displaced_call (hAB : B.lo = A.lo + d) (hlive : c'.live = shiftLive d c.live) (ha : Tracks A c a)
    (hb : Tracks B c' b) (hab : b.toPool = a.toPool.shift d) (hk : k.Names c.live)
    (hz : k.SizeLe MAX_HEAP) (hf : k.Found (a.call k).1) : ∃ t t',
      c.Step (.call k (a.call k).1) t ∧ c'.Step ((Label.call k (a.call k).1).shift d) t' ∧
        Displaced A B d t t' := by
  obtain ⟨hret, hpool⟩ := call_displaced hAB hab k
  obtain ⟨t, ht⟩ := ha.step hk hz hf
  obtain ⟨t', ht'⟩ := hb.step (k := k.shift d) (hlive ▸ hk.shift) (Call.sizeLe_shift.mpr hz)
    (hret ▸ Call.found_shift.mpr hf)
  obtain ⟨a₁, ha₁, hT⟩ := step_follows ha ht
  obtain ⟨b₁, hb₁, hT'⟩ := step_follows hb ht'
  have ea : a.call k = ((a.call k).1, a₁) := ha₁
  have eb : b.call (k.shift d) = ((b.call (k.shift d)).1, b₁) := hb₁
  rw [ea, eb] at hpool
  have hs' : c'.Step ((Label.call k (a.call k).1).shift d) t' := by
    show c'.Step (.call (k.shift d) (shiftPtr d (a.call k).1)) t'
    rw [← hret]
    exact ht'
  refine ⟨t, t', ht, hs', ?_, a₁, b₁, hT, hT', hpool⟩
  rw [ht'.live_eq, ht.live_eq, hlive, hret, Call.live_shift]

lemma displaced_write {x : Nat} {v : UInt8} (h : Displaced A B d c c') (hs : c.Step (.write x v) t) :
    ∃ t', c'.Step ((Label.write x v).shift d) t' ∧ Displaced A B d t t' := by
  obtain ⟨hlive, a, b, ha, hb, hab⟩ := h
  obtain ⟨a₁, ha₁, hT⟩ := step_follows ha hs
  obtain rfl : a₁ = a := ha₁
  cases hs with
  | @write p m x v hm h1 h2 =>
    have hp : shiftPtr d p = p + d := if_neg (ha.owns.ne_zero hm)
    have hm' : (p + d, m) ∈ c'.live := by
      rw [hlive, ← hp]
      exact mem_shiftLive hm
    have hs' : c'.Step (.write (x + d) v) ⟨c'.heap.poke (x + d) v, c'.live⟩ :=
      .write hm' (by omega) (by omega)
    obtain ⟨b₁, hb₁, hT'⟩ := step_follows hb hs'
    obtain rfl : b₁ = b := hb₁
    exact ⟨_, hs', hlive, a₁, b₁, hT, hT', hab⟩

/-- **What the lower client does, the upper one can do.** -/
theorem Displaced.ahead (hAB : B.lo = A.lo + d) (h : Displaced A B d c c') (hs : c.Step l t) :
    ∃ t', c'.Step (l.shift d) t' ∧ Displaced A B d t t' := by
  cases l with
  | write x v => exact displaced_write h hs
  | call k r =>
    obtain ⟨hlive, a, b, ha, hb, hab⟩ := h
    obtain ⟨hk, hd⟩ := ha.does hs
    have hret := hd.ret
    have hs' := hs
    cases hs' with
    | call _ hz _ hf =>
      subst hret
      obtain ⟨u, u', hu, hu', hm⟩ := displaced_call hAB hlive ha hb hab hk hz hf
      rw [hs.unique hu] at hm
      exact ⟨u', hu', hm⟩

/-- **What the upper client does, the lower one can do.** -/
theorem Displaced.back (hAB : B.lo = A.lo + d) (h : Displaced A B d c c') (hs : c'.Step l t') :
    ∃ l₀ t, l = l₀.shift d ∧ c.Step l₀ t ∧ Displaced A B d t t' := by
  obtain ⟨hlive, a, b, ha, hb, hab⟩ := h
  cases l with
  | write x v =>
    obtain ⟨b₁, hb₁, hT'⟩ := step_follows hb hs
    obtain rfl : b₁ = b := hb₁
    cases hs with
    | @write q m x v hm h1 h2 =>
      rw [hlive] at hm
      obtain ⟨p, rfl, hp⟩ := of_mem_shiftLive hm
      have hq : shiftPtr d p = p + d := if_neg (ha.owns.ne_zero hp)
      rw [hq] at h1 h2
      have hs₀ : c.Step (.write (x - d) v) ⟨c.heap.poke (x - d) v, c.live⟩ :=
        .write hp (by omega) (by omega)
      obtain ⟨a₁, ha₁, hT⟩ := step_follows ha hs₀
      obtain rfl : a₁ = a := ha₁
      refine ⟨.write (x - d) v, _, ?_, hs₀, hlive, a₁, b₁, hT, hT', hab⟩
      show Label.write x v = .write (x - d + d) v
      rw [Nat.sub_add_cancel (by omega)]
  | call k r =>
    obtain ⟨hk, hd⟩ := hb.does hs
    have hret := hd.ret
    have hs' := hs
    cases hs' with
    | call _ hz _ hf =>
      rw [hlive] at hk
      obtain ⟨k₀, rfl, hk₀⟩ := hk.unshift
      rw [(call_displaced hAB hab k₀).1] at hret
      subst hret
      obtain ⟨u, u', hu, hu', hm⟩ := displaced_call hAB hlive ha hb hab hk₀ (Call.sizeLe_shift.mp hz)
        (Call.found_shift.mp hf)
      rw [hs.unique hu'] at hm
      exact ⟨_, u, rfl, hu, hm⟩

lemma Displaced.relocated (h : Displaced A B d c c') : Relocated d c c' := by
  obtain ⟨hlive, a, b, ha, hb, hab⟩ := h
  have hblocks : b.blocks = a.blocks.map (Block.shift d) := by rw [hab]; rfl
  have haddr : ∀ bs : List Block,
      (bs.map (Block.shift d)).map Block.addr = (bs.map Block.addr).map (· + d) := by
    intro bs
    rw [List.map_map, List.map_map]
    rfl
  have htags := hb.rep.shows.tags
  refine ⟨hlive, ?_, ⟨_, ha.rep.blocks_eq, ?_, ?_⟩, fun k hk => ⟨_, ha.rep.bucket_eq hk, ?_⟩⟩
  · rw [hb.rep.laid.brk, ha.rep.laid.brk, hab]
    rfl
  · rw [hb.rep.blocks_eq, hblocks, haddr]
  · intro bp hbp
    obtain ⟨e, he, rfl⟩ := List.mem_map.mp hbp
    have h1 := htags (e.shift d) (hblocks ▸ List.mem_map_of_mem he)
    have h2 := ha.rep.shows.tags e he
    exact ⟨h1.1.trans h2.1.symm, h1.2.trans h2.2.symm⟩
  · rw [hb.rep.bucket_eq hk, ← haddr, hab]
    rfl

end

/-! ## two runs -/

lemma boot_displaced {A B : Arena} {d : Nat} (hAB : B.lo = A.lo + d) {s t : Heap}
    (hs : Rep A s (Pool.initial A.base)) (ht : Rep B t (Pool.initial B.base)) :
    Displaced A B d ⟨s, []⟩ ⟨t, []⟩ := by
  refine ⟨rfl, firstPool A.lo, firstPool B.lo, ⟨hs, Owns.initial _, Nat.le_refl _⟩,
    ⟨ht, Owns.initial _, Nat.le_refl _⟩, ?_⟩
  show Pool.initial (B.lo + 144) = (Pool.initial (A.lo + 144)).shift d
  rw [Pool.initial_shift, hAB, Nat.add_right_comm]

/-- **mm.c is position independent.**  From a base `d` bytes further up, whatever was in memory, the
same steps can be made, with all pointers `d` bytes further up, and no others, and they leave the
same blocks in the same lists, `d` bytes further up. -/
theorem position_independent (lo d : Nat) (m m' : Mem) (h0 : 0 < lo) (hb : GoodBase lo)
    (hb' : GoodBase (lo + d)) :
    (∀ ls c, Trail lo m ls c →
      ∃ c', Trail (lo + d) m' (ls.map (Label.shift d)) c' ∧ Relocated d c c') ∧
    (∀ ls' c', Trail (lo + d) m' ls' c' →
      ∃ ls c, ls' = ls.map (Label.shift d) ∧ Trail lo m ls c ∧ Relocated d c c') := by
  obtain ⟨A, hA⟩ : ∃ A : Arena, A.lo = lo := ⟨hb.arena (by omega), rfl⟩
  obtain ⟨B, hB⟩ : ∃ B : Arena, B.lo = lo + d := ⟨hb'.arena (by omega), rfl⟩
  have hAB : B.lo = A.lo + d := by omega
  obtain ⟨r, s, hrs, -, hs⟩ := boot_spec A m
  obtain ⟨r', t, hrt, -, ht⟩ := boot_spec B m'
  rw [hA] at hrs
  rw [hB] at hrt
  have hstart := boot_displaced hAB hs ht
  constructor
  · rintro ls c ⟨-, r₁, s₁, h1, hrun⟩
    rw [hrs] at h1
    obtain ⟨rfl, rfl⟩ := Prod.mk.inj (Option.some.inj h1)
    obtain ⟨ks, c', hks, hrun', hm⟩ := hrun.follow Client.Step (E := fun l k => l.shift d = k)
      (R := Displaced A B d) (fun _ _ l _ hR hl =>
        have ⟨t', h1, h2⟩ := hR.ahead hAB hl
        ⟨l.shift d, t', rfl, h1, h2⟩) hstart
    rw [← List.forall₂_map_left_iff, List.forall₂_eq_eq_eq] at hks
    exact ⟨c', ⟨hb', r', t, hrt, hks ▸ hrun'⟩, hm.relocated⟩
  · rintro ls' c' ⟨-, r₁, s₁, h1, hrun⟩
    rw [hrt] at h1
    obtain ⟨rfl, rfl⟩ := Prod.mk.inj (Option.some.inj h1)
    obtain ⟨ls, c, hls, hrun', hm⟩ := hrun.follow Client.Step (E := fun k l => k = l.shift d)
      (R := fun c' c => Displaced A B d c c') (fun _ _ _ _ hR hl => hR.back hAB hl) hstart
    rw [← List.forall₂_map_right_iff, List.forall₂_eq_eq_eq] at hls
    exact ⟨ls, c, hls, ⟨hb, r, s, hrs, hrun'⟩, hm.relocated⟩

/-- `mm_malloc(40)` returns 160 in the arena at 8, and 4256 in the one at 4104 -/
theorem position_independent_sample :
    (∃ c', Trail 4104 (fun _ => 0) [.call (.malloc 40) 4256] c' ∧ Relocated 4096 Sample.client c') ∧
    (∀ ls' c', Trail 4104 (fun _ => 0) ls' c' → ∃ ls c, ls' = ls.map (Label.shift 4096) ∧
      Trail 8 (fun _ => 0) ls c ∧ Relocated 4096 c c') := by
  obtain ⟨h1, h2⟩ := position_independent 8 4096 (fun _ => 0) (fun _ => 0) (by decide)
    ⟨by decide, by decide⟩ ⟨by decide, by decide⟩
  exact ⟨h1 _ _ Sample.client_trail, h2⟩

end SegList

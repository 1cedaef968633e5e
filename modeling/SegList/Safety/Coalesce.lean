import SegList.Model.Frame
import SegList.Refine.Run

/-!
# `coalesce` is exact and local

On every heap that is well formed but for one free block in no list, as `mm_free` and `extend_heap`
leave it.

* `LooseHeap`        such a heap: the blocks, the block, the lists;
* `Coalesced`        what changed: the block became the union with its free neighbours, which left
                     their lists, and the union is in front of its own;
* `coalesce_exact`   `coalesce` does this, and returns the union.
-/

set_option linter.unusedSectionVars false

open Bytes Prog Tile

namespace SegList
open Pool

/-- the heap over the area `A` is well formed, with the blocks `pre`, `b` and `post` and the lists
`L`, but the free block `b` is in no list and may have free neighbours -/
structure LooseHeap (A : Area) (s : Heap) (pre : List Block) (b : Block) (post : List Block)
    (L : Nat → List Block) : Prop where
  laid : Laid A s (pre ++ b :: post) s.memBrk
  chains : ∀ k < 32, Chain s (A.lo + 4 * k) ((L k).map Block.addr)
  loose : Loose A.base s.memBrk pre b post L

/-- the block before, when it is free -/
def freePred (pre : List Block) : Option Block := pre.getLast?.filter fun c => !c.alloc

/-- the block after, when it is free -/
def freeSucc (post : List Block) : Option Block := post.head?.filter fun c => !c.alloc

/-- the byte at `x` belongs to the block, which reaches from its header to the next header -/
def Block.Covers (c : Block) (x : Nat) : Prop := c.addr ≤ x + 4 ∧ x + 4 < c.addr + c.size

/-- the list of bucket `k` without the free neighbours, the others in the same order -/
def keptList (pre post : List Block) (L : Nat → List Block) (k : Nat) : List Block :=
  (L k).filter fun c => freePred pre ≠ some c ∧ freeSucc post ≠ some c

/-- from `s` to `t` the block `b` became `m` -/
structure Coalesced (A : Area) (pre : List Block) (b : Block) (post : List Block)
    (L : Nat → List Block) (s t : Heap) (m : Block) : Prop where
  union : ∀ x, m.Covers x ↔
    b.Covers x ∨ (∃ c ∈ freePred pre, c.Covers x) ∨ ∃ c ∈ freeSucc post, c.Covers x
  /-- header and footer: the size, with alloc bit `0` -/
  tags : t.word (hdrp m.addr) = m.size ∧ t.word (t.ftrp m.addr) = m.size
  lists : ∀ k < 32, Chain t (A.lo + 4 * k) ((if k = cls m.size then m :: keptList pre post L k
    else keptList pre post L k).map Block.addr)
  others : ∀ c ∈ pre ++ post, freePred pre ≠ some c → freeSucc post ≠ some c →
    t.word (hdrp c.addr) = s.word (hdrp c.addr) ∧ t.ftrp c.addr = s.ftrp c.addr ∧
      t.word (s.ftrp c.addr) = s.word (s.ftrp c.addr)
  payloads : Keeps (pre ++ post) s t
  statics : Fixed s t

namespace Pool
variable {pre post before after : List Block} {b : Block} {p n : Option Block}
  {L : Nat → List Block} {base brk : Nat}

lemma Sides.freePred_eq (h : Sides pre post before p n after) : freePred pre = p := by
  unfold freePred
  rw [h.pre_eq]
  cases p with
  | none =>
    rw [Option.toList_none, List.append_nil, Option.filter_eq_none_iff]
    intro x hx
    simp [h.p_none rfl x hx]
  | some x =>
    rw [Option.toList_some, List.getLast?_concat, Option.filter_some, h.p_free x rfl]
    rfl

lemma Sides.freeSucc_eq (h : Sides pre post before p n after) : freeSucc post = n := by
  unfold freeSucc
  rw [h.post_eq]
  cases n with
  | none =>
    rw [Option.toList_none, List.nil_append, Option.filter_eq_none_iff]
    intro x hx
    simp [h.n_none rfl x hx]
  | some x =>
    rw [Option.toList_some, List.singleton_append, List.head?_cons, Option.filter_some,
      h.n_free x rfl]
    rfl

lemma dropOpt_eq_filter (hn : ∀ k, (L k).Nodup) (hc : ∀ k, ∀ c ∈ L k, cls c.size = k)
    (o : Option Block) (k : Nat) : dropOpt L o k = (L k).filter fun c => o ≠ some c := by
  cases o with
  | none => simp [dropOpt]
  | some x =>
    show drop L x k = _
    unfold drop
    rw [Function.update_apply]
    split
    · next e =>
      rw [e, (hn _).erase_eq_filter]
      refine List.filter_congr fun c _ => ?_
      simp [bne, eq_comm, beq_eq_decide]
    · next e =>
      refine (List.filter_eq_self.mpr fun c hcm => ?_).symm
      have h1 : x ≠ c := by
        rintro rfl
        exact e (hc k x hcm).symm
      simpa using h1

lemma Loose.kept_eq (h : Loose base brk pre b post L) (hs : Sides pre post before p n after)
    (k : Nat) : dropOpt (dropOpt L n) p k = keptList pre post L k := by
  have hc : ∀ k, ∀ c ∈ L k, cls c.size = k := fun k c hc => ((h.listed k c).mp hc).2.2
  rw [dropOpt_eq_filter (dropOpt_nodup h.nodup n) fun j c hj =>
    hc j c ((mem_dropOpt h.nodup).mp hj).1, dropOpt_eq_filter h.nodup hc, List.filter_filter]
  unfold keptList
  rw [hs.freePred_eq, hs.freeSucc_eq]
  exact List.filter_congr fun c _ => by simp

lemma Loose.covers_merged (h : Loose base brk pre b post L) (hs : Sides pre post before p n after)
    (x : Nat) : (merged p b n).Covers x ↔
      b.Covers x ∨ (∃ c ∈ p, c.Covers x) ∨ ∃ c ∈ n, c.Covers x := by
  unfold Block.Covers
  cases p with
  | none =>
    cases n with
    | none => simp [merged]
    | some z =>
      have h1 := (h.next_adjacent hs).2
      simp [merged]
      omega
  | some y =>
    have h1 := (h.prev_adjacent hs).2
    cases n with
    | none =>
      simp [merged]
      omega
    | some z =>
      have h2 := (h.next_adjacent hs).2
      simp [merged]
      omega

end Pool

section
variable {A : Area} {s t u : Heap} {pre post before after : List Block} {b m : Block}
  {p n : Option Block} {L : Nat → List Block}

lemma Coalesced.of_rep (h : LooseHeap A s pre b post L) (hs : Sides pre post before p n after)
    (R : Rep A t ⟨before ++ merged p b n :: after,
      push (dropOpt (dropOpt L n) p) (merged p b n), s.memBrk⟩) (hK : Keeps (pre ++ post) s t) :
    Coalesced A pre b post L s t (merged p b n) := by
  have hm : merged p b n ∈ before ++ merged p b n :: after := by simp
  refine ⟨fun x => ?_, ⟨?_, ?_⟩, fun k hk => ?_, fun c hc hp hn => ?_, hK,
    R.laid.start.trans h.laid.start.symm, R.laid.brk, R.laid.maxAddr.trans h.laid.maxAddr.symm,
    R.laid.listp.trans h.laid.listp.symm⟩
  · rw [hs.freePred_eq, hs.freeSucc_eq]
    exact h.loose.covers_merged hs x
  · rw [R.laid.hdrp_eq hm]
    exact (R.laid.tags _ hm).1
  · rw [R.laid.ftrp_eq hm]
    exact (R.laid.tags _ hm).2
  · have h1 := R.threaded.chains k hk
    have h2 : push (dropOpt (dropOpt L n) p) (merged p b n) k =
        if k = cls (merged p b n).size then merged p b n :: keptList pre post L k
        else keptList pre post L k := by
      unfold push
      rw [Function.update_apply, h.loose.kept_eq hs, h.loose.kept_eq hs]
      split
      · next e => rw [e]
      · rfl
    rw [← h2]
    exact h1
  · -- the block stays
    rw [hs.freePred_eq] at hp
    rw [hs.freeSucc_eq] at hn
    have h1 : c ∈ pre ++ b :: post := by
      rcases List.mem_append.mp hc with hc | hc
      · exact List.mem_append_left _ hc
      · exact List.mem_append_right _ (List.mem_cons_of_mem _ hc)
    have h2 : c ∈ before ++ merged p b n :: after := by
      rcases List.mem_append.mp hc with hc | hc
      · exact List.mem_append_left _ ((hs.mem_pre.mp hc).resolve_right hp)
      · exact List.mem_append_right _
          (List.mem_cons_of_mem _ ((hs.mem_post.mp hc).resolve_left hn))
    have h3 := R.laid.tags c h2
    have h4 := h.laid.tags c h1
    rw [h.laid.hdrp_eq h1, R.laid.ftrp_eq h2, h.laid.ftrp_eq h1]
    exact ⟨h3.1.trans h4.1.symm, rfl, h3.2.trans h4.2.symm⟩

lemma Coalesced.congr (h : Coalesced A pre b post L s t m) (ht : SameButLog t u) :
    Coalesced A pre b post L s u m := by
  obtain ⟨mem, start, brk, maxAddr, listp, trace⟩ := u
  obtain ⟨⟨rfl, rfl, rfl, rfl⟩, rfl⟩ := ht
  exact ⟨h.union, h.tags, h.lists, h.others, h.payloads, h.statics.start, h.statics.brk,
    h.statics.maxAddr, h.statics.listp⟩

/-- a loose heap represents a pool, once its log is forgotten -/
lemma LooseHeap.rep (h : LooseHeap A s pre b post L) :
    Rep A { s with trace := [] } ⟨pre ++ b :: post, L, s.memBrk⟩ := by
  refine ⟨⟨h.laid.start, rfl, h.laid.maxAddr, h.laid.listp, h.laid.tiled, h.laid.sized,
    h.laid.brk_le, h.laid.prologue, h.laid.epilogue, h.laid.tags⟩,
    ⟨fun k c hk => ?_, h.loose.nodup, h.chains⟩, fun e he => absurd he List.not_mem_nil⟩
  obtain ⟨h1, h2⟩ := (h.loose.listed k c).mp hk
  refine ⟨?_, h2⟩
  rw [List.mem_append, List.mem_cons]
  tauto

/-- **`coalesce` is exact and local**: it returns the union of the block with its free neighbours,
and changes nothing else. -/
theorem coalesce_exact (h : LooseHeap A s pre b post L) :
    Ends (coalesce b.addr) s (fun r t => ∃ m, r = m.addr ∧ Coalesced A pre b post L s t m) := by
  obtain ⟨before, p, n, after, hs, e⟩ := join_eq pre b post L s.memBrk
  have hspec := coalesce_spec h.rep h.loose
  rw [e] at hspec
  have hlog : SameButLog { s with trace := [] } s := ⟨⟨rfl, rfl, rfl, rfl⟩, rfl⟩
  refine (access_respects (coalesce_built b.addr)).ends hlog ?_ hspec
  rintro r t u ⟨hr, R, hK⟩ hu
  exact ⟨merged p b n, hr, (Coalesced.of_rep h hs R hK).congr hu⟩

end

/-! ## a small heap

In the arena at address 8 four blocks of 32 bytes, the last one in use, the second one in no list. -/

namespace Sample

def loose : Heap :=
  ⟨fun x => if x ∈ [28, 220] then 152 else if x = 152 then 216 else if x ∈ [140, 144] then 9
      else if x ∈ [148, 176, 180, 208, 212, 240] then 32 else if x ∈ [244, 272] then 33
      else if x = 276 then 1 else 0,
    8, 280, 8 + MAX_HEAP, 144, []⟩

/-- the lists of its buckets: the first and the third block, in the class of 32 bytes -/
def looseLists (k : Nat) : List Block :=
  if k = 5 then [⟨152, 32, false⟩, ⟨216, 32, false⟩] else []

lemma loose_heap : LooseHeap arena loose [⟨152, 32, false⟩] ⟨184, 32, false⟩
    [⟨216, 32, false⟩, ⟨248, 32, true⟩] looseLists := by
  have ht : Tiling arena.base [⟨152, 32, false⟩, ⟨184, 32, false⟩, ⟨216, 32, false⟩,
      ⟨248, 32, true⟩] loose.memBrk := by
    simp [tiled_cons, tiled_nil, arena, Area.base, loose]
  have hz : ∀ c ∈ [⟨152, 32, false⟩, ⟨184, 32, false⟩, ⟨216, 32, false⟩,
      (⟨248, 32, true⟩ : Block)], 32 ≤ c.size ∧ c.size % 8 = 0 := by decide
  have htags : ∀ c ∈ [⟨152, 32, false⟩, ⟨184, 32, false⟩, ⟨216, 32, false⟩,
      (⟨248, 32, true⟩ : Block)], loose.word (c.addr - 4) = c.tag ∧
        loose.word (c.addr + c.size - 8) = c.tag := by decide
  have hcls : cls 32 = 5 := by decide
  have hempty : ∀ k < 32, k ≠ 5 → loose.word (8 + 4 * k) = 0 := by decide
  refine ⟨⟨rfl, rfl, rfl, rfl, ht, hz, by decide, by decide, by decide, htags⟩, fun k hk => ?_,
    ht, hz, rfl, eager_single _, ?_, fun k c => ?_, fun k => ?_⟩
  · by_cases h5 : k = 5
    · rw [h5]
      show loose.word 28 = 152 ∧ 152 ≠ 0 ∧ loose.word 156 = 0 ∧ loose.word 152 = 216 ∧ 216 ≠ 0 ∧
        loose.word 220 = 152 ∧ loose.word 216 = 0
      decide
    · unfold looseLists
      rw [if_neg h5]
      exact hempty k hk h5
  · exact eager_cons.mpr ⟨fun y hy => Or.inr (by simp at hy; simp [← hy]), eager_single _⟩
  · unfold looseLists
    by_cases h5 : k = 5
    · rw [if_pos h5, h5]
      simp only [List.mem_cons, List.not_mem_nil, or_false]
      constructor
      · rintro (rfl | rfl)
        · exact ⟨Or.inl rfl, rfl, hcls⟩
        · exact ⟨Or.inr (Or.inl rfl), rfl, hcls⟩
      · rintro ⟨h | h | h, hf, -⟩
        · exact Or.inl h
        · exact Or.inr h
        · rw [h] at hf
          exact absurd hf (by simp)
    · rw [if_neg h5]
      simp only [List.mem_cons, List.not_mem_nil, or_false, false_iff]
      rintro ⟨rfl | rfl | rfl, hf, hk⟩
      · exact h5 (hk.symm.trans hcls)
      · exact h5 (hk.symm.trans hcls)
      · exact absurd hf (by simp)
  · unfold looseLists
    split
    · decide
    · exact List.nodup_nil

end Sample

theorem coalesce_exact_sample : Ends (coalesce 184) Sample.loose (fun r t => ∃ m, r = m.addr ∧
    Coalesced Sample.arena [⟨152, 32, false⟩] ⟨184, 32, false⟩ [⟨216, 32, false⟩, ⟨248, 32, true⟩]
      Sample.looseLists Sample.loose t m) :=
  coalesce_exact (b := ⟨184, 32, false⟩) Sample.loose_heap

end SegList

import SegList.Pool.Basic

/-!
# The operations of the abstract allocator keep a pool well formed

* `mem_push`, `mem_drop`, `push_nodup`, `drop_nodup`   the sequences of free blocks;
* `Sides`, `join_eq`        what `join` does, with the absorbed neighbours named;
* `Loose.join`              merging makes a loose block part of a well-formed pool;
* `WF.free_loose`, `WF.grow_loose`, `WF.exchange`   what `free`, `grow` and `place` start from;
* `mem_free_alloc`, `free_covers`   what becomes of the blocks in use, and of the one given back.
-/

set_option linter.unusedSectionVars false

namespace SegList
open Tile

/-! ## the sequences -/

section
variable {L : Nat → List Block} {b c : Block} {k : Nat}

theorem push_self : push L b (cls b.size) = b :: L (cls b.size) := Function.update_self ..

theorem push_of_ne (h : k ≠ cls b.size) : push L b k = L k := Function.update_of_ne h ..

theorem drop_self : drop L b (cls b.size) = (L (cls b.size)).erase b := Function.update_self ..

theorem drop_of_ne (h : k ≠ cls b.size) : drop L b k = L k := Function.update_of_ne h ..

theorem mem_push : c ∈ push L b k ↔ (c = b ∧ k = cls b.size) ∨ c ∈ L k := by
  by_cases h : k = cls b.size
  · subst h
    rw [push_self, List.mem_cons]
    simp
  · rw [push_of_ne h]
    simp [h]

theorem mem_drop (hn : ∀ k, (L k).Nodup) :
    c ∈ drop L b k ↔ c ∈ L k ∧ ¬ (c = b ∧ k = cls b.size) := by
  by_cases h : k = cls b.size
  · subst h
    rw [drop_self, (hn _).mem_erase_iff]
    simp [and_comm]
  · rw [drop_of_ne h]
    simp [h]

theorem push_nodup (hn : ∀ k, (L k).Nodup) (hb : b ∉ L (cls b.size)) (k : Nat) :
    (push L b k).Nodup := by
  by_cases h : k = cls b.size
  · subst h
    rw [push_self]
    exact List.nodup_cons.mpr ⟨hb, hn _⟩
  · rw [push_of_ne h]
    exact hn k

theorem drop_nodup (hn : ∀ k, (L k).Nodup) (b : Block) (k : Nat) : (drop L b k).Nodup := by
  by_cases h : k = cls b.size
  · subst h
    rw [drop_self]
    exact (hn _).erase b
  · rw [drop_of_ne h]
    exact hn k

theorem dropOpt_nodup (hn : ∀ k, (L k).Nodup) (o : Option Block) (k : Nat) :
    (dropOpt L o k).Nodup := by
  cases o with
  | none => exact hn k
  | some b => exact drop_nodup hn b k

theorem mem_dropOpt (hn : ∀ k, (L k).Nodup) {o : Option Block} :
    c ∈ dropOpt L o k ↔ c ∈ L k ∧ ¬ (c ∈ o ∧ k = cls c.size) := by
  cases o with
  | none => simp [dropOpt]
  | some b =>
    show c ∈ drop L b k ↔ _
    rw [mem_drop hn, Option.mem_some]
    constructor
    · rintro ⟨h1, h2⟩
      refine ⟨h1, ?_⟩
      rintro ⟨rfl, h3⟩
      exact h2 ⟨rfl, h3⟩
    · rintro ⟨h1, h2⟩
      refine ⟨h1, ?_⟩
      rintro ⟨rfl, h3⟩
      exact h2 ⟨rfl, h3⟩

end

theorem fitSize_mod (n : Nat) : fitSize n % 8 = 0 := Nat.mul_mod_left ..

theorem le_fitSize (n : Nat) : n + 32 ≤ fitSize n := by
  unfold fitSize
  omega

theorem fitSize_le (n : Nat) : fitSize n ≤ n + 39 := by
  unfold fitSize
  omega

namespace Pool

/-! ## merging -/

/-- the blocks `pre` and `post` around a block, with the free neighbours `p` and `n` named -/
structure Sides (pre post before : List Block) (p n : Option Block) (after : List Block) :
    Prop where
  pre_eq : pre = before ++ p.toList
  post_eq : post = n.toList ++ after
  p_free : ∀ x ∈ p, x.alloc = false
  n_free : ∀ x ∈ n, x.alloc = false
  p_none : p = none → ∀ x ∈ before.getLast?, x.alloc = true
  n_none : n = none → ∀ x ∈ after.head?, x.alloc = true

theorem popFree_spec (l : List Block) :
    l = (popFree l).1.toList ++ (popFree l).2 ∧ (∀ x ∈ (popFree l).1, x.alloc = false) ∧
      ((popFree l).1 = none → ∀ x ∈ (popFree l).2.head?, x.alloc = true) := by
  cases l with
  | nil => simp [popFree]
  | cons b bs =>
    cases hb : b.alloc with
    | true => simp [popFree, hb]
    | false => simp [popFree, hb]

/-- **What `join` does.** -/
theorem join_eq (pre : List Block) (b : Block) (post : List Block) (L : Nat → List Block)
    (brk : Nat) : ∃ before p n after, Sides pre post before p n after ∧
      join pre b post L brk = (merged p b n,
        ⟨before ++ merged p b n :: after, push (dropOpt (dropOpt L n) p) (merged p b n), brk⟩) := by
  obtain ⟨h1, h2, h3⟩ := popFree_spec pre.reverse
  obtain ⟨h4, h5, h6⟩ := popFree_spec post
  refine ⟨(popFree pre.reverse).2.reverse, (popFree pre.reverse).1, (popFree post).1,
    (popFree post).2, ⟨?_, h4, h2, h5, ?_, h6⟩, rfl⟩
  · have h7 := congrArg List.reverse h1
    rw [List.reverse_reverse, List.reverse_append] at h7
    have h8 : ∀ o : Option Block, o.toList.reverse = o.toList := by
      intro o
      cases o <;> rfl
    rwa [h8] at h7
  · intro hp x hx
    rw [List.getLast?_reverse] at hx
    exact h3 hp x hx

theorem eager_append {l r : List Block} :
    Eager (l ++ r) ↔ Eager l ∧ Eager r ∧
      ∀ x ∈ l.getLast?, ∀ y ∈ r.head?, x.alloc = true ∨ y.alloc = true := List.isChain_append

theorem eager_cons {b : Block} {l : List Block} :
    Eager (b :: l) ↔ (∀ y ∈ l.head?, b.alloc = true ∨ y.alloc = true) ∧ Eager l :=
  List.isChain_cons

theorem eager_single (b : Block) : Eager [b] := List.isChain_singleton b

theorem Eager.around {pre post : List Block} {b : Block} (h : Eager (pre ++ b :: post))
    (hb : b.alloc = false) : (∀ x ∈ pre.getLast?, x.alloc = true) ∧
      (∀ x ∈ post.head?, x.alloc = true) := by
  obtain ⟨-, h2, h3⟩ := eager_append.mp h
  obtain ⟨h4, -⟩ := eager_cons.mp h2
  refine ⟨fun x hx => ?_, fun x hx => ?_⟩
  · rcases h3 x hx b rfl with h | h
    · exact h
    · rw [hb] at h
      exact absurd h (by simp)
  · rcases h4 x hx with h | h
    · rw [hb] at h
      exact absurd h (by simp)
    · exact h

theorem Eager.of_around {pre post : List Block} {b : Block} (h1 : Eager pre) (h2 : Eager post)
    (h3 : ∀ x ∈ pre.getLast?, x.alloc = true) (h4 : ∀ x ∈ post.head?, x.alloc = true) :
    Eager (pre ++ b :: post) := by
  refine eager_append.mpr ⟨h1, eager_cons.mpr ⟨fun y hy => Or.inr (h4 y hy), h2⟩, ?_⟩
  intro x hx y _
  exact Or.inl (h3 x hx)

section
variable {pre post before after : List Block} {p n : Option Block} {b : Block}

theorem Sides.blocks_eq (h : Sides pre post before p n after) :
    pre ++ b :: post = before ++ (p.toList ++ b :: n.toList) ++ after := by
  rw [h.pre_eq, h.post_eq]
  simp

theorem Sides.mem_pre (h : Sides pre post before p n after) {c : Block} :
    c ∈ pre ↔ c ∈ before ∨ c ∈ p := by
  rw [h.pre_eq, List.mem_append, Option.mem_toList]
  rfl

theorem Sides.mem_post (h : Sides pre post before p n after) {c : Block} :
    c ∈ post ↔ c ∈ n ∨ c ∈ after := by
  rw [h.post_eq, List.mem_append, Option.mem_toList]
  rfl

theorem merged_tiled {u v : Nat} (h : Tiling u (p.toList ++ b :: n.toList) v) :
    Tiling u [merged p b n] v := by
  cases p <;> cases n <;> simp only [Option.toList, List.nil_append, List.cons_append,
    tiled_cons, tiled_nil, merged, Option.elim] at h ⊢ <;> omega

theorem merged_size_mod (hs : Sized (pre ++ b :: post)) (h : Sides pre post before p n after) :
    32 ≤ (merged p b n).size ∧ (merged p b n).size % 8 = 0 := by
  have hb := hs b (by simp)
  have hp : ∀ x ∈ p, 32 ≤ x.size ∧ x.size % 8 = 0 := fun x hx =>
    hs x (List.mem_append_left _ (h.mem_pre.mpr (Or.inr hx)))
  have hn : ∀ x ∈ n, 32 ≤ x.size ∧ x.size % 8 = 0 := fun x hx =>
    hs x (List.mem_append_right _ (List.mem_cons_of_mem _ (h.mem_post.mpr (Or.inl hx))))
  cases p <;> cases n <;> simp [merged] at hp hn ⊢ <;> omega

end

section
variable {base brk : Nat} {pre post before after : List Block} {p n : Option Block} {b : Block}
  {L : Nat → List Block}

theorem Loose.tiled_merged (h : Loose base brk pre b post L)
    (hs : Sides pre post before p n after) :
    Tiling base (before ++ merged p b n :: after) brk := by
  have ht := h.tiled
  rw [hs.blocks_eq] at ht
  obtain ⟨y, h1, -⟩ := tiled_append.mp ht
  obtain ⟨x, -, h2⟩ := tiled_append.mp h1
  have h3 := Tiled.replace ht (by simp) h2 (merged_tiled h2)
  simpa using h3

theorem Loose.mem_stays (h : Loose base brk pre b post L) (hs : Sides pre post before p n after)
    {c : Block} (hc : c ∈ before ∨ c ∈ after) : c ∉ p ∧ c ∉ n ∧ c ≠ b := by
  have hn := h.tiled.nodup
  rw [hs.blocks_eq] at hn
  rw [List.nodup_append, List.nodup_append] at hn
  obtain ⟨⟨-, -, h1⟩, -, h2⟩ := hn
  have h3 : c ∉ p.toList ++ b :: n.toList := by
    intro hm
    rcases hc with hc | hc
    · exact h1 c hc c hm rfl
    · exact h2 c (List.mem_append_right _ hm) c hc rfl
  simp only [List.mem_append, List.mem_cons, Option.mem_toList, not_or] at h3
  exact ⟨h3.1, h3.2.2, h3.2.1⟩

theorem Loose.mem_dropped (h : Loose base brk pre b post L)
    (hs : Sides pre post before p n after) {k : Nat} {c : Block} :
    c ∈ dropOpt (dropOpt L n) p k ↔
      (c ∈ before ∨ c ∈ after) ∧ c.alloc = false ∧ cls c.size = k := by
  rw [mem_dropOpt (dropOpt_nodup h.nodup n), mem_dropOpt h.nodup, h.listed, hs.mem_pre, hs.mem_post]
  constructor
  · rintro ⟨⟨⟨h1, h2, h3⟩, h4⟩, h5⟩
    refine ⟨?_, h2, h3⟩
    rcases h1 with (h1 | h1) | (h1 | h1)
    · exact Or.inl h1
    · exact absurd ⟨h1, h3.symm⟩ h5
    · exact absurd ⟨h1, h3.symm⟩ h4
    · exact Or.inr h1
  · rintro ⟨h1, h2, h3⟩
    obtain ⟨h4, h5, -⟩ := h.mem_stays hs h1
    refine ⟨⟨⟨?_, h2, h3⟩, fun h6 => h5 h6.1⟩, fun h6 => h4 h6.1⟩
    rcases h1 with h1 | h1
    · exact Or.inl (Or.inl h1)
    · exact Or.inr (Or.inr h1)

/-- the merged block reaches over the loose one -/
theorem Loose.merged_around (h : Loose base brk pre b post L)
    (hs : Sides pre post before p n after) : (merged p b n).addr ≤ b.addr ∧
      b.addr + b.size ≤ (merged p b n).addr + (merged p b n).size := by
  have ht := h.tiled
  rw [hs.blocks_eq] at ht
  obtain ⟨v, h1, -⟩ := tiled_append.mp ht
  obtain ⟨u, -, h2⟩ := tiled_append.mp h1
  obtain ⟨h3, -, h4⟩ := h2.bounds (b := b) (by simp)
  obtain ⟨h5, -, h6⟩ := merged_tiled h2
  have h7 : u + (merged p b n).size = v := h6
  omega

/-- **Merging a loose block with its free neighbours gives a well-formed pool.** -/
theorem Loose.join (h : Loose base brk pre b post L) : WF base (Pool.join pre b post L brk).2 := by
  obtain ⟨before, p, n, after, hs, e⟩ := join_eq pre b post L brk
  rw [e]
  have ht := h.tiled_merged hs
  have hnd := ht.nodup
  rw [List.nodup_append, List.nodup_cons] at hnd
  obtain ⟨-, ⟨hma, -⟩, hmb⟩ := hnd
  have hmb' : merged p b n ∉ before := fun hm => hmb _ hm _ List.mem_cons_self rfl
  have hd := dropOpt_nodup (dropOpt_nodup h.nodup n) p
  have hEL := h.eagerL
  have hER := h.eagerR
  rw [hs.pre_eq] at hEL
  rw [hs.post_eq] at hER
  refine ⟨ht, ?_, ?_, ?_, ?_⟩
  · intro c hc
    rcases List.mem_append.mp hc with hc | hc
    · exact h.sized c (List.mem_append_left _ (hs.mem_pre.mpr (Or.inl hc)))
    · rcases List.mem_cons.mp hc with rfl | hc
      · exact merged_size_mod h.sized hs
      · exact h.sized c (List.mem_append_right _ (List.mem_cons_of_mem _
          (hs.mem_post.mpr (Or.inr hc))))
  · -- an absorbed neighbour had blocks in use on its other side
    refine Eager.of_around (eager_append.mp hEL).1 (eager_append.mp hER).2.1 ?_ ?_
    · cases p with
      | none => exact hs.p_none rfl
      | some x => exact (Eager.around (show Eager (before ++ x :: []) from hEL) (hs.p_free x rfl)).1
    · cases n with
      | none => exact hs.n_none rfl
      | some x => exact (Eager.around (show Eager ([] ++ x :: after) from hER) (hs.n_free x rfl)).2
  · intro k c
    rw [mem_push, h.mem_dropped hs, List.mem_append, List.mem_cons]
    constructor
    · rintro (⟨rfl, rfl⟩ | ⟨h1 | h1, h2⟩)
      · exact ⟨Or.inr (Or.inl rfl), rfl, rfl⟩
      · exact ⟨Or.inl h1, h2⟩
      · exact ⟨Or.inr (Or.inr h1), h2⟩
    · rintro ⟨h1 | rfl | h1, h2, h3⟩
      · exact Or.inr ⟨Or.inl h1, h2, h3⟩
      · exact Or.inl ⟨rfl, h3.symm⟩
      · exact Or.inr ⟨Or.inr h1, h2, h3⟩
  · intro k
    refine push_nodup hd (fun hm => ?_) k
    rcases ((h.mem_dropped hs).mp hm).1 with h1 | h1
    · exact hmb' h1
    · exact hma h1

theorem mem_join_alloc {c : Block} :
    c ∈ (Pool.join pre b post L brk).2.blocks ∧ c.alloc = true ↔
      (c ∈ pre ∨ c ∈ post) ∧ c.alloc = true := by
  obtain ⟨before, p, n, after, hs, e⟩ := join_eq pre b post L brk
  rw [e, hs.mem_pre, hs.mem_post]
  show c ∈ before ++ merged p b n :: after ∧ _ ↔ _
  rw [List.mem_append, List.mem_cons]
  constructor
  · rintro ⟨h1 | rfl | h1, h2⟩
    · exact ⟨Or.inl (Or.inl h1), h2⟩
    · exact absurd h2 (by simp [merged])
    · exact ⟨Or.inr (Or.inr h1), h2⟩
  · rintro ⟨(h1 | h1) | (h1 | h1), h2⟩
    · exact ⟨Or.inl h1, h2⟩
    · rw [hs.p_free c h1] at h2
      exact absurd h2 (by simp)
    · rw [hs.n_free c h1] at h2
      exact absurd h2 (by simp)
    · exact ⟨Or.inr (Or.inr h1), h2⟩

theorem join_block :
    (Pool.join pre b post L brk).1 ∈ (Pool.join pre b post L brk).2.blocks ∧
      (Pool.join pre b post L brk).1.alloc = false ∧
      b.size ≤ (Pool.join pre b post L brk).1.size := by
  obtain ⟨before, p, n, after, -, e⟩ := join_eq pre b post L brk
  rw [e]
  refine ⟨by simp, rfl, ?_⟩
  show b.size ≤ p.elim 0 Block.size + b.size + n.elim 0 Block.size
  omega

end

/-! ## giving back and growing -/

section
variable {base : Nat} {a : Pool}

theorem WF.mem_lists (h : WF base a) {b : Block} (hb : b ∈ a.blocks) (hf : b.alloc = false) :
    b ∈ a.lists (cls b.size) := (h.listed _ b).mpr ⟨hb, hf, rfl⟩

theorem WF.not_mem_lists (h : WF base a) {b : Block} (hb : b.alloc = true) (k : Nat) :
    b ∉ a.lists k := by
  intro hm
  rw [((h.listed k b).mp hm).2.1] at hb
  exact absurd hb (by simp)

theorem WF.free_loose (h : WF base a) {pre post : List Block} {b : Block}
    (e : a.blocks = pre ++ b :: post) (hb : b.alloc = true) :
    Loose base a.brk pre { b with alloc := false } post a.lists := by
  have ht := h.tiled
  have hs := h.sized
  have hE := h.eager
  rw [e] at ht hs hE
  refine ⟨?_, ?_, rfl, (eager_append.mp hE).1, (eager_cons.mp (eager_append.mp hE).2.1).2, ?_,
    h.nodup⟩
  · obtain ⟨m, h1, h2⟩ := tiled_append.mp ht
    exact tiled_append.mpr ⟨m, h1, h2⟩
  · intro c hc
    rcases List.mem_append.mp hc with hc | hc
    · exact hs c (List.mem_append_left _ hc)
    · rcases List.mem_cons.mp hc with rfl | hc
      · exact hs b (by simp)
      · exact hs c (List.mem_append_right _ (List.mem_cons_of_mem _ hc))
  · intro k c
    rw [h.listed, e, List.mem_append, List.mem_cons]
    constructor
    · rintro ⟨h1 | rfl | h1, h2, h3⟩
      · exact ⟨Or.inl h1, h2, h3⟩
      · rw [hb] at h2
        exact absurd h2 (by simp)
      · exact ⟨Or.inr h1, h2, h3⟩
    · rintro ⟨h1 | h1, h2⟩
      · exact ⟨Or.inl h1, h2⟩
      · exact ⟨Or.inr (Or.inr h1), h2⟩

theorem WF.grow_loose (h : WF base a) {e : Nat} (he : 32 ≤ e) (he8 : e % 8 = 0) :
    Loose base (a.brk + e) a.blocks ⟨a.brk, e, false⟩ [] a.lists := by
  refine ⟨?_, ?_, rfl, h.eager, List.isChain_nil, ?_, h.nodup⟩
  · refine tiled_append.mpr ⟨a.brk, h.tiled, rfl, ?_, rfl⟩
    show 0 < e
    omega
  · intro c hc
    rcases List.mem_append.mp hc with hc | hc
    · exact h.sized c hc
    · rw [List.mem_singleton.mp hc]
      exact ⟨he, he8⟩
  · intro k c
    rw [h.listed]
    simp

theorem grow_wf (h : WF base a) {e : Nat} (he : 32 ≤ e) (he8 : e % 8 = 0) :
    WF base (a.grow e).2 := (h.grow_loose he he8).join

theorem grow_brk (a : Pool) (e : Nat) : (a.grow e).2.brk = a.brk + e := rfl

theorem WF.focus_eq (h : WF base a) {b : Block} (hb : b ∈ a.blocks) :
    ∃ pre post, a.blocks = pre ++ b :: post ∧
      Tile.focus Block.addr b.addr a.blocks = some (pre, b, post) := by
  obtain ⟨pre, post, e⟩ := List.append_of_mem hb
  have ht := h.tiled
  rw [e] at ht
  exact ⟨pre, post, e, by rw [e]; exact ht.focus_eq⟩

theorem WF.free_eq (h : WF base a) {b : Block} (hb : b ∈ a.blocks) (hu : b.alloc = true) :
    ∃ pre post, a.blocks = pre ++ b :: post ∧
      a.free (b.addr + 8) = (join pre { b with alloc := false } post a.lists a.brk).2 := by
  obtain ⟨pre, post, e, hf⟩ := h.focus_eq hb
  refine ⟨pre, post, e, ?_⟩
  unfold Pool.free
  rw [Nat.add_sub_cancel, hf]
  exact if_pos hu

theorem free_wf (h : WF base a) (p : Nat) : WF base (a.free p) := by
  unfold Pool.free
  split
  · exact h
  · next pre b post hf =>
    obtain ⟨e, -⟩ := focus_eq_some hf
    split
    · next hu => exact (h.free_loose e hu).join
    · exact h

theorem free_brk (a : Pool) (p : Nat) : (a.free p).brk = a.brk := by
  unfold Pool.free
  split
  · rfl
  · split
    · rfl
    · rfl

theorem mem_free_alloc (h : WF base a) {b : Block} (hb : b ∈ a.blocks) (hu : b.alloc = true)
    {c : Block} : c ∈ (a.free (b.addr + 8)).blocks ∧ c.alloc = true ↔
      c ≠ b ∧ c ∈ a.blocks ∧ c.alloc = true := by
  obtain ⟨pre, post, e, hf⟩ := h.free_eq hb hu
  have hn := h.tiled.nodup
  rw [hf, mem_join_alloc, e]
  rw [e, List.nodup_append, List.nodup_cons] at hn
  obtain ⟨-, ⟨h1, -⟩, h2⟩ := hn
  rw [List.mem_append, List.mem_cons]
  constructor
  · rintro ⟨h3 | h3, h4⟩
    · exact ⟨fun hc => h2 c h3 b List.mem_cons_self hc, Or.inl h3, h4⟩
    · exact ⟨fun hc => h1 (hc ▸ h3), Or.inr (Or.inr h3), h4⟩
  · rintro ⟨h3, h4 | h4 | h4, h5⟩
    · exact ⟨Or.inl h4, h5⟩
    · exact absurd h4 h3
    · exact ⟨Or.inr h4, h5⟩

theorem mem_free (h : WF base a) {b : Block} (hb : b ∈ a.blocks) (hu : b.alloc = true) {c : Block}
    (hc : c ∈ a.blocks) (hcu : c.alloc = true) (hne : c ≠ b) : c ∈ (a.free (b.addr + 8)).blocks :=
  ((mem_free_alloc h hb hu).mpr ⟨hne, hc, hcu⟩).1

/-- the space of the block is in a free block afterwards -/
theorem free_covers (h : WF base a) {b : Block} (hb : b ∈ a.blocks) (hu : b.alloc = true) :
    ∃ c ∈ (a.free (b.addr + 8)).blocks, c.alloc = false ∧ c.addr ≤ b.addr ∧
      b.addr + b.size ≤ c.addr + c.size := by
  obtain ⟨pre, post, e, hf⟩ := h.free_eq hb hu
  obtain ⟨before, p, n, after, hs, hj⟩ := join_eq pre { b with alloc := false } post a.lists a.brk
  rw [hf, hj]
  exact ⟨_, by simp, rfl, (h.free_loose e hu).merged_around hs⟩

end

/-! ## placing -/

/-- the block handed out for the size `s` from the free block `b` -/
def placed (b : Block) (s : Nat) : Block :=
  if 32 ≤ b.size - s then ⟨b.addr, s, true⟩ else ⟨b.addr, b.size, true⟩

theorem placed_addr (b : Block) (s : Nat) : (placed b s).addr = b.addr := by
  unfold placed
  split <;> rfl

theorem placed_alloc (b : Block) (s : Nat) : (placed b s).alloc = true := by
  unfold placed
  split <;> rfl

/-- what is handed out exceeds the size asked for by at most 24 bytes -/
theorem placed_size {b : Block} {s : Nat} (hs : s ≤ b.size) (h8 : s % 8 = 0)
    (hb8 : b.size % 8 = 0) : s ≤ (placed b s).size ∧ (placed b s).size ≤ s + 24 := by
  unfold placed
  split <;> simp only <;> omega

section
variable {base : Nat} {a : Pool} {b : Block} {s : Nat}

theorem place_split (h : WF base a) {pre post : List Block} (e : a.blocks = pre ++ b :: post)
    (hs : 32 ≤ b.size - s) : a.place b s =
      ⟨pre ++ placed b s :: ⟨b.addr + s, b.size - s, false⟩ :: post,
        push (drop a.lists b) ⟨b.addr + s, b.size - s, false⟩, a.brk⟩ := by
  have ht := h.tiled
  rw [e] at ht
  unfold Pool.place
  rw [e, ht.focus_eq]
  simp only [placed, if_pos hs]

theorem place_whole (h : WF base a) {pre post : List Block} (e : a.blocks = pre ++ b :: post)
    (hs : ¬ 32 ≤ b.size - s) :
    a.place b s = ⟨pre ++ placed b s :: post, drop a.lists b, a.brk⟩ := by
  have ht := h.tiled
  rw [e] at ht
  unfold Pool.place
  rw [e, ht.focus_eq]
  simp only [placed, if_neg hs]

theorem place_brk (a : Pool) (b : Block) (s : Nat) : (a.place b s).brk = a.brk := by
  unfold Pool.place
  split
  · rfl
  · split
    · rfl
    · rfl

theorem WF.not_mem_rest (h : WF base a) (hb : b ∈ a.blocks) (hs : 0 < s) (hsb : s < b.size) :
    (⟨b.addr + s, b.size - s, false⟩ : Block) ∉ a.blocks := by
  intro hm
  have hne : (⟨b.addr + s, b.size - s, false⟩ : Block) ≠ b := by
    intro hc
    have h1 : b.addr + s = b.addr := congrArg Block.addr hc
    omega
  have h2 : b.addr + s + (b.size - s) ≤ b.addr ∨ b.addr + b.size ≤ b.addr + s :=
    h.tiled.apart hm hb hne
  omega

/-- the free block `b` of a well-formed pool exchanged for blocks that cover the same space, with
sequences to match -/
theorem WF.exchange (h : WF base a) {pre mid post : List Block} (e : a.blocks = pre ++ b :: post)
    (hf : b.alloc = false) (ht : Tiling b.addr mid (b.addr + b.size)) (hz : Sized mid)
    (hE : Eager mid) {L : Nat → List Block}
    (hL : ∀ k c, c ∈ L k ↔ (c ∈ pre ∨ c ∈ mid ∨ c ∈ post) ∧ c.alloc = false ∧ cls c.size = k)
    (hn : ∀ k, (L k).Nodup) : WF base ⟨pre ++ mid ++ post, L, a.brk⟩ := by
  have htl := h.tiled
  have hsz := h.sized
  have hEg := h.eager
  rw [e] at htl hsz hEg
  obtain ⟨ht1, hpos, -⟩ := htl.split
  obtain ⟨hE1, hE2⟩ := Eager.around hEg hf
  have hb : pre ++ b :: post = pre ++ [b] ++ post := by simp
  rw [hb] at htl
  refine ⟨Tiled.replace htl (by simp) (tiled_single.mpr ⟨rfl, hpos, rfl⟩) ht, ?_, ?_, ?_, hn⟩
  · intro c hc
    rcases List.mem_append.mp hc with hc | hc
    · rcases List.mem_append.mp hc with hc | hc
      · exact hsz c (List.mem_append_left _ hc)
      · exact hz c hc
    · exact hsz c (List.mem_append_right _ (List.mem_cons_of_mem _ hc))
  · refine eager_append.mpr ⟨eager_append.mpr ⟨(eager_append.mp hEg).1, hE, ?_⟩,
      (eager_cons.mp (eager_append.mp hEg).2.1).2, ?_⟩
    · intro x hx y _
      exact Or.inl (hE1 x hx)
    · intro x _ y hy
      exact Or.inr (hE2 y hy)
  · intro k c
    rw [hL, List.mem_append, List.mem_append, or_assoc]

theorem split_tiling (hs : 0 < s) (hsb : s < b.size) :
    Tiling b.addr [⟨b.addr, s, true⟩, ⟨b.addr + s, b.size - s, false⟩] (b.addr + b.size) := by
  refine ⟨rfl, hs, rfl, ?_, ?_⟩
  · show 0 < b.size - s
    omega
  · show b.addr + s + (b.size - s) = b.addr + b.size
    omega

theorem split_sized (hs : 32 ≤ s) (h8 : s % 8 = 0) (hsp : 32 ≤ b.size - s) (hb : b.size % 8 = 0) :
    Sized [⟨b.addr, s, true⟩, ⟨b.addr + s, b.size - s, false⟩] := by
  intro c hc
  simp only [List.mem_cons, List.not_mem_nil, or_false] at hc
  rcases hc with rfl | rfl <;> simp only <;> omega

theorem whole_tiling (hs : 0 < b.size) : Tiling b.addr [⟨b.addr, b.size, true⟩] (b.addr + b.size) :=
  tiled_single.mpr ⟨rfl, hs, rfl⟩

theorem whole_sized (hs : 32 ≤ b.size) (h8 : b.size % 8 = 0) :
    Sized [⟨b.addr, b.size, true⟩] := by
  intro c hc
  rw [List.mem_singleton.mp hc]
  exact ⟨hs, h8⟩

lemma WF.mem_around (h : WF base a) (e : a.blocks = pre ++ b :: post) {k : Nat} {c : Block} :
    c ∈ drop a.lists b k ↔ (c ∈ pre ∨ c ∈ post) ∧ c.alloc = false ∧ cls c.size = k := by
  have hn := h.tiled.nodup
  rw [e, List.nodup_append, List.nodup_cons] at hn
  obtain ⟨-, ⟨hn1, -⟩, hn2⟩ := hn
  rw [mem_drop h.nodup, h.listed, e, List.mem_append, List.mem_cons]
  constructor
  · rintro ⟨⟨h1 | rfl | h1, h2, h3⟩, h4⟩
    · exact ⟨Or.inl h1, h2, h3⟩
    · exact absurd ⟨rfl, h3.symm⟩ h4
    · exact ⟨Or.inr h1, h2, h3⟩
  · rintro ⟨h1 | h1, h2, h3⟩
    · exact ⟨⟨Or.inl h1, h2, h3⟩, fun hc => hn2 c h1 b List.mem_cons_self hc.1⟩
    · exact ⟨⟨Or.inr (Or.inr h1), h2, h3⟩, fun hc => hn1 (hc.1 ▸ h1)⟩

/-- **Placing keeps a pool well formed.** -/
theorem place_wf (h : WF base a) (hb : b ∈ a.blocks) (hf : b.alloc = false) (hs : 32 ≤ s)
    (h8 : s % 8 = 0) (hsb : s ≤ b.size) : WF base (a.place b s) := by
  obtain ⟨pre, post, e⟩ := List.append_of_mem hb
  have hbs := h.sized b hb
  have hd := drop_nodup h.nodup b
  by_cases hsp : 32 ≤ b.size - s
  · rw [place_split h e hsp]
    have hp : placed b s = ⟨b.addr, s, true⟩ := if_pos hsp
    rw [hp]
    have ht : Tiling b.addr [⟨b.addr, s, true⟩, ⟨b.addr + s, b.size - s, false⟩]
        (b.addr + b.size) := split_tiling (by omega) (by omega)
    have hx := h.exchange (L := push (drop a.lists b) ⟨b.addr + s, b.size - s, false⟩) e hf
      ht (split_sized hs h8 hsp hbs.2)
      (eager_cons.mpr ⟨fun y _ => Or.inl rfl, eager_single _⟩) ?_ ?_
    · simpa using hx
    · intro k c
      rw [mem_push, h.mem_around e, List.mem_cons, List.mem_singleton]
      constructor
      · rintro (⟨rfl, rfl⟩ | ⟨h1 | h1, h2⟩)
        · exact ⟨Or.inr (Or.inl (Or.inr rfl)), rfl, rfl⟩
        · exact ⟨Or.inl h1, h2⟩
        · exact ⟨Or.inr (Or.inr h1), h2⟩
      · rintro ⟨h1 | (rfl | rfl) | h1, h2, h3⟩
        · exact Or.inr ⟨Or.inl h1, h2, h3⟩
        · exact absurd h2 (by simp)
        · exact Or.inl ⟨rfl, h3.symm⟩
        · exact Or.inr ⟨Or.inr h1, h2, h3⟩
    · refine push_nodup hd (fun hm => ?_)
      exact h.not_mem_rest hb (by omega) (by omega)
        ((h.listed _ _).mp ((mem_drop h.nodup).mp hm).1).1
  · rw [place_whole h e hsp]
    have hp : placed b s = ⟨b.addr, b.size, true⟩ := if_neg hsp
    rw [hp]
    have ht : Tiling b.addr [⟨b.addr, b.size, true⟩] (b.addr + b.size) := whole_tiling (by omega)
    have hx := h.exchange (L := drop a.lists b) e hf ht (whole_sized hbs.1 hbs.2) (eager_single _)
      ?_ hd
    · simpa using hx
    · intro k c
      rw [h.mem_around e, List.mem_singleton]
      constructor
      · rintro ⟨h1 | h1, h2⟩
        · exact ⟨Or.inl h1, h2⟩
        · exact ⟨Or.inr (Or.inr h1), h2⟩
      · rintro ⟨h1 | rfl | h1, h2, h3⟩
        · exact ⟨Or.inl h1, h2, h3⟩
        · exact absurd h2 (by simp)
        · exact ⟨Or.inr h1, h2, h3⟩

theorem mem_place_alloc (h : WF base a) (hb : b ∈ a.blocks) (hf : b.alloc = false) {c : Block} :
    c ∈ (a.place b s).blocks ∧ c.alloc = true ↔
      c = placed b s ∨ c ∈ a.blocks ∧ c.alloc = true := by
  obtain ⟨pre, post, e⟩ := List.append_of_mem hb
  have hpu := placed_alloc b s
  have hblocks : ∀ mid, (∀ x ∈ mid, x.alloc = false) →
      (c ∈ pre ++ placed b s :: (mid ++ post) ∧ c.alloc = true ↔
        c = placed b s ∨ c ∈ a.blocks ∧ c.alloc = true) := by
    intro mid hmid
    rw [e]
    simp only [List.mem_append, List.mem_cons]
    constructor
    · rintro ⟨h1 | h1 | h1 | h1, h2⟩
      · exact Or.inr ⟨Or.inl h1, h2⟩
      · exact Or.inl h1
      · rw [hmid c h1] at h2
        exact absurd h2 (by simp)
      · exact Or.inr ⟨Or.inr (Or.inr h1), h2⟩
    · rintro (rfl | ⟨h1 | rfl | h1, h2⟩)
      · exact ⟨Or.inr (Or.inl rfl), hpu⟩
      · exact ⟨Or.inl h1, h2⟩
      · rw [hf] at h2
        exact absurd h2 (by simp)
      · exact ⟨Or.inr (Or.inr (Or.inr h1)), h2⟩
  by_cases hsp : 32 ≤ b.size - s
  · rw [place_split h e hsp]
    exact hblocks [⟨b.addr + s, b.size - s, false⟩] (by simp)
  · rw [place_whole h e hsp]
    exact hblocks [] (by simp)

end

end Pool
end SegList

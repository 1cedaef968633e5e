import SegList.Safety.Wrapped

/-!
# `mm_free` and `mm_realloc` when the break has wrapped

A block below the one that `mm_malloc` made behind the old break can still be given back: `coalesce`
writes the tags and links of free blocks only.

* `Freed A a b u L t`       the heap between the two halves of `mm_free`: `b` is marked, and in no list;
* `Below.free`              the payloads of the other blocks are kept;
* `Rep.realloc_wrapped`     so are they by `mm_realloc`.
-/

set_option linter.unusedSectionVars false

open Bytes Prog Tile

namespace SegList
open Pool

section
variable {A : Arena} {s t v : Heap} {a : Pool} {n u o : Nat} {L : Nat → List Nat} {b c x : Block}

/-! ## `mm_free` -/

/-- the payloads in use, but that of `b`, are the same -/
def Others (a : Pool) (b : Block) (s t : Heap) : Prop :=
  ∀ c ∈ a.blocks, c.alloc = true → c ≠ b → ∀ x, c.addr ≤ x → x < c.addr + c.size - 8 → t.mem x = s.mem x

/-- the word shares no byte with them -/
def OtherWord (a : Pool) (b : Block) (p : Nat) : Prop :=
  ∀ c ∈ a.blocks, c.alloc = true → c ≠ b → p + 4 ≤ c.addr ∨ c.addr + c.size ≤ p + 8

lemma Writes.others (hW : Writes (OtherWord a b) t v) : Others a b t v := by
  intro c hc hu hne x h1 h2
  refine hW.mem x fun p hp => ?_
  have := hp c hc hu hne
  omega

/-- `b`, below `u`, was marked free; it is in no list so far -/
structure Freed (A : Area) (a : Pool) (b : Block) (u : Nat) (L : Nat → List Nat) (t : Heap) :
    Prop where
  strung : Strung A t L
  header : t.word (b.addr - 4) = b.size
  prologue : t.word (A.lo + 132) = 9 ∧ t.word (A.lo + 136) = 9
  tags : ∀ c ∈ a.blocks, c ≠ b → c.addr + c.size ≤ u → Tagged t c
  top : t.word (u - 4) % 2 = 1
  linked : ∀ c ∈ a.blocks, c.alloc = false → c.addr + c.size ≤ u → c.addr ∈ L (cls c.size)
  fresh : ∀ j, b.addr ∉ L j
  cells : ∀ p, Cell A L p → Spare A a u p

namespace Freed

lemma noCell (F : Freed A a b u L t) (R : Rep A s a) (hc : c ∈ a.blocks) (hcu : c.addr + c.size ≤ u) :
    NoCell A L (c.addr - 4) ∧ NoCell A L (c.addr + c.size - 8) := by
  have h0 := R.laid.arena
  have h1 := R.laid.block hc
  refine ⟨fun p hp => ?_, fun p hp => ?_⟩
  · have := ((F.cells p hp).tags c hc hcu).1
    omega
  · have := ((F.cells p hp).tags c hc hcu).2
    omega

lemma prevFree (F : Freed A a b u L t) (R : Rep A s a) (hb : b ∈ a.blocks)
    (hle : b.addr + b.size ≤ u) (hx : x ∈ a.blocks) (hf : x.alloc = false)
    (hend : x.addr + x.size = b.addr) : PrevFree A L t b.addr x.size (b.addr + b.size - 8) := by
  have h0 := R.laid.arena
  have h1 := R.laid.block hb
  have h2 := R.laid.block hx
  have hne : x ≠ b := by
    rintro rfl
    omega
  obtain ⟨ht, ht'⟩ := F.tags x hx hne (by omega)
  rw [tag_of_free hf] at ht ht'
  have ex : b.addr - x.size = x.addr := by omega
  have ex' : b.addr - 8 = x.addr + x.size - 8 := by omega
  have hnx := F.noCell R hx (by omega)
  have hnb := F.noCell R hb hle
  rw [← ex'] at ht' hnx
  refine ⟨⟨h2.2.2.2.1, by omega, by omega⟩, ⟨h1.2.1, by omega, by omega⟩, ?_, ht', ?_, by omega, ?_,
    ?_, hnx.2, hnb.1, hnb.2⟩
  · rw [ex]
    exact ht
  · exact Heap.ftrp_of_tag (show t.word (b.addr - 4) = b.size + 0 from F.header) h1.2.2.2.1 (by omega)
      (by omega) (by omega) (by omega)
  · rw [ex]
    exact F.linked x hx hf (by omega)
  · rw [ex]
    exact hnx.1

lemma nextFree (F : Freed A a b u L t) (R : Rep A s a) (hb : b ∈ a.blocks)
    (hx : x ∈ a.blocks) (hf : x.alloc = false) (hend : x.addr = b.addr + b.size)
    (hxu : x.addr + x.size ≤ u) : NextFree A L t b.addr b.size x.size := by
  have h0 := R.laid.arena
  have h1 := R.laid.block hb
  have h2 := R.laid.block hx
  have hne : x ≠ b := by
    rintro rfl
    omega
  obtain ⟨ht, ht'⟩ := F.tags x hx hne hxu
  rw [tag_of_free hf] at ht ht'
  have hnx := F.noCell R hx hxu
  refine ⟨⟨h2.2.2.2.1, by omega, h1.2.2.2.1, by omega, by omega⟩, ⟨h1.2.1, by omega, by omega⟩, ?_,
    ?_, ?_, (F.noCell R hb (by omega)).1, ?_, ?_⟩
  · rw [← hend]
    exact ht
  · rw [← hend]
    exact ht'
  · rw [← hend]
    exact F.linked x hx hf hxu
  · rw [← hend]
    exact hnx.1
  · rw [← hend]
    exact hnx.2

/-- the block after `b` is the next one, or the one at `u`, which is in use -/
lemma after (F : Freed A a b u L t) (hcut : Cut A a u) (R : Rep A s a) (hb : b ∈ a.blocks)
    (hle : b.addr + b.size ≤ u) : t.getAlloc (hdrp (t.nextBlkp b.addr)) = 1 ∨
      ∃ y ∈ a.blocks, y.alloc = false ∧ y.addr = b.addr + b.size ∧ y.addr + y.size ≤ u := by
  have h0 := R.laid.arena
  have h1 := R.laid.block hb
  have h2 := hcut.range
  have hnext : t.nextBlkp b.addr = b.addr + b.size :=
    Heap.nextBlkp_of_tag (show t.word (b.addr - 4) = b.size + 0 from F.header) h1.2.2.2.1
      (by omega) (by omega) (by omega)
  rw [hnext, SegList.hdrp_eq (by omega) (by omega)]
  by_cases hend : b.addr + b.size = u
  · rw [hend, Heap.getAlloc_eq]
    exact Or.inl F.top
  · obtain ⟨pre, post, e⟩ := List.append_of_mem hb
    have ht := R.laid.tiled
    rw [e] at ht
    obtain ⟨-, -, hpost⟩ := ht.split
    cases post with
    | nil =>
      have h3 : b.addr + b.size = a.brk := hpost
      omega
    | cons y post =>
      have hy : y ∈ a.blocks := by simp [e]
      have h3 : y.addr = b.addr + b.size := hpost.1
      have h4 := R.laid.block hy
      have hyu : y.addr + y.size ≤ u := by
        have := hcut.side y hy
        omega
      have hne : y ≠ b := by
        rintro rfl
        omega
      cases hya : y.alloc with
      | false => exact Or.inr ⟨y, hy, hya, h3, hyu⟩
      | true =>
        have hty := (F.tags y hy hne hyu).1
        rw [tag_of_used hya] at hty
        rw [← h3]
        exact Or.inl (Heap.getAlloc_of_tag hty h4.2.2.2.1 (by decide))

/-- **`coalesce`** writes the tags and links of free blocks only. -/
lemma coalesce (F : Freed A a b u L t) (hcut : Cut A a u) (R : Rep A s a) (hb : b ∈ a.blocks)
    (hle : b.addr + b.size ≤ u) :
    Ends (SegList.coalesce b.addr) t (fun _ v => Writes (OtherWord a b) t v) := by
  have h0 := R.laid.arena
  have h1 := R.laid.block hb
  have h2 := hcut.range
  have e4 : hdrp b.addr = b.addr - 4 := R.laid.hdrp_eq hb
  have hh : t.word (hdrp b.addr) = b.size := by
    rw [e4]
    exact F.header
  have hlink : LinkAt A b.addr := ⟨h1.2.1, by omega, by omega, Or.inr (by omega)⟩
  have hcell : ∀ p, Cell A L p → OtherWord a b p := by
    intro p hp c hc hcu _
    exact (F.cells p hp).payload c hc hcu
  -- the words of `b` and of a free block are no words of the others
  have hmid : ∀ p, b.addr ≤ p + 4 → p + 8 ≤ b.addr + b.size → OtherWord a b p := by
    intro p h3 h4 c hc _ hne
    have h5 := R.laid.block hc
    have h6 := R.laid.apart hc hb hne
    omega
  have hfree : ∀ x ∈ a.blocks, x.alloc = false → ∀ p, x.addr ≤ p + 4 → p + 8 ≤ x.addr + x.size →
      OtherWord a b p := by
    intro x hx hf p h3 h4 c hc hcu _
    have hne : c ≠ x := by
      rintro rfl
      rw [hcu] at hf
      exact absurd hf (by simp)
    have h5 := R.laid.block hc
    have h6 := R.laid.apart hc hx hne
    omega
  obtain ⟨pre, post, e⟩ := List.append_of_mem hb
  have ht := R.laid.tiled
  rw [e] at ht
  rcases before_of_tags R e ht.split.1 F.prologue fun c hc hcb => F.tags c hc (by rintro rfl; omega)
    (by omega) with hp | ⟨x, hx, hxf, hxe⟩
  · rcases F.after hcut R hb hle with hn | ⟨y, hy, hyf, hya, hyu⟩
    · refine (F.strung.coalesce_alone (by omega) (by omega) hp hn hh h1.2.2.2.1 (by omega) hlink
        F.fresh (by rw [e4]; exact (F.noCell R hb hle).1)).mono ?_
      rintro - v ⟨-, -, hW⟩
      refine hW.mono fun p hp => ?_
      rcases hp with rfl | rfl | hp
      · exact hmid _ (by omega) (by omega)
      · exact hmid _ (by omega) (by omega)
      · exact hcell p hp
    · have h3 := R.laid.block hy
      refine (F.strung.coalesce_next (by omega) (by omega) (F.nextFree R hb hy hyf hya hyu) hp hh hlink
        F.fresh).mono fun _ v hW => hW.mono fun p hp => ?_
      unfold MergeWord at hp
      rcases hp with rfl | rfl | rfl | rfl | hp
      · exact hmid _ (by omega) (by omega)
      · exact hmid _ (by omega) (by omega)
      · exact hmid _ (by omega) (by omega)
      · exact hfree y hy hyf _ (by omega) (by omega)
      · exact hcell p hp
  · have h3 := R.laid.block hx
    rcases F.after hcut R hb hle with hn | ⟨y, hy, hyf, hya, hyu⟩
    · refine (F.strung.coalesce_prev (by omega) (by omega) (F.prevFree R hb hle hx hxf hxe) hn hh
        h1.2.2.2.1 (by omega)).mono ?_
      rintro - v ⟨-, hL⟩
      refine (hL (by omega)).2.mono fun p hp => ?_
      unfold MergeWord at hp
      rcases hp with rfl | rfl | hp
      · exact hfree x hx hxf _ (by omega) (by omega)
      · exact hmid _ (by omega) (by omega)
      · exact hcell p hp
    · have h4 := R.laid.block hy
      refine (F.strung.coalesce_both (by omega) (by omega) (F.prevFree R hb hle hx hxf hxe)
        (F.nextFree R hb hy hyf hya hyu) hh (by omega)).mono fun _ v hW => hW.mono fun p hp => ?_
      unfold MergeWord at hp
      rcases hp with rfl | rfl | hp
      · exact hfree x hx hxf _ (by omega) (by omega)
      · exact hfree y hy hyf _ (by omega) (by omega)
      · exact hcell p hp

end Freed

/-- **A block below `u` is given back**: the payloads of the others are kept. -/
theorem Below.free (B : Below A s a u o L t) (hcut : Cut A a u) (R : Rep A s a)
    (hodd : t.word (u - 4) % 2 = 1) (hb : b ∈ a.blocks) (hu : b.alloc = true) :
    Ends (mmFree (b.addr + 8)) t (fun _ v => Others a b s v) := by
  have h0 := R.laid.arena
  have h1 := R.laid.block hb
  have h2 := hcut.range
  have hle : b.addr + b.size ≤ u := by
    rcases hcut.side b hb with h3 | h3
    · exact h3
    · rw [hu] at h3
      exact absurd h3.2 (by simp)
  have e4 : hdrp b.addr = b.addr - 4 := R.laid.hdrp_eq hb
  have e8 : subW (b.addr + 8) DSIZE = b.addr := R.laid.of_payload hb
  have hsz : t.getSize (hdrp b.addr) = b.size := by
    rw [e4]
    exact Heap.getSize_of_tag (B.tags b hb hle).1 h1.2.2.2.1 (toNat_alloc_lt b)
  have hcells : ∀ p, Cell A L p → Spare A a u p := fun p hp => B.spare_cell hcut R hp
  have hmid : ∀ p, p = b.addr - 4 ∨ p = b.addr + b.size - 8 → OtherWord a b p := by
    intro p hp c hc _ hne
    have h5 := R.laid.block hc
    have h6 := R.laid.apart hc hb hne
    omega
  unfold mmFree
  simp only [ends_bind, ends_pure, e8]
  rw [ends_getSize, hsz, ends_tag (by omega) (by omega) (by omega) (by omega) (by omega)]
  have hW : Writes (OtherWord a b) t
      ((t.log (.load (hdrp b.addr) t.memBrk)).tagged b.addr b.size 0) :=
    ((((Writes.refl _ t).log _).store (hmid _ (Or.inl rfl))).log _).store (hmid _ (Or.inr rfl))
  have hword : ∀ q, (b.addr ≤ q ∨ q + 8 ≤ b.addr) →
      (b.addr + b.size ≤ q + 4 ∨ q + 12 ≤ b.addr + b.size) →
      ((t.log (.load (hdrp b.addr) t.memBrk)).tagged b.addr b.size 0).word q = t.word q :=
    fun q h3 h4 => tagged_of_apart (by omega) (by omega) h3 h4
  have hh : ((t.log (.load (hdrp b.addr) t.memBrk)).tagged b.addr b.size 0).word (b.addr - 4)
      = b.size := tagged_header (by omega) (by omega) (by omega)
  generalize Heap.tagged _ _ _ _ = t1 at hW hword hh ⊢
  have F : Freed A a b u L t1 := by
    refine ⟨B.strung.congr hW.start fun p hp => ?_, hh, ⟨?_, ?_⟩, fun c hc hne hcu => ?_, ?_, B.linked,
      fun j hj => ?_, hcells⟩
    · have h3 := (hcells p hp).tags b hb hle
      exact hword p h3.1.symm h3.2.symm
    · rw [hword _ (by omega) (by omega)]
      exact B.prologue.1
    · rw [hword _ (by omega) (by omega)]
      exact B.prologue.2
    · have h3 := R.laid.block hc
      have h4 := R.laid.apart hc hb hne
      exact ⟨(hword _ (by omega) (by omega)).trans (B.tags c hc hcu).1,
        (hword _ (by omega) (by omega)).trans (B.tags c hc hcu).2⟩
    · rw [hword _ (by omega) (by omega)]
      exact hodd
    · have h3 := (hcells _ (Or.inr ⟨j, _, hj, Or.inl rfl⟩)).payload b hb hu
      omega
  refine (F.coalesce hcut R hb hle).mono fun _ v hv c hc hcu hne x h3 h4 => ?_
  rw [(hW.trans hv).others c hc hcu hne x h3 h4]
  exact B.keeps c hc hcu x h3 h4

/-! ## `mm_realloc` -/

lemma Writes.copied (t : Heap) (dst src len : Nat) :
    Writes (fun p => dst ≤ p ∧ p < dst + len) t (t.copied dst src len) := by
  refine ⟨rfl, fun x hx => copyBytes_of_outside t.mem ?_⟩
  by_contra hn
  have := hx x (by omega)
  omega

/-- **`mm_realloc` of a block in use, when the break wraps**: the payloads of the others are kept. -/
theorem Rep.realloc_wrapped (R : Rep A s a) (h : WF A.base a) (hgt : MAX_HEAP < n)
    (hn : n + 39 < 2 ^ 32) (h31 : fitSize n < 2 ^ 31) (hw : 2 ^ 32 ≤ a.brk + fitSize n)
    (hj : ∀ x ∈ a.blocks, x.alloc = false → x.addr + x.size = a.brk →
      x.size + fitSize n ≤ 2 ^ 31 ∧ x.addr + fitSize n ≠ 2 ^ 32)
    (hb : b ∈ a.blocks) (hu : b.alloc = true) :
    Ends (mmRealloc (b.addr + 8) n) s (fun _ t => Others a b s t) := by
  have h0 := R.laid.arena
  have habove := A.above
  have h1 := R.laid.block hb
  have hM : MAX_HEAP = 20971520 := rfl
  have e4 : hdrp b.addr = b.addr - 4 := R.laid.hdrp_eq hb
  have e8 : subW (b.addr + 8) DSIZE = b.addr := R.laid.of_payload hb
  unfold mmRealloc
  rw [ends_ite_neg (by omega), ends_ite_neg (by omega)]
  simp only [ends_bind]
  refine (R.malloc_wrapped h hgt hn h31 hw).mono ?_
  rintro - t ⟨r, rfl, G, hP⟩
  have h2 := G.range
  -- the last block, if it is free, has a class together with the new bytes
  have hlast : a.brk + fitSize n - r ≤ 2 ^ 31 ∧ (r = a.brk ∨ r + fitSize n ≠ 2 ^ 32) := by
    rcases G.last with h3 | ⟨x, hx, hf, hxr, hend⟩
    · exact ⟨by omega, Or.inl h3⟩
    · obtain ⟨h3, h4⟩ := hj x hx hf (by omega)
      exact ⟨by omega, Or.inr (hxr ▸ h4)⟩
  obtain ⟨o, L, B, hodd, ho⟩ := (hP hlast.1).below hlast.2
  have hle : b.addr + b.size ≤ r := by
    rcases G.side b hb with h3 | h3
    · exact h3
    · rw [hu] at h3
      exact absurd h3.2 (by simp)
  have hsz : t.getSize (hdrp (subW (b.addr + 8) DSIZE)) = b.size := by
    rw [e8, e4]
    exact Heap.getSize_of_tag (B.tags b hb hle).1 h1.2.2.2.1 (toNat_alloc_lt b)
  rw [SegList.ends_getSize, hsz, if_neg (by omega), ends_memcpy]
  have hW := Writes.trans ((Writes.refl _ t).log (.load (hdrp (subW (b.addr + 8) DSIZE)) t.memBrk))
    (Writes.copied _ (r + 8) (b.addr + 8) b.size)
  have hout : o = 0 ∨ o + 8 ≤ A.lo ∨ r + 8 + b.size + 4 ≤ o := by
    refine ho.imp_right fun ho => ?_
    rw [ho]
    unfold addW
    omega
  have B' := B.write G.toCut R hW fun p hp => by omega
  refine (B'.free G.toCut R ?_ hb hu).mono fun _ v hv => ?_
  · rw [hW.word fun p hp => by omega]
    exact hodd
  · rw [ends_pure]
    exact hv

end
end SegList

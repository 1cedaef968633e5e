import SegList.Model.Frame
import SegList.Refine.Blocks
import SegList.Refine.Search
import SegList.Refine.Strung

/-!
# `coalesce` on any lists

The four cases of `coalesce` once more, in a heap that need not represent a pool: the tags beside
the block at `b` and the lists are what they should be, and nothing else is known.

* `prev_of_tags`                          the block before, by its two tags;
* `Strung.coalesce_alone`, ...            the four cases: which words are written, and for the two
                                          cases without a free block behind, how the lists end up.
-/

set_option linter.unusedSectionVars false

open Bytes Prog

namespace SegList

section
variable {A : Area} {s t u : Heap} {L : Nat → List Nat} {b d e k p q F : Nat}

lemma hdrp_def (bp : Nat) : hdrp bp = subW bp 4 := rfl

lemma prev_of_tags {bit : Nat} (hf : s.word (q - 8) = k + bit) (hh : s.word (q - k - 4) = k + bit)
    (h8 : k % 8 = 0) (hb : bit < 2) (h0 : 8 ≤ k) (hk : k + 4 ≤ q) (hq : q < 2 ^ 32) :
    s.prevBlkp q = q - k ∧ s.getAlloc (s.ftrp (s.prevBlkp q)) = bit := by
  have e : s.prevBlkp q = q - k := Heap.prevBlkp_of_tag hf h8 hb (by omega) (by omega) hq
  have e' : s.ftrp (q - k) = q - k + k - 8 :=
    Heap.ftrp_of_tag hh h8 hb (by omega) (by omega) (by omega)
  have e'' : q - k + k - 8 = q - 8 := by omega
  refine ⟨e, ?_⟩
  rw [e, e', e'']
  exact Heap.getAlloc_of_tag hf h8 hb

lemma ends_around {pa na : Nat} {Q : Nat → Nat → Nat → Heap → Prop}
    (hp : s.getAlloc (s.ftrp (s.prevBlkp b)) = pa) (hn : s.getAlloc (hdrp (s.nextBlkp b)) = na)
    (hk : s.getSize (hdrp b) = k)
    (hQ : ∀ t, t.mem = s.mem → t.memStartBrk = s.memStartBrk → Q pa na k t) :
    Ends (ftrpOf (prevBlkp b)) s (fun y t1 => Ends (getAlloc y) t1
      (fun pa t2 => Ends (nextBlkp b) t2 (fun z t3 => Ends (getAlloc (hdrp z)) t3
        (fun na t4 => Ends (getSize (hdrp b)) t4 (Q pa na))))) := by
  rw [ends_ftrpOf_prev, ends_getAlloc, ends_nextBlkp, ends_getAlloc, ends_getSize]
  simp only [Heap.log_getAlloc, Heap.log_nextBlkp, Heap.log_getSize, hp, hn, hk]
  apply hQ
  · simp only [Heap.log_mem]
  · simp only [Heap.log_memStartBrk]

/-- the block of `w` bytes at `r` is in the list of its class, and nothing else changed its place -/
structure Linked (A : Area) (L : Nat → List Nat) (r w : Nat) (t : Heap) : Prop where
  lists : ∃ L', Strung A t L' ∧ ∀ j y, y ∈ L' j ↔ j = cls w ∧ y = r ∨ y ∈ L j ∧ y ≠ r
  header : t.word (hdrp r) = w

lemma Writes.of_noCell (h : Writes (Cell A L) s t) (hq : NoCell A L q) : t.word q = s.word q :=
  h.word fun p hp => hq p hp

/-- the words a merge writes: a header, a footer, and cells of the lists -/
def MergeWord (A : Area) (L : Nat → List Nat) (h f p : Nat) : Prop := p = h ∨ p = f ∨ Cell A L p

section
variable {L' : Nat → List Nat} {x : Nat}

lemma Cell.removed (h : Cell A L' p) (hL : ∀ j y, y ∈ L' j ↔ y ∈ L j ∧ y ≠ x) : Cell A L p := by
  rcases h with h | ⟨j, y, hy, h⟩
  · exact Or.inl h
  · exact Or.inr ⟨j, y, ((hL j y).mp hy).1, h⟩

lemma NoCell.removed (h : NoCell A L q) (hL : ∀ j y, y ∈ L' j ↔ y ∈ L j ∧ y ≠ x) : NoCell A L' q :=
  fun p hp => h p (hp.removed hL)

lemma Linked.removed {w : Nat} (h : Linked A L' x w t) (hL : ∀ j y, y ∈ L' j ↔ y ∈ L j ∧ y ≠ x) :
    Linked A L x w t := by
  obtain ⟨L2, S2, hL2⟩ := h.lists
  refine ⟨⟨L2, S2, fun j y => ?_⟩, h.header⟩
  rw [hL2 j y, hL j y, and_assoc, and_self]

end

/-- a free block of `d` bytes before the one at `b`, whose footer is at `F` -/
structure PrevFree (A : Area) (L : Nat → List Nat) (s : Heap) (b d F : Nat) : Prop where
  size : d % 8 = 0 ∧ 8 ≤ d ∧ d ≤ 2 ^ 31
  le : b % 8 = 0 ∧ d + 8 ≤ b ∧ b < 2 ^ 32
  header : s.word (b - d - 4) = d + 0
  footer : s.word (b - 8) = d + 0
  ftrp : s.ftrp b = F
  apart : F + 4 ≤ b - d - 4 ∨ b - 4 ≤ F
  listed : b - d ∈ L (cls d)
  cells : NoCell A L (b - d - 4) ∧ NoCell A L (b - 8) ∧ NoCell A L (b - 4) ∧ NoCell A L F

/-- a free block of `e` bytes after the one of `k` bytes at `b` -/
structure NextFree (A : Area) (L : Nat → List Nat) (s : Heap) (b k e : Nat) : Prop where
  size : e % 8 = 0 ∧ 8 ≤ e ∧ k % 8 = 0 ∧ 8 ≤ k ∧ k + e ≤ 2 ^ 31
  le : b % 8 = 0 ∧ 8 ≤ b ∧ b + k + e < 2 ^ 32
  header : s.word (b + k - 4) = e + 0
  footer : s.word (b + k + e - 8) = e + 0
  listed : b + k ∈ L (cls e)
  cells : NoCell A L (b - 4) ∧ NoCell A L (b + k - 4) ∧ NoCell A L (b + k + e - 8)

namespace PrevFree
variable {v : Heap}

lemma congr (h : PrevFree A L s b d F) (hv : v.mem = s.mem) : PrevFree A L v b d F := by
  have hw := word_of_mem hv
  refine ⟨h.size, h.le, ?_, ?_, ?_, h.apart, h.listed, h.cells⟩
  · rw [hw]
    exact h.header
  · rw [hw]
    exact h.footer
  · rw [← h.ftrp]
    unfold Heap.ftrp Heap.getSize
    rw [hw]

lemma hdrp_eq (h : PrevFree A L s b d F) : hdrp (b - d) = b - d - 4 := by
  have := h.size
  have := h.le
  exact SegList.hdrp_eq (by omega) (by omega)

lemma prevBlkp_eq (h : PrevFree A L s b d F) (hv : v.word (b - 8) = s.word (b - 8)) :
    v.prevBlkp b = b - d := by
  have h1 := h.size
  have h2 := h.le
  exact Heap.prevBlkp_of_tag (hv.trans h.footer) h1.1 (by omega) (by omega) (by omega) h2.2.2

lemma getSize_eq (h : PrevFree A L s b d F) (hv : v.word (b - d - 4) = s.word (b - d - 4)) :
    v.getSize (b - d - 4) = d := Heap.getSize_of_tag (hv.trans h.header) h.size.1 (by omega)

lemma alloc_eq (h : PrevFree A L s b d F) : s.getAlloc (s.ftrp (s.prevBlkp b)) = 0 := by
  have h1 := h.size
  have h2 := h.le
  exact (prev_of_tags h.footer h.header h1.1 (by omega) h1.2.1 (by omega) h2.2.2).2

end PrevFree

namespace NextFree
variable {v : Heap}

lemma congr (h : NextFree A L s b k e) (hv : v.mem = s.mem) : NextFree A L v b k e := by
  have hw := word_of_mem hv
  refine ⟨h.size, h.le, ?_, ?_, h.listed, h.cells⟩
  · rw [hw]
    exact h.header
  · rw [hw]
    exact h.footer

lemma hdrp_eq (h : NextFree A L s b k e) : hdrp (b + k) = b + k - 4 := by
  have := h.size
  have := h.le
  exact SegList.hdrp_eq (by omega) (by omega)

lemma nextBlkp_eq (h : NextFree A L s b k e) (hv : v.word (b - 4) = k) : v.nextBlkp b = b + k := by
  have h1 := h.size
  have h2 := h.le
  exact Heap.nextBlkp_of_tag (show v.word (b - 4) = k + 0 from hv) h1.2.2.1 (by omega) (by omega)
    (by omega)

lemma getSize_eq (h : NextFree A L s b k e) (hv : v.word (b + k - 4) = s.word (b + k - 4)) :
    v.getSize (b + k - 4) = e := Heap.getSize_of_tag (hv.trans h.header) h.size.1 (by omega)

lemma ftrp_eq (h : NextFree A L s b k e) (hv : v.word (b + k - 4) = s.word (b + k - 4)) :
    v.ftrp (b + k) = b + k + e - 8 := by
  have h1 := h.size
  have h2 := h.le
  exact Heap.ftrp_of_tag (hv.trans h.header) h1.1 (by omega) (by omega) (by omega) (by omega)

lemma alloc_eq (h : NextFree A L s b k e) (hh : s.word (b - 4) = k) :
    s.getAlloc (hdrp (s.nextBlkp b)) = 0 := by
  rw [h.nextBlkp_eq hh, h.hdrp_eq]
  exact Heap.getAlloc_of_tag h.header h.size.1 (by omega)

end NextFree

/-- the sizes beside the block, as case 4 of `coalesce` reads them -/
lemma ends_beside (h : PrevFree A L s b d F) (h' : NextFree A L s b k e) (hh : s.word (b - 4) = k)
    {Q : Nat → Nat → Nat → Heap → Prop}
    (hQ : ∀ t, t.mem = s.mem → t.memStartBrk = s.memStartBrk → Q d e (b + k) t) :
    Ends (prevBlkp b) s (fun x t1 => Ends (getSize (hdrp x)) t1 (fun d t2 =>
      Ends (ftrpOf (nextBlkp b)) t2 (fun f t3 => Ends (getSize f) t3 (fun e t4 =>
        Ends (nextBlkp b) t4 (Q d e))))) := by
  have hsize : s.getSize (b + k + e - 8) = e := Heap.getSize_of_tag h'.footer h'.size.1 (by omega)
  rw [ends_prevBlkp, ends_getSize, ends_ftrpOf_next, ends_getSize, ends_nextBlkp]
  simp only [Heap.log_getSize, Heap.log_nextBlkp, Heap.log_ftrp, h.prevBlkp_eq rfl, h.hdrp_eq,
    h.getSize_eq rfl, h'.nextBlkp_eq hh, h'.ftrp_eq rfl, hsize]
  apply hQ
  · simp only [Heap.log_mem]
  · simp only [Heap.log_memStartBrk]

namespace Strung

lemma relink (S : Strung A s L) (h8 : A.lo % 8 = 0) (hlo : A.lo + 128 < 2 ^ 32) {r w : Nat}
    (hr : LinkAt A r) (hno : ∀ j, r ∉ L j) (hw : w % 8 = 0) (h31 : w ≤ 2 ^ 31)
    (hh : s.word (hdrp r) = w) (hc : NoCell A L (hdrp r)) :
    Ends (addToSeglist r) s (fun _ t => Linked A L r w t ∧
      Writes (fun p => p = r ∨ p = r + 4 ∨ Cell A L p) s t) := by
  obtain ⟨h1, h2, h3, h4⟩ := hr
  have e4 : hdrp r = r - 4 := hdrp_eq (by omega) (by omega)
  refine (S.add h8 hlo ⟨h1, h2, h3, h4⟩ hno hh hw h31).mono ?_
  rintro - t ⟨⟨L', S2, hL⟩, hT⟩
  refine ⟨⟨⟨L', S2, fun j y => ?_⟩, ?_⟩, hT⟩
  · rw [hL j y]
    constructor
    · rintro (h | h)
      · exact Or.inl h
      · exact Or.inr ⟨h, fun e => hno j (e ▸ h)⟩
    · rintro (h | h)
      · exact Or.inl h
      · exact Or.inr h.1
  · rw [hT.word, hh]
    rintro p (rfl | rfl | hp)
    · rw [e4]
      omega
    · rw [e4]
      omega
    · exact hc p hp

lemma coalesce_alone (S : Strung A s L) (h8 : A.lo % 8 = 0) (hlo : A.lo + 128 < 2 ^ 32)
    (hp : s.getAlloc (s.ftrp (s.prevBlkp b)) = 1) (hn : s.getAlloc (hdrp (s.nextBlkp b)) = 1)
    (hh : s.word (hdrp b) = k) (hk : k % 8 = 0) (h31 : k ≤ 2 ^ 31) (hb : LinkAt A b)
    (hno : ∀ j, b ∉ L j) (hc : NoCell A L (hdrp b)) :
    Ends (coalesce b) s (fun r t => r = b ∧ Linked A L b k t ∧
      Writes (fun p => p = b ∨ p = b + 4 ∨ Cell A L p) s t) := by
  unfold SegList.coalesce
  simp only [ends_bind]
  apply ends_around hp hn (Heap.getSize_of_tag (show _ = k + 0 from hh) hk (by omega))
  intro u e1 e2
  rw [ends_ite_pos ⟨by omega, by omega⟩, ends_bind]
  have hw := word_of_mem e1
  have S1 : Strung A u L := S.congr e2 fun _ _ => by rw [hw]
  refine (S1.relink h8 hlo hb hno hk h31 (by rw [hw]; exact hh) hc).mono ?_
  rintro - t ⟨hL, hT⟩
  rw [ends_pure]
  exact ⟨rfl, hL, Writes.trans ⟨e2, fun x _ => congrFun e1 x⟩ hT⟩

/-- the two free neighbours leave their lists, the one after first -/
lemma unlink_both (S : Strung A s L) (h8 : A.lo % 8 = 0) (hlo : A.lo + 128 < 2 ^ 32)
    (h : PrevFree A L s b d F) (h' : NextFree A L s b k e) {Q : Nat → Heap → Prop}
    (hQ : ∀ t L', Strung A t L' → (∀ j, b - d ∉ L' j) → (∀ p, Cell A L' p → Cell A L p) →
      Writes (Cell A L) s t → Q (b - d) t) :
    Ends (removeFromSeglist (b + k)) s (fun _ t => Ends (prevBlkp b) t (fun x t =>
      Ends (removeFromSeglist x) t (fun _ t => Ends (prevBlkp b) t Q))) := by
  have h1 := h.size
  have h2 := h.le
  obtain ⟨c1, c2, -, -⟩ := h.cells
  refine (S.remove h8 hlo h'.listed (by rw [h'.hdrp_eq]; exact h'.header) h'.size.1
    (by have := h'.size; omega)).mono ?_
  rintro - t1 ⟨⟨L1, S1, hL1⟩, hW1⟩
  have hx : b - d ∈ L1 (cls d) := (hL1 _ _).mpr ⟨h.listed, by omega⟩
  rw [ends_prevBlkp, h.prevBlkp_eq (hW1.of_noCell c2)]
  refine ((S1.log _).remove h8 hlo hx (by
    rw [h.hdrp_eq]; exact (hW1.of_noCell c1).trans h.header) h1.1 h1.2.2).mono ?_
  rintro - t2 ⟨⟨L2, S2, hL2⟩, hW2⟩
  have hW := (hW1.log (.load (subW b DSIZE) t1.memBrk)).trans (hW2.mono fun _ hp => hp.removed hL1)
  rw [ends_prevBlkp, h.prevBlkp_eq (hW.of_noCell c2)]
  exact hQ _ L2 (S2.log _) (fun j hj => ((hL2 j _).mp hj).2 rfl)
    (fun p hp => (hp.removed hL2).removed hL1) (hW.log _)

/-- the block before is free: whatever the size, its address is returned; if the size has a class,
the merged block is linked -/
lemma coalesce_prev (S : Strung A s L) (h8 : A.lo % 8 = 0) (hlo : A.lo + 128 < 2 ^ 32)
    (h : PrevFree A L s b d F) (hn : s.getAlloc (hdrp (s.nextBlkp b)) = 1)
    (hh : s.word (hdrp b) = k) (hk : k % 8 = 0) (h31 : k < 2 ^ 31) :
    Ends (coalesce b) s (fun r t => r = b - d ∧ (k + d ≤ 2 ^ 31 → Linked A L (b - d) (k + d) t ∧
      Writes (MergeWord A L (b - d - 4) F) s t)) := by
  obtain ⟨hd8, hd0, hd31⟩ := h.size
  obtain ⟨hb8, hdb, hb⟩ := h.le
  obtain ⟨c1, c2, c3, c4⟩ := h.cells
  have hap := h.apart
  have e4 : hdrp b = b - 4 := SegList.hdrp_eq (by omega) hb
  have ew : addW k d = k + d := addW_eq (by omega)
  have epk : pack (k + d) 0 = k + d := pack_eq (by omega) (by omega)
  unfold SegList.coalesce
  simp only [ends_bind]
  apply ends_around h.alloc_eq hn (Heap.getSize_of_tag (show _ = k + 0 from hh) hk (by omega))
  intro u e1 e2
  have hu := h.congr e1
  rw [ends_ite_neg (by omega), ends_ite_neg (by omega), ends_ite_pos ⟨rfl, by omega⟩]
  simp only [ends_bind]
  rw [ends_prevBlkp, hu.prevBlkp_eq rfl, ends_getSize, h.hdrp_eq, Heap.log_getSize,
    hu.getSize_eq rfl, ew, ends_prevBlkp, Heap.log_prevBlkp, Heap.log_prevBlkp, hu.prevBlkp_eq rfl]
  -- the block before leaves its list
  have S1 : Strung A u L := S.congr e2 fun _ _ => by rw [word_of_mem e1]
  have hW1 : Writes (MergeWord A L (b - d - 4) F) s u := ⟨e2, fun x _ => congrFun e1 x⟩
  refine ((((S1.log _).log _).log _).remove h8 hlo h.listed (by
    rw [h.hdrp_eq]; exact hu.header) hd8 hd31).mono ?_
  rintro - t ⟨⟨L1, S2, hL1⟩, hT⟩
  have hW2 := (((hW1.log _).log _).log _).trans (hT.mono fun _ hp => Or.inr (Or.inr hp))
  have hno : ∀ j, b - d ∉ L1 j := fun j hj => ((hL1 j _).mp hj).2 rfl
  have t8 : t.word (b - 8) = u.word (b - 8) := hT.of_noCell c2
  have tF : t.ftrp b = F := by
    rw [← hu.ftrp]
    unfold Heap.ftrp Heap.getSize
    rw [e4, hT.of_noCell c3]
    rfl
  rw [ends_ftrp, tF, ends_put, ends_prevBlkp, hu.prevBlkp_eq (by
    rw [Heap.word_store_of_apart _ (by omega), Heap.log_word, t8]), h.hdrp_eq, epk, ends_put,
    ends_prevBlkp, hu.prevBlkp_eq (by
      rw [Heap.word_store_of_apart _ (by omega), Heap.log_word,
        Heap.word_store_of_apart _ (by omega), Heap.log_word, t8])]
  generalize hw' : Heap.log (Heap.store _ _ _) _ = w
  have hW3 : Writes (MergeWord A L (b - d - 4) F) s w := by
    rw [← hw']
    exact ((((hW2.log _).store (Or.inr (Or.inl rfl))).log _).store (Or.inl rfl)).log _
  have hwh : w.word (b - d - 4) = k + d := by
    rw [← hw', Heap.log_word, Heap.word_store_self _ _ (by omega)]
  by_cases h31' : k + d ≤ 2 ^ 31
  · have S3 : Strung A w L1 := by
      refine S2.congr ?_ fun p hp => ?_
      · rw [hW3.start, S.start, S2.start]
      · have h1 := c1 p (hp.removed hL1)
        have h4 := c4 p (hp.removed hL1)
        rw [← hw', Heap.log_word, Heap.word_store_of_apart _ (by omega), Heap.log_word,
          Heap.word_store_of_apart _ (by omega), Heap.log_word]
    refine (S3.relink h8 hlo (S.node _ _ h.listed) hno (by omega) h31' (by rw [h.hdrp_eq]; exact hwh)
      (by rw [h.hdrp_eq]; exact c1.removed hL1)).mono ?_
    rintro - z ⟨hL, hTz⟩
    rw [ends_pure]
    refine ⟨rfl, fun _ => ⟨hL.removed hL1, hW3.trans (hTz.mono fun p hp => Or.inr (Or.inr ?_))⟩⟩
    rcases hp with hp | hp | hp
    · exact Or.inr ⟨_, _, h.listed, Or.inl hp⟩
    · exact Or.inr ⟨_, _, h.listed, Or.inr hp⟩
    · exact hp.removed hL1
  · refine (access_ends (addToSeglist_built _) w).mono fun _ z _ => ?_
    rw [ends_pure]
    exact ⟨rfl, fun h => absurd h h31'⟩

lemma coalesce_next (S : Strung A s L) (h8 : A.lo % 8 = 0) (hlo : A.lo + 128 < 2 ^ 32)
    (h : NextFree A L s b k e) (hp : s.getAlloc (s.ftrp (s.prevBlkp b)) = 1)
    (hh : s.word (hdrp b) = k) (hb : LinkAt A b) (hno : ∀ j, b ∉ L j) :
    Ends (coalesce b) s (fun _ t => Writes (fun p =>
      p = b ∨ p = b + 4 ∨ MergeWord A L (b - 4) (b + k + e - 8) p) s t) := by
  obtain ⟨he8, he0, hk8, hk0, h31⟩ := h.size
  obtain ⟨hb8, hb0, hlt⟩ := h.le
  obtain ⟨c1, c2, c3⟩ := h.cells
  have e4 : hdrp b = b - 4 := SegList.hdrp_eq (by omega) (by omega)
  have ew : addW k e = k + e := addW_eq (by omega)
  rw [e4] at hh
  unfold SegList.coalesce
  simp only [ends_bind]
  apply ends_around hp (h.alloc_eq hh) (Heap.getSize_of_tag
    (show s.word (hdrp b) = k + 0 by rw [e4, hh]; rfl) hk8 (by omega))
  intro u e1 e2
  have hu := h.congr e1
  have hhu : u.word (b - 4) = k := by
    rw [word_of_mem e1]
    exact hh
  rw [ends_ite_neg (by omega), ends_ite_pos ⟨by omega, rfl⟩]
  simp only [ends_bind]
  rw [ends_nextBlkp, h.nextBlkp_eq hhu, ends_getSize, h.hdrp_eq, Heap.log_getSize,
    hu.getSize_eq rfl, ew, ends_nextBlkp, Heap.log_nextBlkp, Heap.log_nextBlkp, h.nextBlkp_eq hhu]
  have S1 : Strung A u L := S.congr e2 fun _ _ => by rw [word_of_mem e1]
  have hW1 : Writes (fun p => p = b ∨ p = b + 4 ∨ MergeWord A L (b - 4) (b + k + e - 8) p) s u :=
    ⟨e2, fun x _ => congrFun e1 x⟩
  refine ((((S1.log _).log _).log _).remove h8 hlo h.listed (by
    rw [h.hdrp_eq]; exact hu.header) he8 (by omega)).mono ?_
  rintro - t ⟨⟨L1, S2, hL1⟩, hT⟩
  have hW2 := (((hW1.log _).log _).log _).trans
    (hT.mono fun _ hp => Or.inr (Or.inr (Or.inr (Or.inr hp))))
  rw [ends_tag (by omega) (by omega) (by omega) (by omega) (by omega)]
  have ef : b + (k + e) - 8 = b + k + e - 8 := by omega
  have hW3 := ((hW2.store (p := b - 4) (v := k + e + 0) (Or.inr (Or.inr (Or.inl rfl)))).log
    (.load (b - 4) t.memBrk)).store (p := b + (k + e) - 8) (v := k + e + 0)
    (Or.inr (Or.inr (Or.inr (Or.inl ef))))
  have S3 : Strung A (t.tagged b (k + e) 0) L1 := by
    refine S2.congr rfl fun p hp => ?_
    have h1 := c1 p (hp.removed hL1)
    have h3 := c3 p (hp.removed hL1)
    unfold Heap.tagged
    rw [Heap.word_store_of_apart _ (by omega), Heap.log_word, Heap.word_store_of_apart _ (by omega)]
  refine (S3.relink h8 hlo hb (fun j hj => hno j ((hL1 j _).mp hj).1) (by omega) h31 (by
    rw [e4, tagged_header (by omega) (by omega) (by omega)]; rfl)
    (by rw [e4]; exact c1.removed hL1)).mono ?_
  rintro - z ⟨-, hTz⟩
  rw [ends_pure]
  refine hW3.trans (hTz.mono fun p hp => ?_)
  exact hp.imp_right fun h => h.imp_right fun h => Or.inr (Or.inr (h.removed hL1))

lemma coalesce_both (S : Strung A s L) (h8 : A.lo % 8 = 0) (hlo : A.lo + 128 < 2 ^ 32)
    (h : PrevFree A L s b d F) (h' : NextFree A L s b k e) (hh : s.word (hdrp b) = k)
    (h31 : d + k + e ≤ 2 ^ 31) :
    Ends (coalesce b) s (fun _ t =>
      Writes (MergeWord A L (b - d - 4) (b + k + e - 8)) s t) := by
  obtain ⟨hd8, hd0, hd31⟩ := h.size
  obtain ⟨hb8, hdb, hb⟩ := h.le
  obtain ⟨he8, he0, hk8, hk0, -⟩ := h'.size
  obtain ⟨-, hb0, hlt⟩ := h'.le
  obtain ⟨c1, c2, c3, -⟩ := h.cells
  obtain ⟨-, c5, c6⟩ := h'.cells
  have e4 : hdrp b = b - 4 := SegList.hdrp_eq (by omega) (by omega)
  have ew : addW k (addW d e) = d + k + e := by
    rw [addW_eq (a := d) (by omega), addW_eq (by omega)]
    omega
  have epk : pack (d + k + e) 0 = d + k + e := pack_eq (by omega) (by omega)
  rw [e4] at hh
  unfold SegList.coalesce
  simp only [ends_bind]
  apply ends_around h.alloc_eq (h'.alloc_eq hh) (Heap.getSize_of_tag
    (show s.word (hdrp b) = k + 0 by rw [e4, hh]; rfl) hk8 (by omega))
  intro u e1 e2
  rw [ends_ite_neg (by omega), ends_ite_neg (by omega), ends_ite_neg (by omega)]
  simp only [ends_bind]
  apply ends_beside (h.congr e1) (h'.congr e1) (by rw [word_of_mem e1]; exact hh)
  intro v f1 f2
  have hvm := f1.trans e1
  rw [ew]
  have S1 : Strung A v L := S.congr (f2.trans e2) fun _ _ => by rw [word_of_mem hvm]
  have hW1 : Writes (MergeWord A L (b - d - 4) (b + k + e - 8)) s v :=
    ⟨f2.trans e2, fun x _ => congrFun hvm x⟩
  apply S1.unlink_both h8 hlo (h.congr hvm) (h'.congr hvm)
  intro t L2 S2 hno hrem hT
  have hW2 := hW1.trans (hT.mono fun _ hp => Or.inr (Or.inr hp))
  have w2 : ∀ q, NoCell A L q → t.word q = s.word q := fun q hq => by
    rw [hT.of_noCell hq, word_of_mem hvm]
  rw [h.hdrp_eq, epk, ends_put, ends_ftrpOf_next]
  generalize hv3 : Heap.store _ _ _ = v3
  have w3 : ∀ q, (q + 4 ≤ b - d - 4 ∨ b - d ≤ q) → v3.word q = t.word q := fun q hq => by
    rw [← hv3, Heap.word_store_of_apart _ (by omega)]
  have hW3 : Writes (MergeWord A L (b - d - 4) (b + k + e - 8)) s v3 := by
    rw [← hv3]
    exact hW2.store (Or.inl rfl)
  rw [h'.nextBlkp_eq (by rw [w3 _ (by omega), w2 _ c3]; exact hh),
    h'.ftrp_eq (by rw [w3 _ (by omega), w2 _ c5]), ends_put, ends_prevBlkp]
  generalize hv4 : Heap.store _ _ _ = v4
  have w4 : ∀ q, (q + 4 ≤ b + k + e - 8 ∨ b + k + e - 4 ≤ q) → v4.word q = v3.word q := fun q hq => by
    rw [← hv4, Heap.word_store_of_apart _ (by omega), Heap.log_word, Heap.log_word, Heap.log_word]
  have hW4 : Writes (MergeWord A L (b - d - 4) (b + k + e - 8)) s v4 := by
    rw [← hv4]
    exact (((hW3.log _).log _).log _).store (Or.inr (Or.inl rfl))
  have hhead : v4.word (b - d - 4) = d + k + e := by
    rw [w4 _ (by omega), ← hv3, Heap.word_store_self _ _ (by omega)]
  rw [h.prevBlkp_eq (by rw [w4 _ (by omega), w3 _ (by omega), w2 _ c2])]
  have S4 : Strung A (v4.log (.load (subW b DSIZE) v4.memBrk)) L2 := by
    refine S2.congr (by rw [Heap.log_memStartBrk, hW4.start, S.start, S2.start]) fun p hp => ?_
    rw [Heap.log_word, w4 p ((c6 p (hrem p hp)).symm.imp_right (by omega)), ← hv3,
      Heap.word_store_of_apart _ (c1 p (hrem p hp))]
  have hW5 := hW4.log (.load (subW b DSIZE) v4.memBrk)
  refine (S4.relink h8 hlo (S.node _ _ h.listed) hno (by omega) h31
    (by rw [h.hdrp_eq, Heap.log_word]; exact hhead)
    (by rw [h.hdrp_eq]; exact fun p hp => c1 p (hrem p hp))).mono ?_
  rintro - z ⟨-, hTz⟩
  rw [ends_pure]
  refine hW5.trans (hTz.mono fun p hp => Or.inr (Or.inr ?_))
  rcases hp with hp | hp | hp
  · exact Or.inr ⟨_, _, h.listed, Or.inl hp⟩
  · exact Or.inr ⟨_, _, h.listed, Or.inr hp⟩
  · exact hrem p hp

end Strung
end
end SegList

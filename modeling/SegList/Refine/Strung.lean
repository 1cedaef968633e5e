import Mathlib.Data.List.Nodup
import SegList.Refine.Rep

/-!
# Lists whose nodes may lie anywhere

When `mem_sbrk` lets the break wrap, the allocator links a block that is not in the heap, and the
heap represents no pool any more.  Its lists are still lists: `Strung A s L` says that the list of
bucket `k` runs through the nodes `L k`, wherever these lie, and that no link word is shared.

* `Writes C s t`                  from `s` to `t` only words at addresses in `C` were written;
* `Rep.strung`                    the lists of a pool;
* `Strung.add`, `Strung.remove`   what `add_to_seglist` and `remove_from_seglist` do, and which cells
                                  they write.
-/

set_option linter.unusedSectionVars false

open Bytes Prog

namespace SegList

/-- from `s` to `t` only words at addresses in `C` were written -/
structure Writes (C : Nat → Prop) (s t : Heap) : Prop where
  start : t.memStartBrk = s.memStartBrk
  mem : ∀ x, (∀ p, C p → x < p ∨ p + 4 ≤ x) → t.mem x = s.mem x

namespace Writes
variable {C D : Nat → Prop} {s t u : Heap} {p v : Nat}

theorem refl (C : Nat → Prop) (s : Heap) : Writes C s s := ⟨rfl, fun _ _ => rfl⟩

theorem trans (h : Writes C s t) (h' : Writes C t u) : Writes C s u :=
  ⟨h'.start.trans h.start, fun x hx => (h'.mem x hx).trans (h.mem x hx)⟩

theorem mono (h : Writes C s t) (hCD : ∀ p, C p → D p) : Writes D s t :=
  ⟨h.start, fun x hx => h.mem x fun p hp => hx p (hCD p hp)⟩

theorem log (h : Writes C s t) (e : Event) : Writes C s (t.log e) := ⟨h.start, h.mem⟩

theorem store (h : Writes C s t) (hp : C p) : Writes C s (t.store p v) :=
  h.trans ⟨rfl, fun _ hx => setWord_of_outside t.mem (hx p hp)⟩

theorem word (h : Writes C s t) {q : Nat} (hq : ∀ p, C p → q + 4 ≤ p ∨ p + 4 ≤ q) :
    t.word q = s.word q := by
  refine Heap.word_congr fun x h1 h2 => h.mem x fun p hp => ?_
  have := hq p hp
  omega

end Writes

theorem Touches.writes {C : Nat → Prop} {s t : Heap} (h : Touches C s t) : Writes C s t :=
  ⟨h.fixed.start, h.mem⟩

/-- where the two links of a node may lie: outside the bucket table -/
structure LinkAt (A : Area) (y : Nat) : Prop where
  aligned : y % 8 = 0
  pos : 0 < y
  lt : y + 8 ≤ 2 ^ 32
  table : y + 8 ≤ A.lo ∨ A.lo + 128 ≤ y

/-- the list of bucket `k` runs through the nodes `L k` -/
structure Strung (A : Area) (s : Heap) (L : Nat → List Nat) : Prop where
  start : s.memStartBrk = A.lo
  node : ∀ k, ∀ y ∈ L k, LinkAt A y
  nodup : ∀ k, (L k).Nodup
  once : ∀ j k y, y ∈ L j → y ∈ L k → j = k
  chains : ∀ k < 32, Chain s (A.lo + 4 * k) (L k)

/-- the words of the lists: the bucket table and the links of the nodes -/
def Cell (A : Area) (L : Nat → List Nat) (p : Nat) : Prop :=
  (∃ k < 32, p = A.lo + 4 * k) ∨ ∃ k, ∃ y ∈ L k, p = y ∨ p = y + 4

/-- the word at `q` shares no byte with a word of the lists -/
def NoCell (A : Area) (L : Nat → List Nat) (q : Nat) : Prop :=
  ∀ p, Cell A L p → q + 4 ≤ p ∨ p + 4 ≤ q

section
variable {A : Area} {s t : Heap} {a : Pool} {L : Nat → List Nat} {k x n : Nat}

theorem Rep.strung (R : Rep A s a) : Strung A s (fun k => (a.lists k).map Block.addr) := by
  have h0 := R.laid.arena
  refine ⟨R.laid.start, fun k y hy => ?_, fun k => ?_, fun j k y hj hk => ?_, R.threaded.chains⟩
  · obtain ⟨b, hb, rfl⟩ := List.mem_map.mp hy
    have h1 := R.laid.block (R.threaded.listed k b hb).1
    exact ⟨h1.2.1, by omega, by omega, by omega⟩
  · refine List.Nodup.map_on (fun b hb c hc e => ?_) (R.threaded.nodup k)
    exact R.laid.tiled.eq_of_addr (R.threaded.listed k b hb).1 (R.threaded.listed k c hc).1 e
  · obtain ⟨b, hb, rfl⟩ := List.mem_map.mp hj
    obtain ⟨c, hc, e⟩ := List.mem_map.mp hk
    obtain ⟨h1, -, h2⟩ := R.threaded.listed j b hb
    obtain ⟨h3, -, h4⟩ := R.threaded.listed k c hc
    rw [← h2, ← h4, R.laid.tiled.eq_of_addr h3 h1 e]

namespace Strung

theorem congr (S : Strung A s L) (hst : t.memStartBrk = s.memStartBrk)
    (hw : ∀ p, Cell A L p → t.word p = s.word p) : Strung A t L := by
  refine ⟨hst.trans S.start, S.node, S.nodup, S.once, fun k hk => ?_⟩
  have hc := S.chains k hk
  unfold Chain at hc ⊢
  rw [hw _ (Or.inl ⟨k, hk, rfl⟩)]
  exact hc.congr (fun y hy => hw _ (Or.inr ⟨k, y, hy, Or.inl rfl⟩))
    (fun y hy => hw _ (Or.inr ⟨k, y, hy, Or.inr rfl⟩))

lemma log (S : Strung A s L) (ev : Event) : Strung A (s.log ev) L := S.congr rfl fun _ _ => rfl

lemma two {j y z : Nat} (S : Strung A s L) (hy : y ∈ L j) (hz : z ∈ L k) (hne : y ≠ z) :
    y + 8 ≤ z ∨ z + 8 ≤ y := by
  have h1 := (S.node j y hy).aligned
  have h2 := (S.node k z hz).aligned
  omega

lemma apart (S : Strung A s L) (hk : k < 32) : Apart (A.lo + 4 * k) (L k) := by
  refine ⟨fun y hy => ?_, fun y hy => ?_, ?_⟩
  · have h1 := S.node k y hy
    exact ⟨h1.pos, h1.lt⟩
  · have h1 := (S.node k y hy).table
    omega
  · exact (S.nodup k).imp_of_mem fun hy hz hne => S.two hy hz hne

/-- a list that changes, with its cells: the other lists stay what they are -/
lemma relist (S : Strung A s L) (h8 : A.lo % 8 = 0) (hk : k < 32) {l : List Nat}
    {C : Nat → Prop} (hl : ∀ y ∈ l, LinkAt A y) (hn : l.Nodup)
    (hj : ∀ j, j ≠ k → ∀ y ∈ l, y ∉ L j) (hc : Chain t (A.lo + 4 * k) l) (hT : Touches C s t)
    (hC : ∀ p, C p → p = A.lo + 4 * k ∨ ∃ y, (y ∈ l ∨ y ∈ L k) ∧ (p = y ∨ p = y + 4)) :
    Strung A t (Function.update L k l) := by
  have hupd : ∀ j, Function.update L k l j = if j = k then l else L j :=
    fun j => Function.update_apply ..
  have hout : ∀ j, j ≠ k → ∀ y, (y ∈ l ∨ y ∈ L k) → y ∉ L j := by
    rintro j hne y (hy | hy) hyj
    · exact hj j hne y hy hyj
    · exact hne (S.once j k y hyj hy)
  have hat : ∀ y, (y ∈ l ∨ y ∈ L k) → LinkAt A y := fun y hy => hy.elim (hl y) (S.node k y)
  refine ⟨hT.fixed.start.trans S.start, fun j y hy => ?_, fun j => ?_, fun i j y hi hj' => ?_,
    fun j hj32 => ?_⟩
  · rw [hupd] at hy
    split at hy
    · exact hl y hy
    · exact S.node j y hy
  · rw [hupd]
    split
    · exact hn
    · exact S.nodup j
  · rw [hupd] at hi hj'
    split at hi <;> split at hj'
    · next e e' => rw [e, e']
    · next _ e => exact absurd hj' (hj j e y hi)
    · next e _ => exact absurd hi (hj i e y hj')
    · exact S.once i j y hi hj'
  · rw [hupd]
    split
    · next e =>
      rw [e]
      exact hc
    · next hne =>
      refine (S.chains j hj32).frame hT (fun p hp => ?_) (fun z hz p hp => ?_)
      · rcases hC p hp with rfl | ⟨y, hy, hpy⟩
        · omega
        · have h1 := (hat y hy).table
          omega
      · have h1 := S.node j z hz
        have h2 := h1.aligned
        have h3 := h1.table
        rcases hC p hp with rfl | ⟨y, hy, hpy⟩
        · omega
        · have h4 := (hat y hy).aligned
          have hne' : y ≠ z := fun e => hout j hne y hy (e ▸ hz)
          omega

/-- **`add_to_bucket`** of a node that is in no list -/
theorem addToBucket (S : Strung A s L) (h8 : A.lo % 8 = 0) (hk : k < 32) (hx : LinkAt A x)
    (hno : ∀ j, x ∉ L j) : Ends (SegList.addToBucket x (A.lo + 4 * k)) s (fun _ t =>
      Strung A t (Function.update L k (x :: L k)) ∧
        Touches (fun p => p = x ∨ p = x + 4 ∨ Cell A L p) s t) := by
  have hl : ∀ y ∈ x :: L k, LinkAt A y := by
    intro y hy
    rcases List.mem_cons.mp hy with rfl | hy
    · exact hx
    · exact S.node k y hy
  have hn : (x :: L k).Nodup := List.nodup_cons.mpr ⟨hno k, S.nodup k⟩
  have hap : Apart (A.lo + 4 * k) (x :: L k) := by
    refine ⟨fun y hy => ⟨(hl y hy).pos, (hl y hy).lt⟩, fun y hy => ?_, ?_⟩
    · have h1 := (hl y hy).table
      omega
    · refine hn.imp_of_mem fun {y z} hy hz hne => ?_
      have h1 := (hl y hy).aligned
      have h2 := (hl z hz).aligned
      omega
  refine (addToBucket_spec (S.chains k hk) hap).mono ?_
  rintro - t ⟨hc, hT⟩
  have hC : ∀ p, addCells (A.lo + 4 * k) x (L k) p →
      p = A.lo + 4 * k ∨ ∃ y ∈ x :: L k, p = y ∨ p = y + 4 := by
    rintro p (rfl | rfl | rfl | ⟨y, hy, rfl⟩)
    · exact Or.inl rfl
    · exact Or.inr ⟨p, List.mem_cons_self, Or.inl rfl⟩
    · exact Or.inr ⟨x, List.mem_cons_self, Or.inr rfl⟩
    · exact Or.inr ⟨y, List.mem_cons_of_mem _ (List.mem_of_mem_head? hy), Or.inr rfl⟩
  refine ⟨S.relist h8 hk hl hn (fun j hne y hy hyj => ?_) hc hT fun p hp => ?_, hT.mono fun p hp => ?_⟩
  · rcases List.mem_cons.mp hy with rfl | hy
    · exact hno j hyj
    · exact hne (S.once j k y hyj hy)
  · rcases hC p hp with h | ⟨y, hy, h⟩
    · exact Or.inl h
    · exact Or.inr ⟨y, Or.inl hy, h⟩
  · rcases hC p hp with h | ⟨y, hy, h⟩
    · exact Or.inr (Or.inr (Or.inl ⟨k, hk, h⟩))
    · rcases List.mem_cons.mp hy with rfl | hy
      · exact h.imp_right Or.inl
      · exact Or.inr (Or.inr (Or.inr ⟨k, y, hy, h⟩))

/-- **`remove_from_bucket`** of a node of the list -/
theorem removeFromBucket (S : Strung A s L) (h8 : A.lo % 8 = 0) (hk : k < 32) (hx : x ∈ L k) :
    Ends (SegList.removeFromBucket x (A.lo + 4 * k)) s (fun _ t =>
      Strung A t (Function.update L k ((L k).erase x)) ∧ Touches (Cell A L) s t) := by
  have hc := S.chains k hk
  have hap := S.apart hk
  have hn := S.nodup k
  obtain ⟨pre, post, e⟩ := List.append_of_mem hx
  have he : (L k).erase x = pre ++ post := by
    rw [e] at hn ⊢
    have h1 : x ∉ pre := fun h => (List.nodup_append.mp hn).2.2 x h x List.mem_cons_self rfl
    rw [List.erase_append_right _ h1, List.erase_cons_head]
  rw [e] at hc hap
  refine (removeFromBucket_spec hc hap).mono ?_
  rintro - t ⟨hc, hT⟩
  rw [← he] at hc
  have hC : ∀ p, removeCells (A.lo + 4 * k) x pre post p →
      p = A.lo + 4 * k ∨ ∃ y ∈ L k, p = y ∨ p = y + 4 := by
    rw [e]
    rintro p (rfl | rfl | rfl | hp | ⟨y, hy, rfl⟩)
    · exact Or.inl rfl
    · exact Or.inr ⟨p, by simp, Or.inl rfl⟩
    · exact Or.inr ⟨x, by simp, Or.inr rfl⟩
    · exact Or.inr ⟨p, List.mem_append_left _ (List.mem_of_getLast? hp), Or.inl rfl⟩
    · exact Or.inr ⟨y, List.mem_append_right _
        (List.mem_cons_of_mem _ (List.mem_of_mem_head? hy)), Or.inr rfl⟩
  refine ⟨S.relist h8 hk (fun y hy => S.node k y (List.mem_of_mem_erase hy)) (hn.erase x)
    (fun j hne y hy hyj => hne (S.once j k y hyj (List.mem_of_mem_erase hy))) hc hT fun p hp => ?_,
    hT.mono fun p hp => ?_⟩
  · rcases hC p hp with h | ⟨y, hy, h⟩
    · exact Or.inl h
    · exact Or.inr ⟨y, Or.inr hy, h⟩
  · rcases hC p hp with h | ⟨y, hy, h⟩
    · exact Or.inl ⟨k, hk, h⟩
    · exact Or.inr ⟨k, y, hy, h⟩

lemma mem_added {j y : Nat} :
    y ∈ Function.update L k (x :: L k) j ↔ j = k ∧ y = x ∨ y ∈ L j := by
  rw [Function.update_apply]
  split
  · next e =>
    rw [e, List.mem_cons]
    simp
  · next hne => simp [hne]

lemma mem_removed (S : Strung A s L) (hx : x ∈ L k) {j y : Nat} :
    y ∈ Function.update L k ((L k).erase x) j ↔ y ∈ L j ∧ y ≠ x := by
  rw [Function.update_apply]
  split
  · next e =>
    rw [e, (S.nodup k).mem_erase_iff, and_comm]
  · next hne => exact ⟨fun hy => ⟨hy, fun e => hne (S.once j k x (e ▸ hy) hx)⟩, And.left⟩

lemma ends_bucket (S : Strung A s L) (hlo : A.lo + 128 < 2 ^ 32) (hn : n % 4 = 0) (h31 : n ≤ 2 ^ 31)
    {Q : Nat → Heap → Prop} (hQ : cls n < 32 → Q (A.lo + 4 * cls n) s) :
    Ends (findBucket (n / WSIZE)) s Q := by
  have hk : cls n ≤ 31 := (Nat.clog_le_iff_le_pow (by omega)).mpr h31
  have hb : addW A.lo (WSIZE * Nat.clog 2 n) = A.lo + 4 * cls n :=
    addW_eq (show A.lo + 4 * cls n < 2 ^ 32 by omega)
  rw [ends_of_run (findBucket_run s n hn (by omega)), if_pos h31, S.start, hb]
  exact hQ (by omega)

/-- **`add_to_seglist`** of a node that is in no list, with `n` bytes in its header -/
theorem add (S : Strung A s L) (h8 : A.lo % 8 = 0) (hlo : A.lo + 128 < 2 ^ 32) (hx : LinkAt A x)
    (hno : ∀ j, x ∉ L j) (hhead : s.word (hdrp x) = n + 0) (hn : n % 8 = 0) (h31 : n ≤ 2 ^ 31) :
    Ends (addToSeglist x) s (fun _ t =>
      (∃ L', Strung A t L' ∧ ∀ j y, y ∈ L' j ↔ j = cls n ∧ y = x ∨ y ∈ L j) ∧
        Writes (fun p => p = x ∨ p = x + 4 ∨ Cell A L p) s t) := by
  unfold addToSeglist
  simp only [ends_bind]
  rw [ends_getSize, Heap.getSize_of_tag hhead hn (by omega)]
  have S1 : Strung A (s.log (.load (hdrp x) s.memBrk)) L := S.congr rfl fun _ _ => rfl
  refine S1.ends_bucket hlo (by omega) h31 fun hk => ?_
  refine (S1.addToBucket h8 hk hx hno).mono ?_
  rintro - t ⟨S2, hT⟩
  exact ⟨⟨_, S2, fun _ _ => mem_added⟩, ((Writes.refl _ s).log _).trans hT.writes⟩

theorem add_writes (S : Strung A s L) (hlo : A.lo + 128 < 2 ^ 32) (hx : x + 8 ≤ 2 ^ 32)
    (hhead : s.word (hdrp x) = n + 0) (hn : n % 8 = 0) (h31 : n ≤ 2 ^ 31) :
    Ends (addToSeglist x) s (fun _ t => Writes (fun p => p = x ∨ p = x + 4 ∨ Cell A L p) s t) := by
  have hx4 : addW x WSIZE = x + 4 := addW_eq (show x + 4 < 2 ^ 32 by omega)
  unfold addToSeglist
  simp only [ends_bind]
  rw [ends_getSize, Heap.getSize_of_tag hhead hn (by omega)]
  have S1 : Strung A (s.log (.load (hdrp x) s.memBrk)) L := S.congr rfl fun _ _ => rfl
  refine S1.ends_bucket hlo (by omega) h31 fun hk => ?_
  have hW : Writes (fun p => p = x ∨ p = x + 4 ∨ Cell A L p) s
      (s.log (.load (hdrp x) s.memBrk)) := (Writes.refl _ s).log _
  have hcell : Cell A L (A.lo + 4 * cls n) := Or.inl ⟨_, hk, rfl⟩
  unfold SegList.addToBucket
  simp only [ends_bind, ends_get, ends_put, ends_ite, hx4]
  have hW2 := ((hW.log (.load (A.lo + 4 * cls n) s.memBrk)).store (v := 0) (Or.inl rfl)).store
    (v := 0) (Or.inr (Or.inl rfl))
  constructor
  · intro _
    exact hW2.store (Or.inr (Or.inr hcell))
  · intro hne
    -- the node that stood first
    have hhd := (S.chains _ hk).head_eq
    cases hl : L (cls n) with
    | nil =>
      rw [hl] at hhd
      exact absurd hhd hne
    | cons y l =>
      rw [hl] at hhd
      have hy : y ∈ L (cls n) := hl ▸ List.mem_cons_self
      have h1 := (S.node _ y hy).lt
      have e : addW (Heap.word (s.log (.load (hdrp x) s.memBrk)) (A.lo + 4 * cls n)) WSIZE = y + 4 := by
        rw [Heap.log_word, hhd]
        exact addW_eq (show y + 4 < 2 ^ 32 by omega)
      rw [e]
      refine ((hW2.store (Or.inr (Or.inr (Or.inr ⟨_, y, hy, Or.inr rfl⟩)))).store (Or.inl rfl)).store ?_
      exact Or.inr (Or.inr hcell)

/-- **`remove_from_seglist`** of a node in the list of its class -/
theorem remove (S : Strung A s L) (h8 : A.lo % 8 = 0) (hlo : A.lo + 128 < 2 ^ 32)
    (hx : x ∈ L (cls n)) (hhead : s.word (hdrp x) = n + 0) (hn : n % 8 = 0) (h31 : n ≤ 2 ^ 31) :
    Ends (removeFromSeglist x) s (fun _ t =>
      (∃ L', Strung A t L' ∧ ∀ j y, y ∈ L' j ↔ y ∈ L j ∧ y ≠ x) ∧ Writes (Cell A L) s t) := by
  unfold removeFromSeglist
  simp only [ends_bind]
  rw [ends_getSize, Heap.getSize_of_tag hhead hn (by omega)]
  have S1 : Strung A (s.log (.load (hdrp x) s.memBrk)) L := S.congr rfl fun _ _ => rfl
  refine S1.ends_bucket hlo (by omega) h31 fun hk => ?_
  refine (S1.removeFromBucket h8 hk hx).mono ?_
  rintro - t ⟨S2, hT⟩
  exact ⟨⟨_, S2, fun _ _ => S1.mem_removed hx⟩, ((Writes.refl _ s).log _).trans hT.writes⟩

end Strung
end
end SegList

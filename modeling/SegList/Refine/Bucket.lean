import SegList.Lib.Linked
import SegList.Model.View
import Mathlib.Data.Nat.Log

/-!
# The lists of the bucket table

`Chain s h l`: the word at `h` starts a doubly linked, `0`-terminated list through the nodes `l`
(`next` in a node's first word, `prev` in its second).  `Apart h l`: the link words of the nodes
overlap neither each other nor the word at `h`.

* `findBucket_run`         the class of a size, or no class above `2^31`;
* `addToBucket_spec`       a node put in front of the list;
* `removeFromBucket_spec`  a node taken out of the list, wherever it stands.

Both say which words are touched, so every list elsewhere stays what it is (`Chain.frame`).
-/

set_option linter.unusedSectionVars false

open Bytes Prog

namespace SegList

/-! ## classes -/

theorem findBucketFrom_run (s : Heap) (sz rounds k : Nat) (hsz : sz % 4 = 0) (hlt : sz < 2 ^ 32)
    (hk : k + rounds = 32) (hc : k ≤ Nat.clog 2 sz) :
    findBucketFrom (sz / WSIZE) rounds k s
      = some (if sz ≤ 2 ^ 31 then addW s.memStartBrk (WSIZE * Nat.clog 2 sz) else 0, s) := by
  have hw := mulW_words hsz hlt
  induction rounds generalizing k with
  | zero =>
    have h32 : ¬ sz ≤ 2 ^ 31 := by
      intro hle
      have := (Nat.clog_le_iff_le_pow (by omega) : Nat.clog 2 sz ≤ 31 ↔ _).mpr hle
      omega
    rw [if_neg h32]
    rfl
  | succ rounds ih =>
    rw [findBucketFrom, hw, Nat.one_shiftLeft]
    by_cases hle : sz ≤ 2 ^ k
    · have h1 := (Nat.clog_le_iff_le_pow (by omega) : Nat.clog 2 sz ≤ k ↔ _).mpr hle
      have h2 : k = Nat.clog 2 sz := by omega
      have h3 : sz ≤ 2 ^ 31 :=
        hle.trans (Nat.pow_le_pow_right (by omega) (by omega))
      rw [if_pos hle, if_pos h3, ← h2]
      rfl
    · have h1 : k < Nat.clog 2 sz := by
        rw [Nat.lt_clog_iff_pow_lt (by omega)]
        omega
      rw [if_neg hle]
      exact ih (k + 1) (by omega) h1

/-- **`find_bucket`**: the bucket of the smallest class, `0` when the size is above every class -/
theorem findBucket_run (s : Heap) (sz : Nat) (hsz : sz % 4 = 0) (hlt : sz < 2 ^ 32) :
    findBucket (sz / WSIZE) s
      = some (if sz ≤ 2 ^ 31 then addW s.memStartBrk (WSIZE * Nat.clog 2 sz) else 0, s) :=
  findBucketFrom_run s sz BUCKETS_COUNT 0 hsz hlt rfl (Nat.zero_le _)

/-! ## lists in memory -/

/-- the word at `h` starts a doubly linked, `0`-terminated list through the nodes `l` -/
def Chain (s : Heap) (h : Nat) (l : List Nat) : Prop :=
  DList.Linked s.word (fun x => s.word (x + 4)) 0 0 (s.word h) l

/-- the link words of the nodes `l` overlap neither each other nor the word at `h` -/
structure Apart (h : Nat) (l : List Nat) : Prop where
  small : ∀ y ∈ l, 0 < y ∧ y + 8 ≤ 2 ^ 32
  head : ∀ y ∈ l, h + 4 ≤ y ∨ y + 8 ≤ h
  pair : l.Pairwise (fun y z => y + 8 ≤ z ∨ z + 8 ≤ y)

theorem Chain.head_eq {s : Heap} {h : Nat} {l : List Nat} (hc : Chain s h l) :
    s.word h = l.headD 0 := hc.start_eq

/-- a list none of whose words is touched stays what it is -/
theorem Chain.frame {s t : Heap} {h : Nat} {l : List Nat} {C : Nat → Prop} (hc : Chain s h l)
    (ht : Touches C s t) (hh : ∀ p, C p → h + 4 ≤ p ∨ p + 4 ≤ h)
    (hl : ∀ y ∈ l, ∀ p, C p → y + 8 ≤ p ∨ p + 4 ≤ y) : Chain t h l := by
  unfold Chain
  rw [ht.word hh]
  refine hc.congr (fun y hy => ht.word (fun p hp => ?_)) (fun y hy => ht.word (fun p hp => ?_))
  · have := hl y hy p hp
    omega
  · have := hl y hy p hp
    omega

/-- the words `add_to_bucket(b, h)` touches: the head, the links of `b`, and the backward link of
the old first node -/
def addCells (h b : Nat) (l : List Nat) (p : Nat) : Prop :=
  p = h ∨ p = b ∨ p = b + 4 ∨ ∃ y ∈ l.head?, p = y + 4

/-- **`add_to_bucket` puts the node in front of the list.** -/
theorem addToBucket_spec {s : Heap} {h b : Nat} {l : List Nat} (hc : Chain s h l)
    (ha : Apart h (b :: l)) :
    Ends (addToBucket b h) s (fun _ t => Chain t h (b :: l) ∧ Touches (addCells h b l) s t) := by
  have hb := ha.small b List.mem_cons_self
  have hbh := ha.head b List.mem_cons_self
  have hb4 : addW b WSIZE = b + 4 := addW_eq (show b + 4 < 2 ^ 32 by omega)
  have hpair := List.pairwise_cons.mp ha.pair
  unfold addToBucket
  simp only [ends_bind, ends_get, ends_put, hb4]
  cases l with
  | nil =>
    have hh : s.word h = 0 := hc.head_eq
    rw [ends_ite_pos hh, ends_put]
    refine ⟨?_, ?_⟩
    · unfold Chain
      rw [Heap.word_store_self _ _ (by omega)]
      refine DList.Linked.push hc (by omega) ?_ ?_ (by simp) (by simp) (by simp)
      · rw [hh]
        simp (disch := omega) only [Heap.word_store_of_apart, Heap.word_store_self]
      · simp (disch := omega) only [Heap.word_store_of_apart, Heap.word_store_self]
    · exact ((((Touches.refl _ s).load (Or.inl rfl)).store (Or.inr (Or.inl rfl))).store
        (Or.inr (Or.inr (Or.inl rfl)))).store (Or.inl rfl)
  | cons y ys =>
    have hh : s.word h = y := hc.head_eq
    have hy := ha.small y (by simp)
    have hyh := ha.head y (by simp)
    have hby := hpair.1 y (by simp)
    have hys := List.pairwise_cons.mp hpair.2
    have hy4 : addW y WSIZE = y + 4 := addW_eq (show y + 4 < 2 ^ 32 by omega)
    rw [hh, ends_ite_neg (by omega), hy4]
    simp only [ends_bind, ends_put]
    refine ⟨?_, ?_⟩
    · unfold Chain
      rw [Heap.word_store_self _ _ (by omega)]
      refine DList.Linked.push hc (by omega) ?_ ?_ ?_ ?_ ?_
      · rw [hh]
        simp (disch := omega) only [Heap.word_store_of_apart, Heap.word_store_self]
      · simp (disch := omega) only [Heap.word_store_of_apart, Heap.word_store_self]
      · intro z hz
        have h1 := ha.head z (List.mem_cons_of_mem _ hz)
        have h2 := hpair.1 z hz
        have h3 : z = y ∨ y + 8 ≤ z ∨ z + 8 ≤ y := by
          rcases List.mem_cons.mp hz with rfl | hz
          · exact Or.inl rfl
          · exact Or.inr (hys.1 z hz)
        simp (disch := omega) only [Heap.word_store_of_apart, Heap.log_word]
      · intro z hz
        obtain rfl : y = z := Option.some.inj hz
        simp (disch := omega) only [Heap.word_store_of_apart, Heap.word_store_self]
      · intro z hz
        have h1 := ha.head z (List.mem_cons_of_mem _ (List.mem_cons_of_mem _ hz))
        have h2 := hpair.1 z (List.mem_cons_of_mem _ hz)
        have h3 := hys.1 z hz
        simp (disch := omega) only [Heap.word_store_of_apart, Heap.log_word]
    · exact ((((((Touches.refl _ s).load (Or.inl rfl)).store (Or.inr (Or.inl rfl))).store
        (Or.inr (Or.inr (Or.inl rfl)))).store (Or.inr (Or.inr (Or.inr ⟨y, rfl, rfl⟩)))).store
        (Or.inr (Or.inl rfl))).store (Or.inl rfl)

/-- the words `remove_from_bucket(x, h)` touches: the head, the links of `x`, the forward link of
the node before `x`, and the backward link of the node after it -/
def removeCells (h x : Nat) (pre post : List Nat) (p : Nat) : Prop :=
  p = h ∨ p = x ∨ p = x + 4 ∨ p ∈ pre.getLast? ∨ ∃ z ∈ post.head?, p = z + 4

theorem Apart.node {h x : Nat} {pre post : List Nat} (ha : Apart h (pre ++ x :: post)) :
    0 < x ∧ x + 8 ≤ 2 ^ 32 ∧ (h + 4 ≤ x ∨ x + 8 ≤ h) ∧
      ∀ y ∈ pre ++ post, x + 8 ≤ y ∨ y + 8 ≤ x := by
  obtain ⟨h1, h2⟩ := ha.small x (by simp)
  refine ⟨h1, h2, ha.head x (by simp), fun y hy => ?_⟩
  obtain ⟨-, h3, h4⟩ := List.pairwise_append.mp ha.pair
  rcases List.mem_append.mp hy with hy | hy
  · exact (h4 y hy x List.mem_cons_self).symm
  · exact (List.pairwise_cons.mp h3).1 y hy

theorem Apart.two {h y z : Nat} {l : List Nat} (ha : Apart h l) (hy : y ∈ l) (hz : z ∈ l)
    (hne : y ≠ z) : y + 8 ≤ z ∨ z + 8 ≤ y := by
  obtain ⟨pre, post, rfl⟩ := List.append_of_mem hz
  exact (ha.node.2.2.2 y (by simpa [hne] using hy)).symm

theorem Apart.store_next {h q : Nat} {l : List Nat} (ha : Apart h l) (t : Heap) (v : Nat)
    (hq : q ∈ l) : (t.store q v).word h = t.word h ∧
      (∀ y ∈ l, y ≠ q → (t.store q v).word y = t.word y) ∧
      ∀ y ∈ l, (t.store q v).word (y + 4) = t.word (y + 4) := by
  have h1 := ha.head q hq
  have h2 : ∀ y ∈ l, y ≠ q → y + 8 ≤ q ∨ q + 8 ≤ y := fun y hy => ha.two hy hq
  refine ⟨Heap.word_store_of_apart _ (by omega), fun y hy hne => ?_, fun y hy => ?_⟩
  · have h3 := h2 y hy hne
    exact Heap.word_store_of_apart _ (by omega)
  · have h3 := h2 y hy
    exact Heap.word_store_of_apart _ (by omega)

theorem Apart.store_prev {h z : Nat} {l : List Nat} (ha : Apart h l) (t : Heap) (v : Nat)
    (hz : z ∈ l) : (t.store (z + 4) v).word h = t.word h ∧
      (∀ y ∈ l, (t.store (z + 4) v).word y = t.word y) ∧
      ∀ y ∈ l, y ≠ z → (t.store (z + 4) v).word (y + 4) = t.word (y + 4) := by
  have h1 := ha.head z hz
  have h2 : ∀ y ∈ l, y ≠ z → y + 8 ≤ z ∨ z + 8 ≤ y := fun y hy => ha.two hy hz
  refine ⟨Heap.word_store_of_apart _ (by omega), fun y hy => ?_, fun y hy hne => ?_⟩
  · have h3 := h2 y hy
    exact Heap.word_store_of_apart _ (by omega)
  · have h3 := h2 y hy hne
    exact Heap.word_store_of_apart _ (by omega)

theorem removeFromBucket_first {s : Heap} {h x : Nat} {post : List Nat}
    (hc : Chain s h (x :: post)) (ha : Apart h (x :: post)) :
    Ends (removeFromBucket x h) s
      (fun _ t => Chain t h post ∧ Touches (removeCells h x [] post) s t) := by
  obtain ⟨hx, hx8, hxh, -⟩ := (show Apart h ([] ++ x :: post) from ha).node
  have hpair := List.pairwise_cons.mp ha.pair
  have hh : s.word h = x := hc.head_eq
  have hn : s.word x = post.headD 0 := (show Chain s h ([] ++ x :: post) from hc).next_eq
  have hT := ((((Touches.refl (removeCells h x [] post) s).load (p := h) (Or.inl rfl)).load
    (p := x) (Or.inr (Or.inl rfl))).store (p := h) (v := s.word x) (Or.inl rfl)).load (p := x)
    (Or.inr (Or.inl rfl))
  have e : (((s.log (.load h s.memBrk)).log (.load x s.memBrk)).store h (s.word x)).word x
      = post.headD 0 := by
    rw [Heap.word_store_of_apart _ (by omega)]
    exact hn
  unfold removeFromBucket
  rw [ends_bind, ends_get, ends_ite_pos hh]
  simp only [ends_bind, ends_get, ends_put, Heap.log_word, Heap.log_memBrk, Heap.store_memBrk,
    ends_ite, e]
  cases post with
  | nil =>
    refine ⟨fun h0 => absurd rfl h0, fun _ => ?_⟩
    rw [ends_pure]
    refine ⟨?_, hT⟩
    show Heap.word _ h = 0
    rw [Heap.log_word, Heap.word_store_self _ _ (Heap.word_lt s x), hn]
    rfl
  | cons z zs =>
    have hz : s.word x = z := hn
    obtain ⟨hz0, hz8⟩ := ha.small z (by simp)
    have hzh := ha.head z (by simp)
    have hxz := hpair.1 z (by simp)
    have hzs := List.pairwise_cons.mp hpair.2
    have hz4 : addW z WSIZE = z + 4 := addW_eq (show z + 4 < 2 ^ 32 by omega)
    refine ⟨fun _ => ?_, fun h0 => absurd (not_not.mp h0) (show z ≠ 0 by omega)⟩
    rw [List.headD_cons, hz4]
    refine ⟨?_, hT.store (Or.inr (Or.inr (Or.inr (Or.inr ⟨z, rfl, rfl⟩))))⟩
    unfold Chain
    rw [Heap.word_store_of_apart _ (by omega), Heap.log_word,
      Heap.word_store_self _ _ (Heap.word_lt s x)]
    refine DList.Linked.pop hc ?_ ?_ ?_
    · intro y hy
      have h1 := ha.head y (List.mem_cons_of_mem _ hy)
      have h2 : y = z ∨ z + 8 ≤ y ∨ y + 8 ≤ z := by
        rcases List.mem_cons.mp hy with rfl | hy
        · exact Or.inl rfl
        · exact Or.inr (hzs.1 y hy)
      simp (disch := omega) only [Heap.word_store_of_apart, Heap.log_word]
    · intro y hy
      obtain rfl : z = y := Option.some.inj hy
      rw [Heap.word_store_self _ _ (by omega)]
    · intro y hy
      have h1 := ha.head y (List.mem_cons_of_mem _ (List.mem_cons_of_mem _ hy))
      have h2 := hzs.1 y hy
      simp (disch := omega) only [Heap.word_store_of_apart, Heap.log_word]

theorem Apart.others {h x y : Nat} {pre post : List Nat} (ha : Apart h (pre ++ x :: post))
    (hy : y ∈ pre ++ post) : (x + 8 ≤ y ∨ y + 8 ≤ x) ∧ (h + 4 ≤ y ∨ y + 8 ≤ h) ∧ y + 8 ≤ 2 ^ 32 := by
  have hm : y ∈ pre ++ x :: post := by
    rcases List.mem_append.mp hy with hy | hy
    · exact List.mem_append_left _ hy
    · exact List.mem_append_right _ (List.mem_cons_of_mem _ hy)
  exact ⟨ha.node.2.2.2 y hy, ha.head y hm, (ha.small y hm).2⟩

theorem removeFromBucket_later {s : Heap} {h x q : Nat} {pre post : List Nat}
    (hc : Chain s h (pre ++ q :: x :: post)) (ha : Apart h (pre ++ q :: x :: post)) :
    Ends (removeFromBucket x h) s (fun _ t => Chain t h (pre ++ q :: post) ∧
      Touches (removeCells h x (pre ++ [q]) post) s t) := by
  have hax : Apart h ((pre ++ [q]) ++ x :: post) := by simpa using ha
  have hcx : Chain s h ((pre ++ [q]) ++ x :: post) := by simpa using hc
  obtain ⟨hx, hx8, hxh, hxa⟩ := hax.node
  obtain ⟨hq, hq8, -, hqa⟩ := ha.node
  have hqx := (ha.others (y := x) (by simp)).1
  have hxq : s.word (x + 4) = q := hc.neighbours.2
  have hn : s.word x = post.headD 0 := hcx.next_eq
  have hh : s.word h ≠ x := by
    -- the list starts with `q` or with a node before it
    rw [hc.head_eq]
    cases pre with
    | nil =>
      show q ≠ x
      omega
    | cons y ys =>
      have h1 := hxa y (by simp)
      show y ≠ x
      omega
  have hx4 : addW x WSIZE = x + 4 := addW_eq (show x + 4 < 2 ^ 32 by omega)
  have hcq : removeCells h x (pre ++ [q]) post q :=
    Or.inr (Or.inr (Or.inr (Or.inl (by simp))))
  have hT := (((((Touches.refl (removeCells h x (pre ++ [q]) post) s).load (p := h)
    (Or.inl rfl)).load (p := x + 4) (Or.inr (Or.inr (Or.inl rfl)))).load
    (p := x) (Or.inr (Or.inl rfl))).store (p := q) (v := s.word x) hcq).load (p := q) hcq
  have hself : ∀ t : Heap, (t.store q (s.word x)).word q = s.word x := fun t =>
    Heap.word_store_self _ _ (Heap.word_lt s x)
  unfold removeFromBucket
  rw [ends_bind, ends_get, ends_ite_neg hh]
  simp only [ends_bind, ends_get, ends_put, Heap.log_word, Heap.log_memBrk, Heap.store_memBrk,
    hx4, hxq, ends_ite]
  refine ⟨fun _ => ?_, fun h0 => absurd (not_not.mp h0) (by omega)⟩
  simp only [hself]
  -- the nodes that stay, and what writing the forward link of `q` leaves of them
  have hmem : ∀ y ∈ pre ++ q :: post, y ∈ pre ++ q :: x :: post := fun y hy =>
    (((List.sublist_cons_self x post).cons_cons q).append_left pre).subset hy
  have hq' := fun t : Heap => ha.store_next t (s.word x) (hmem q (by simp))
  have hkeep : ∀ t : Heap, ∀ y ∈ pre ++ post, (t.store q (s.word x)).word y = t.word y := by
    intro t y hy
    have h1 := hqa y (((List.sublist_cons_self x post).append_left pre).subset hy)
    have h2 := ((List.sublist_cons_self q post).append_left pre).subset hy
    exact (hq' t).2.1 y (hmem y h2) (by omega)
  cases post with
  | nil =>
    refine ⟨fun h0 => absurd hn h0, fun _ => ?_⟩
    rw [ends_pure]
    refine ⟨?_, hT⟩
    unfold Chain
    rw [Heap.log_word, (hq' _).1]
    exact DList.Linked.unlink hc (hself _) (hkeep _) (by simp)
      (fun y hy => (hq' _).2.2 y (hmem y hy))
  | cons z zs =>
    have hz : s.word x = z := hn
    have haz : Apart h ((pre ++ [q, x]) ++ z :: zs) := by simpa using ha
    obtain ⟨hz0, hz8, -, hza⟩ := haz.node
    have hz4 : addW (s.word x) WSIZE = z + 4 := by
      rw [hz]
      exact addW_eq (show z + 4 < 2 ^ 32 by omega)
    refine ⟨fun _ => ?_, fun h0 => absurd (not_not.mp h0) (by omega)⟩
    simp only [hz4]
    refine ⟨?_, hT.store (Or.inr (Or.inr (Or.inr (Or.inr ⟨z, rfl, rfl⟩))))⟩
    have hz' := fun t : Heap => ha.store_prev t q (hmem z (by simp))
    unfold Chain
    rw [(hz' _).1, Heap.log_word, (hq' _).1]
    refine DList.Linked.unlink hc ?_ ?_ ?_ ?_
    · rw [(hz' _).2.1 q (hmem q (by simp)), Heap.log_word, hself]
    · intro y hy
      have h1 := ((List.sublist_cons_self q (z :: zs)).append_left pre).subset hy
      rw [(hz' _).2.1 y (hmem y h1), Heap.log_word, hkeep _ y hy]
      rfl
    · intro y hy
      obtain rfl : z = y := Option.some.inj hy
      exact Heap.word_store_self _ _ (by omega)
    · intro y hy
      have h1 := (((List.sublist_cons_self z zs).cons_cons q).append_left pre).subset hy
      have h2 := (((List.sublist_cons_self x zs).cons_cons q).append_left pre).subset hy
      have h3 := hza y (by simpa using h2)
      rw [(hz' _).2.2 y (hmem y h1) (by omega), Heap.log_word]
      exact (hq' _).2.2 y (hmem y h1)

/-- **`remove_from_bucket` takes the node out of the list**, wherever it stands. -/
theorem removeFromBucket_spec {s : Heap} {h x : Nat} {pre post : List Nat}
    (hc : Chain s h (pre ++ x :: post)) (ha : Apart h (pre ++ x :: post)) :
    Ends (removeFromBucket x h) s (fun _ t => Chain t h (pre ++ post) ∧
      Touches (removeCells h x pre post) s t) := by
  rcases List.eq_nil_or_concat pre with rfl | ⟨pre', q, rfl⟩
  · exact removeFromBucket_first hc ha
  · have hc' : Chain s h (pre' ++ q :: x :: post) := by simpa using hc
    have ha' : Apart h (pre' ++ q :: x :: post) := by simpa using ha
    simpa using removeFromBucket_later hc' ha'

end SegList

import SegList.Refine.Bucket

/-!
# Bucket surgery on any list

`add_to_bucket` and `remove_from_bucket` on a bucket whose list runs through any block addresses,
whatever else is in memory: they are `b :: l` and `l.erase x`, and change the words around the edit
only.

* `Edits`            what an edit at one node leaves alone: all other words, the other lists;
* `bucket_surgery`   both operations, at every position of the list.
-/

set_option linter.unusedSectionVars false

open Bytes Prog

namespace SegList

/-- block addresses: not `0`, with their two link words outside the bucket table at `lo`, and pairwise
at least 8 bytes apart -/
structure Nodes (lo : Nat) (l : List Nat) : Prop where
  block : ∀ y ∈ l, y ≠ 0 ∧ y + 8 ≤ 2 ^ 32
  table : ∀ y ∈ l, y + 8 ≤ lo ∨ lo + WSIZE * BUCKETS_COUNT ≤ y
  apart : l.Pairwise (fun y z => y + 8 ≤ z ∨ z + 8 ≤ y)

/-- the head `h` of the bucket, the links of `b`, and the links to `b` in its neighbours in `l` -/
def EditWord (h b : Nat) (l : List Nat) (p : Nat) : Prop :=
  p = h ∨ p = b ∨ p = b + 4 ∨ [p, b] <:+: l ∨ ∃ z, [b, z] <:+: l ∧ p = z + 4

/-- from `s` to `t` at most the words of an edit at `b` in the list `l` of bucket `k` changed, so
every other bucket that keeps its links elsewhere has the list it had -/
structure Edits (lo k b : Nat) (l : List Nat) (s t : Heap) : Prop where
  statics : Fixed s t
  bytes : ∀ x, (∀ p, EditWord (lo + 4 * k) b l p → x < p ∨ p + 4 ≤ x) → t.mem x = s.mem x
  others : ∀ j < BUCKETS_COUNT, j ≠ k → ∀ l', Chain s (lo + 4 * j) l' →
    (∀ y ∈ l', ∀ p, EditWord (lo + 4 * k) b l p → y + 8 ≤ p ∨ p + 4 ≤ y) →
    Chain t (lo + 4 * j) l'

section
variable {lo k b x : Nat} {l : List Nat} {s t : Heap}

lemma Nodes.apart_head (h : Nodes lo l) (hk : k < BUCKETS_COUNT) : Apart (lo + 4 * k) l := by
  have hB : BUCKETS_COUNT = 32 := rfl
  refine ⟨fun y hy => ?_, fun y hy => ?_, h.apart⟩
  · have := h.block y hy
    omega
  · have h1 : y + 8 ≤ lo ∨ lo + 4 * 32 ≤ y := h.table y hy
    omega

lemma EditWord.cases {h p : Nat} (hb : b ∈ l) (hp : EditWord h b l p) :
    p = h ∨ ∃ y ∈ l, p = y ∨ p = y + 4 := by
  rcases hp with rfl | rfl | rfl | hp | ⟨z, hz, rfl⟩
  · exact Or.inl rfl
  · exact Or.inr ⟨p, hb, Or.inl rfl⟩
  · exact Or.inr ⟨b, hb, Or.inr rfl⟩
  · exact Or.inr ⟨p, hp.subset (by simp), Or.inl rfl⟩
  · exact Or.inr ⟨z, hz.subset (by simp), Or.inr rfl⟩

lemma Edits.of_touches (h : Nodes lo l) (hb : b ∈ l)
    (hT : Touches (EditWord (lo + 4 * k) b l) s t) : Edits lo k b l s t := by
  refine ⟨hT.fixed, hT.mem, fun j hj hne l' hc hl' => hc.frame hT (fun p hp => ?_) hl'⟩
  rcases hp.cases hb with rfl | ⟨y, hy, hp⟩
  · omega
  · have h1 := (h.apart_head hj).head y hy
    omega

lemma addCells_edit {h p : Nat} (hp : addCells h b l p) : EditWord h b (b :: l) p := by
  rcases hp with rfl | rfl | rfl | ⟨y, hy, rfl⟩
  · exact Or.inl rfl
  · exact Or.inr (Or.inl rfl)
  · exact Or.inr (Or.inr (Or.inl rfl))
  · obtain ⟨l', rfl⟩ := List.head?_eq_some_iff.mp hy
    exact Or.inr (Or.inr (Or.inr (Or.inr ⟨y, ⟨[], l', rfl⟩, rfl⟩)))

lemma removeCells_edit {h p : Nat} {pre post : List Nat} (hp : removeCells h x pre post p) :
    EditWord h x (pre ++ x :: post) p := by
  rcases hp with rfl | rfl | rfl | hp | ⟨z, hz, rfl⟩
  · exact Or.inl rfl
  · exact Or.inr (Or.inl rfl)
  · exact Or.inr (Or.inr (Or.inl rfl))
  · obtain ⟨pre', rfl⟩ := List.getLast?_eq_some_iff.mp hp
    exact Or.inr (Or.inr (Or.inr (Or.inl ⟨pre', post, by simp⟩)))
  · obtain ⟨post', rfl⟩ := List.head?_eq_some_iff.mp hz
    exact Or.inr (Or.inr (Or.inr (Or.inr ⟨z, ⟨pre, post', by simp⟩, rfl⟩)))

/-- **The two bucket operations are list operations**: on a bucket that represents the list `l`,
adding makes it `b :: l`, removing makes it `l.erase x`, and nothing else changes. -/
theorem bucket_surgery (hk : k < BUCKETS_COUNT) (hl : Nodes lo l) (hc : Chain s (lo + 4 * k) l) :
    (∀ b, Nodes lo (b :: l) → Ends (addToBucket b (lo + 4 * k)) s (fun _ t =>
      Chain t (lo + 4 * k) (b :: l) ∧ Edits lo k b (b :: l) s t)) ∧
    (∀ x ∈ l, Ends (removeFromBucket x (lo + 4 * k)) s (fun _ t =>
      Chain t (lo + 4 * k) (l.erase x) ∧ Edits lo k x l s t)) := by
  constructor
  · intro b hb
    refine (addToBucket_spec hc (hb.apart_head hk)).mono fun _ t ht => ⟨ht.1, ?_⟩
    exact .of_touches hb List.mem_cons_self (ht.2.mono fun p hp => addCells_edit hp)
  · intro x hx
    have hap := hl.apart_head hk
    obtain ⟨pre, post, rfl⟩ := List.append_of_mem hx
    have hxpre : x ∉ pre := by
      intro hm
      have h1 := hap.node.2.2.2 x (List.mem_append_left _ hm)
      omega
    rw [List.erase_append_right _ hxpre, List.erase_cons_head]
    refine (removeFromBucket_spec hc hap).mono fun _ t ht => ⟨ht.1, ?_⟩
    exact .of_touches hl hx (ht.2.mono fun p hp => removeCells_edit hp)

/-- the nodes 200 and 300 in bucket 5 of a table at address 8 -/
def Sample.linked : Heap :=
  ⟨fun x => if x = 28 ∨ x = 304 then 200 else if x = 200 then 44 else if x = 201 then 1 else 0,
    8, 0, 0, 0, []⟩

theorem bucket_surgery_sample :
    Ends (addToBucket 400 (8 + 4 * 5)) Sample.linked (fun _ t =>
      Chain t (8 + 4 * 5) [400, 200, 300] ∧ Edits 8 5 400 [400, 200, 300] Sample.linked t) ∧
    Ends (removeFromBucket 300 (8 + 4 * 5)) Sample.linked (fun _ t =>
      Chain t (8 + 4 * 5) [200] ∧ Edits 8 5 300 [200, 300] Sample.linked t) := by
  have hn : ∀ l, l <:+ [400, 200, 300] → Nodes 8 l := by
    intro l hl
    have hall : ∀ y ∈ [400, 200, 300], y ≠ 0 ∧ y + 8 ≤ 2 ^ 32 ∧ 8 + 4 * 32 ≤ y := by decide
    have hap : [400, 200, 300].Pairwise (fun y z => y + 8 ≤ z ∨ z + 8 ≤ y) := by decide
    exact ⟨fun y hy => ⟨(hall y (hl.subset hy)).1, (hall y (hl.subset hy)).2.1⟩,
      fun y hy => Or.inr (hall y (hl.subset hy)).2.2, hap.sublist hl.sublist⟩
  have hc : Chain Sample.linked (8 + 4 * 5) [200, 300] :=
    show Sample.linked.word 28 = 200 ∧ 200 ≠ 0 ∧ Sample.linked.word 204 = 0 ∧
      Sample.linked.word 200 = 300 ∧ 300 ≠ 0 ∧ Sample.linked.word 304 = 200 ∧
      Sample.linked.word 300 = 0 by decide
  have h := bucket_surgery (by decide) (hn [200, 300] (by decide)) hc
  exact ⟨h.1 400 (hn _ (by decide)), h.2 300 (by decide)⟩

end
end SegList

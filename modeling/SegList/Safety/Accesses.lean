import SegList.Model.Frame
import SegList.Refine.Run

/-!
# Where the allocator reads and writes

* `access_inside`   in every ordinary run each `GET`, `PUT` and dereference of the next call is at
                    an aligned word of the heap as it is at that moment; none is at address `0`,
                    so `remove_from_bucket` never unlinks an inner node without a predecessor, and
                    no list helper is called without a bucket.
-/

set_option linter.unusedSectionVars false

open Bytes Prog

namespace SegList
open Pool

/-- the word accesses of a program that ran from `s` to `t` -/
structure AccessSafe (s t : Heap) : Prop where
  /-- each is at a 4-aligned word between `mem_heap_lo()` and the break at that moment -/
  inside : ∃ evs, t.trace = evs ++ s.trace ∧ ∀ e ∈ evs, e.Ok s.memStartBrk
  /-- none is at address `0` -/
  notNull : ∀ evs, t.trace = evs ++ s.trace → ∀ brk, .load 0 brk ∉ evs ∧ .store 0 brk ∉ evs
  /-- a call of `remove_from_bucket` on the way finds its block at the head of the list, or a node
  before it -/
  hasPrev : ∀ u v p q, Grows s u → removeFromBucket p q u = some ((), v) → Grows v t →
    u.word q = p ∨ u.word (addW p WSIZE) ≠ 0
  /-- a call of a list helper on the way is given a bucket -/
  hasBucket : ∀ u v p q, Grows s u →
    addToBucket p q u = some ((), v) ∨ removeFromBucket p q u = some ((), v) → Grows v t → q ≠ 0

section
variable {s t u v : Heap} {p q : Nat}

/-! ## what a missing node or bucket would leave in the log -/

/-- an inner node without a predecessor: the word at address `0` is read -/
lemma removeFromBucket_null (h : removeFromBucket p q u = some ((), v)) (hq : u.word q ≠ p)
    (hp : u.word (addW p WSIZE) = 0) : .load 0 u.memBrk ∈ v.trace := by
  unfold removeFromBucket at h
  rw [get_run, if_neg hq, get_run, Heap.log_word, hp, if_neg (by simp), pure_bind, get_run] at h
  exact List.IsSuffix.subset (access_moves (R := Grows) (.ite (put_built _ _) (.pure _)) _ _ _ h)
    List.mem_cons_self

/-- the first access of the list helpers is to the bucket -/
lemma bucket_load (h : addToBucket p q u = some ((), v) ∨ removeFromBucket p q u = some ((), v)) :
    .load q u.memBrk ∈ v.trace := by
  have hload : .load q u.memBrk ∈ (u.log (.load q u.memBrk)).trace := List.mem_cons_self
  have hrest : ∀ f : Nat → M Unit, (∀ node, Built Access (f node)) →
      (get q >>= f) u = some ((), v) → .load q u.memBrk ∈ v.trace := by
    intro f hf hr
    rw [get_run] at hr
    exact List.IsSuffix.subset (access_moves (R := Grows) (hf _) _ _ _ hr) hload
  rcases h with h | h
  · obtain ⟨f, e, hf⟩ := addToBucket_head p q
    exact hrest f hf (e ▸ h)
  · obtain ⟨f, e, hf⟩ := removeFromBucket_head p q
    exact hrest f hf (e ▸ h)

lemma AccessSafe.of_clean (hg : Grows s t) (hc : t.Clean) (hst : t.memStartBrk = s.memStartBrk)
    (h0 : 0 < s.memStartBrk) : AccessSafe s t := by
  have hlow : ∀ brk, ¬ (0 % 4 = 0 ∧ t.memStartBrk ≤ 0 ∧ 0 + 4 ≤ brk) := by
    intro brk hb
    omega
  have hno : ∀ brk, .load 0 brk ∉ t.trace := fun brk hm => hlow brk (hc _ hm)
  refine ⟨?_, fun evs he brk => ⟨fun hm => ?_, fun hm => ?_⟩, fun u v p q _ hr hv => ?_,
    fun u v p q _ hr hv => ?_⟩
  · obtain ⟨evs, he⟩ := hg
    refine ⟨evs, he.symm, fun e hm => ?_⟩
    rw [← hst]
    exact hc e (he ▸ List.mem_append_left _ hm)
  · exact hno brk (he ▸ List.mem_append_left _ hm)
  · exact hlow brk (hc (.store 0 brk) (he ▸ List.mem_append_left _ hm))
  · by_contra hne
    rw [not_or, not_not] at hne
    exact hno _ (hv.subset (removeFromBucket_null hr hne.1 hne.2))
  · rintro rfl
    exact hno _ (hv.subset (bucket_load hr))

end

section
variable {lo : Nat} {c : Client} {k : Call}

lemma Call.run_grows (k : Call) : Moves Grows k.run := by
  have hfree : ∀ p, Moves Grows (mmFree p) := fun p => access_moves (mmFree_built p)
  cases k with
  | malloc n => exact stmt_grows (mmMalloc_built n)
  | free p => exact (hfree p).bind fun _ => .pure _
  | realloc p n =>
    refine .ite (stmt_grows (mmMalloc_built n)) (.ite ((hfree p).bind fun _ => .pure _) ?_)
    refine (stmt_grows (mmMalloc_built n)).bind fun _ => ?_
    refine (access_moves (getSize_built _)).bind fun _ => .bind ?_ fun _ => ?_
    · intro s r t h
      obtain ⟨-, rfl⟩ := Prod.mk.inj (Option.some.inj h)
      exact List.suffix_cons _ _
    · exact (hfree p).bind fun _ => .pure _

/-- **Metadata accesses stay inside the heap**: the next call of the client, whatever its state,
returns, and reads and writes words of the heap only. -/
theorem access_inside (h : Ordinary lo c) (hk : k.Names c.live) (hz : k.SizeLe MAX_HEAP)
    (hf : k.Finds c.heap) : Ends k.run c.heap (fun _ t => AccessSafe c.heap t) := by
  obtain ⟨A, -, a, hT⟩ := h.tracks
  obtain ⟨r, t, hrun, hd⟩ := call_spec hT hk hz (hf.found hT hz)
  have h0 := hT.rep.laid.arena
  have hs := hT.rep.laid.start
  refine ⟨r, t, hrun, .of_clean (k.run_grows _ r t hrun) hd.rep.clean ?_ (by omega)⟩
  exact hd.rep.laid.start.trans hs.symm

theorem access_inside_sample :
    Ends (Call.free 160).run Sample.client.heap (fun _ t => AccessSafe Sample.client.heap t) :=
  access_inside (k := .free 160) Sample.client_ordinary ⟨40, List.mem_singleton.mpr rfl⟩ trivial
    trivial

end
end SegList

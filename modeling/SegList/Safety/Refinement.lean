import SegList.Refine.Readout

/-!
# The allocator refines segregated LIFO first fit

`run_refines`: an ordinary run of the byte-level allocator is, call for call and pointer for
pointer, a run of the pool, and in the state it reaches

* the walks through the heap find the blocks, the sequences and the break of the pool;
* every call the client may make returns, with the pointer the pool returns;
* a `mm_realloc` that moves a payload copies it.
-/

set_option linter.unusedSectionVars false

open Bytes Prog

namespace SegList
open Pool

section
variable {lo : Nat} {m : Mem} {ls : List Label} {c : Client}

/-- the client's calls return as the pool's do -/
def Answers {base limit : Nat} (c : Client) (a : SoundPool base limit) : Prop :=
  ∀ k : Call, k.Names c.live → k.SizeLe MAX_HEAP → k.Found (a.call k).1 →
    ∃ t, k.run c.heap = some ((a.call k).1, t)

/-- a payload that `mm_realloc` moves keeps its bytes, up to the smaller size -/
def Copies (c : Client) : Prop :=
  ∀ p k n r c', (p, k) ∈ c.live → 0 < n → c.Step (.call (.realloc p n) r) c' →
    ∀ i, i < n → i < k → c'.heap.mem (r + i) = c.heap.mem (p + i)

lemma Tracks.answers {A : Arena} {a : SoundPool A.base A.limit} (h : Tracks A c a) :
    Answers c a := by
  intro k hk hz hf
  obtain ⟨r, t, e, hd⟩ := call_spec h hk hz hf
  refine ⟨t, ?_⟩
  rw [← hd.ret]
  exact e

lemma Tracks.copies_hold {A : Arena} {a : SoundPool A.base A.limit} (h : Tracks A c a) : Copies c := by
  intro p k n r c' hp hn hs i hi hik
  obtain ⟨b, hb, hu, h1, h2, -⟩ := h.owns.backed p k hp
  have h3 := le_fitSize k
  exact (h.does hs).2.copies p n rfl (by omega) b hb hu h1 i hi (by omega)

/-- **The byte-level allocator refines the pool.** -/
theorem run_refines (h : Trail lo m ls c) :
    ∃ a, Lts.Run SoundPool.Steps (firstPool lo) ls a ∧ c.heap.Shows a.toPool ∧ Answers c a ∧
      Copies c := by
  obtain ⟨A, rfl, a, hrun, hT⟩ := h.follows
  exact ⟨a, hrun, hT.rep.shows, hT.answers, hT.copies_hold⟩

theorem run_refines_sample : ∃ a,
    Lts.Run SoundPool.Steps (firstPool 8) [.call (.malloc 40) 160] a ∧
      Sample.client.heap.Shows a.toPool ∧ Answers Sample.client a ∧ Copies Sample.client :=
  run_refines Sample.client_trail

end
end SegList

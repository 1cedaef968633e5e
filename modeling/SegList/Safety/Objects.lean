import SegList.Pool.Objects
import SegList.Safety.Payload

/-!
# The allocator implements objects

`objects_implemented`: in every state of an ordinary run, the live pointers are those of the objects
that the run's calls and writes make, and memory holds every byte that the objects know.  What was
written into a payload stays there through any calls about other pointers, and moves along in a
`mm_realloc`.

* `Objects.InMemory`      the bytes that the objects know are in the memory of the heap;
* `Objects.InMemory.step`  every step of the client keeps this, one case for each label;
* `Objects.inMemory_after` and so does a run of such steps.
-/

set_option linter.unusedSectionVars false

open Bytes Prog

namespace SegList
open Pool

/-- memory holds what the object knows -/
def Obj.InMemory (o : Obj) (s : Heap) : Prop := ∀ i v, o.bytes i = some v → s.mem (o.ptr + i) = v

/-- the objects are those of the client, and memory holds what they know -/
structure Objects.InMemory (S : Objects) (c : Client) : Prop where
  live : S.live = c.live
  bytes : ∀ o ∈ S, o.InMemory c.heap

section
variable {A : Arena} {c c' : Client} {a : SoundPool A.base A.limit} {S : Objects} {o : Obj}
  {k : Call} {s t : Heap} {r p n : Nat} {l : Label}

/-! ## one object -/

lemma Obj.inMemory_blank : (Obj.make p n fun _ => none).InMemory s := by
  intro i v hv
  have hv : (if i < n then none else none) = some v := hv
  rw [ite_self] at hv
  exact absurd hv (by simp)

lemma Obj.InMemory.congr (h : o.InMemory s)
    (hk : ∀ x, o.ptr ≤ x → x < o.ptr + o.size → t.mem x = s.mem x) : o.InMemory t := by
  intro i v hv
  have hi := Obj.lt_of_known hv
  rw [hk _ (by omega) (by omega)]
  exact h i v hv

lemma Obj.InMemory.write (h : o.InMemory s) (x : Nat) (v : UInt8) :
    (o.write x v).InMemory (s.poke x v) := by
  intro i w hw
  have hi : i < (o.write x v).size := Obj.lt_of_known hw
  have hi : i < o.size := hi
  have hw : (if o.Covers x then Function.update o.bytes (x - o.ptr) (some v) else o.bytes) i
    = some w := hw
  show Function.update s.mem x v (o.ptr + i) = w
  by_cases hx : o.ptr + i = x
  · have hc : o.Covers x := ⟨by omega, by omega⟩
    have e : x - o.ptr = i := by omega
    rw [if_pos hc, e, Function.update_self] at hw
    rw [hx, Function.update_self]
    exact Option.some.inj hw
  · rw [Function.update_of_ne hx]
    by_cases hc : o.Covers x
    · have e : i ≠ x - o.ptr := by
        have := hc.1
        omega
      rw [if_pos hc, Function.update_of_ne e] at hw
      exact h i w hw
    · rw [if_neg hc] at hw
      exact h i w hw

/-! ## one step -/

namespace Objects.InMemory

lemma ptr_ne_zero (h : S.InMemory c) (hT : Tracks A c a) (ho : o ∈ S) : o.ptr ≠ 0 := by
  have hl := mem_live ho
  rw [h.live] at hl
  exact hT.owns.ne_zero hl

lemma other (h : S.InMemory c) (hT : Tracks A c a) (hk : k.Names c.live)
    (hd : Does A c.heap a k r t) (ho : o ∈ S) (hne : k.subject ≠ o.ptr) : o.InMemory t := by
  have hl := mem_live ho
  rw [h.live] at hl
  exact (h.bytes o ho).congr (hT.kept hd hk hl hne)

/-- the object that a `mm_realloc` makes has the first bytes of the old one -/
lemma moved (h : S.InMemory c) (hT : Tracks A c a) (hd : Does A c.heap a (.realloc p n) r t) :
    (Obj.make r n (S.known p)).InMemory t := by
  intro i v hv
  have hi : i < n := Obj.lt_of_known hv
  have hv : (if i < n then S.known p i else none) = some v := hv
  rw [if_pos hi] at hv
  obtain ⟨o, ho, rfl, hov⟩ := known_eq_some hv
  have hio := Obj.lt_of_known hov
  have hl := mem_live ho
  rw [h.live] at hl
  obtain ⟨b, hb, hu, hpb, hsz⟩ := hT.block hl
  have hcopy := hd.copies o.ptr n rfl (by omega) b hb hu hpb i hi (by omega)
  show t.mem (r + i) = v
  rw [hcopy]
  exact h.bytes o ho i v hov

lemma call (h : S.InMemory c) (hT : Tracks A c a) (hk : k.Names c.live)
    (hd : Does A c.heap a k r t) : (S.step (.call k r)).InMemory ⟨t, k.live c.live r⟩ := by
  refine ⟨?_, fun o ho => ?_⟩
  · rw [live_call, h.live]
  cases k with
  | malloc n =>
    rcases mem_add ho with ⟨rfl, -⟩ | ho
    · exact Obj.inMemory_blank
    · exact h.other hT hk hd ho (h.ptr_ne_zero hT ho).symm
  | free p =>
    obtain ⟨ho, hne⟩ := mem_drop.mp ho
    exact h.other hT hk hd ho hne.symm
  | realloc p n =>
    rcases mem_add ho with ⟨rfl, -⟩ | ho
    · exact h.moved hT hd
    · obtain ⟨ho, hne⟩ := mem_drop.mp ho
      exact h.other hT hk hd ho hne.symm

/-- **Every step of the client keeps the objects in memory.** -/
lemma step (h : S.InMemory c) (hT : Tracks A c a) (hs : c.Step l c') :
    (S.step l).InMemory c' := by
  cases hs with
  | call hk hz hrun hf =>
    have hd := (call_spec hT hk hz ((hf.finds hrun).found hT hz)).of_run hrun
    exact h.call hT hk hd
  | @write p m x v hm h1 h2 =>
    refine ⟨live_write.trans h.live, fun o ho => ?_⟩
    obtain ⟨o', ho', rfl⟩ := List.mem_map.mp ho
    exact (h.bytes o' ho').write x v

end Objects.InMemory

/-- **A run keeps the objects in memory** when each of its steps does. -/
lemma Objects.inMemory_after {step : Client → Label → Client → Prop} {ls : List Label}
    (hstep : ∀ (S : Objects) c l c', (∃ a : SoundPool A.base A.limit, Tracks A c a) →
      S.InMemory c → step c l c' →
      (∃ a : SoundPool A.base A.limit, Tracks A c' a) ∧ (S.step l).InMemory c')
    (hT : ∃ a : SoundPool A.base A.limit, Tracks A ⟨s, []⟩ a) (h : Lts.Run step ⟨s, []⟩ ls c) :
    (Objects.after ls).InMemory c := by
  have hboth : (∃ a : SoundPool A.base A.limit, Tracks A c a) ∧ (Objects.after ls).InMemory c := by
    -- induction on the run, the last step last
    induction h with
    | nil => exact ⟨hT, rfl, fun o ho => absurd ho List.not_mem_nil⟩
    | snoc _ hl ih =>
      rw [Objects.after_snoc]
      exact hstep _ _ _ _ ih.1 ih.2 hl
  exact hboth.2

end

section
variable {lo : Nat} {m : Mem} {ls : List Label} {c : Client}

/-- **The allocator implements objects**: at the end of an ordinary run the client's pointers are
those of the objects that the steps make, and memory holds every byte they know. -/
theorem objects_implemented (h : Trail lo m ls c) : (Objects.after ls).InMemory c := by
  obtain ⟨hb, r, s, hboot, hrun⟩ := h
  obtain ⟨A, -, -, R⟩ := boot_arena hb hboot
  have hT : Tracks A ⟨s, []⟩ (firstPool A.lo) := ⟨R, Owns.initial A.base, Nat.le_refl _⟩
  refine Objects.inMemory_after (fun S c l c' ⟨a, ha⟩ hS hl => ?_) ⟨_, hT⟩ hrun
  obtain ⟨a', -, ha'⟩ := step_follows ha hl
  exact ⟨⟨a', ha'⟩, hS.step ha hl⟩

/-- the client writes a byte at 165, makes another call, and moves the object from 160 to 272 -/
lemma Sample.moved : ∃ c, Trail 8 (fun _ => 0) [.call (.malloc 40) 160, .write 165 7,
    .call (.malloc 8) 232, .call (.realloc 160 100) 272] c := by
  have hp : (160, 40) ∈ Sample.client.live := List.mem_singleton.mpr rfl
  have hT : Tracks Sample.arena ⟨Sample.client.heap.poke 165 7, Sample.client.live⟩ Sample.clientPool :=
    Sample.client_tracks.poke hp (by decide) (by decide)
  have hw : Sample.client.Step (.write 165 7) ⟨Sample.client.heap.poke 165 7, Sample.client.live⟩ :=
    .write hp (by decide) (by decide)
  obtain ⟨c₁, h1, hl1, hT1⟩ := hT.call_step (k := .malloc 8) trivial (show 8 ≤ MAX_HEAP by decide)
    trivial
  have hr1 : (Sample.clientPool.call (.malloc 8)).1 = 232 := by decide +kernel
  have hr2 : ((Sample.clientPool.call (.malloc 8)).2.call (.realloc 160 100)).1 = 272 := by
    decide +kernel
  have hk : (Call.realloc 160 100).Names c₁.live := by
    rw [hl1]
    exact Or.inr ⟨40, by decide +kernel⟩
  obtain ⟨c₂, h2, -, -⟩ := hT1.call_step hk (show 100 ≤ MAX_HEAP by decide) fun _ h0 => by
    rw [hr2] at h0
    exact absurd h0 (by decide)
  rw [hr1] at h1
  rw [hr2] at h2
  exact ⟨c₂, ((Sample.client_trail.snoc hw).snoc h1).snoc h2⟩

theorem objects_implemented_sample : ∃ c, Trail 8 (fun _ => 0) [.call (.malloc 40) 160,
      .write 165 7, .call (.malloc 8) 232, .call (.realloc 160 100) 272] c ∧
    (Objects.after [.call (.malloc 40) 160, .write 165 7, .call (.malloc 8) 232,
      .call (.realloc 160 100) 272]).InMemory c ∧ c.heap.mem 277 = 7 := by
  obtain ⟨c, hc⟩ := Sample.moved
  have h := objects_implemented hc
  exact ⟨c, hc, h, h.bytes _ List.mem_cons_self 5 7 rfl⟩

end
end SegList

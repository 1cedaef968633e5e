import SegList.Refine.Run

/-!
# A client that does not call mm_init

`mm_malloc` calls `mm_init` itself when `heap_listp` is `0`, for a request of no bytes too.  Without
a live pointer the first step of a client is a `mm_malloc`, or a `mm_realloc` of `NULL`, which is
one; so after `mem_init` a run does not need `mm_init`, and all that holds of ordinary runs holds of
it.
-/

set_option linter.unusedSectionVars false

open Bytes Prog

namespace SegList
open Pool

section
variable {lo n : Nat} {m : Mem} {s t : Heap} {x : Int} {l : Label} {ls : List Label} {c c' : Client}

/-- **`mm_malloc` before `mm_init`** is `mm_malloc` behind it. -/
lemma mmMalloc_first (h0 : s.heapListp = 0) (hi : mmInit s = some (x, t)) (ht : t.heapListp ≠ 0) :
    mmMalloc n s = mmMalloc n t := by
  unfold mmMalloc
  show ((if s.heapListp = 0 then mmInit >>= fun _ => pure () else pure ()) >>= fun _ => _) s =
    ((if t.heapListp = 0 then mmInit >>= fun _ => pure () else pure ()) >>= fun _ => _) t
  rw [if_pos h0, if_neg ht, pure_bind, bind_assoc, bind_run, hi]
  rfl

/-- a client without live pointers makes a request, or nothing -/
lemma first_step (h : (Client.mk s []).Step l c) : ∃ k n r t, l = .call k r ∧ c = ⟨t, k.live [] r⟩ ∧
    (∀ u, k.run u = mmMalloc n u) ∧ k.Names [] ∧ k.SizeLe MAX_HEAP ∧ k.run s = some (r, t) ∧
    k.Found r := by
  cases h with
  | write hm => exact absurd hm List.not_mem_nil
  | @call k r t hk hz hrun hf =>
    cases k with
    | malloc n => exact ⟨_, n, r, t, rfl, rfl, fun _ => rfl, hk, hz, hrun, hf⟩
    | free p =>
      obtain ⟨m, hm⟩ := hk
      exact absurd hm List.not_mem_nil
    | realloc p n =>
      have hp : p = 0 := hk.resolve_right fun ⟨m, hm⟩ => List.not_mem_nil hm
      subst hp
      exact ⟨_, n, r, t, rfl, rfl, fun _ => rfl, hk, hz, hrun, hf⟩

lemma first_step_congr (h : ∀ n, mmMalloc n s = mmMalloc n t) (hs : (Client.mk s []).Step l c) :
    (Client.mk t []).Step l c := by
  obtain ⟨k, n, r, u, rfl, rfl, hk, hn, hz, hrun, hf⟩ := first_step hs
  refine .call hn hz ?_ hf
  rw [hk, ← h, ← hk]
  exact hrun

/-- **mm_init is called when it is needed**: behind `mem_init` the runs of at least one step are the
ordinary ones, also when the client does not call `mm_init`. -/
theorem lazy_init (hb : GoodBase lo) (hne : ls ≠ []) : Trail lo m ls c ↔
    ∃ s, memInit lo (fresh m) = some ((), s) ∧ Lts.Run Client.Step ⟨s, []⟩ ls c := by
  -- the heaps before and behind `mm_init` answer requests alike
  have hsame : ∀ s t x, memInit lo (fresh m) = some ((), s) → mmInit s = some (x, t) →
      ∀ n, mmMalloc n s = mmMalloc n t := by
    intro s t x hs hi n
    have hboot : boot lo (fresh m) = some (x, t) := bind_eq_some.mpr ⟨(), s, hs, hi⟩
    obtain ⟨A, rfl, -, R⟩ := boot_arena hb hboot
    rw [memInit_run (Nat.ne_of_gt A.pos) A.room] at hs
    obtain ⟨-, rfl⟩ := Prod.mk.inj (Option.some.inj hs)
    exact mmMalloc_first rfl hi R.laid.listp_ne
  obtain ⟨l, ls, rfl⟩ := List.exists_cons_of_ne_nil hne
  constructor
  · rintro ⟨-, x, t, hboot, hrun⟩
    obtain ⟨_, s, hs, hi⟩ := bind_eq_some.mp hboot
    obtain ⟨c₁, h1, h2⟩ := Lts.run_cons.mp hrun
    exact ⟨s, hs, Lts.run_cons.mpr
      ⟨c₁, first_step_congr (fun n => (hsame s t x hs hi n).symm) h1, h2⟩⟩
  · rintro ⟨s, hs, hrun⟩
    obtain ⟨c₁, h1, h2⟩ := Lts.run_cons.mp hrun
    have h0 : lo ≠ 0 := by
      rintro rfl
      exact nomatch memInit_null (fresh m) ▸ hs
    obtain ⟨x, t, hboot, -⟩ := boot_spec (hb.arena h0) m
    have hboot : boot lo (fresh m) = some (x, t) := hboot
    obtain ⟨_, s', hs', hi⟩ := bind_eq_some.mp hboot
    rw [hs] at hs'
    obtain ⟨-, rfl⟩ := Prod.mk.inj (Option.some.inj hs')
    exact ⟨hb, x, t, hboot, Lts.run_cons.mpr ⟨c₁, first_step_congr (hsame s t x hs hi) h1, h2⟩⟩

theorem lazy_init_sample : Trail 8 (fun _ => 0) [.call (.malloc 40) 160] Sample.client ↔
    ∃ s, memInit 8 (fresh fun _ => 0) = some ((), s) ∧
      Lts.Run Client.Step ⟨s, []⟩ [.call (.malloc 40) 160] Sample.client :=
  lazy_init ⟨by decide, by decide⟩ (List.cons_ne_nil _ _)

end
end SegList

import SegList.Refine.Seglist
import Mathlib.Data.List.Perm.Subperm

/-!
# The search for a fit

`find_fit` walks the list of the class of the size, then those of the larger classes, and takes the
first block that is large enough: `Pool.fit`.

* `findFitNodes_spec`     one list, by induction on the nodes that are left;
* `findFitBuckets_spec`   the buckets from one on, by induction on how many are left.
-/

set_option linter.unusedSectionVars false

open Bytes Prog Tile

namespace SegList
open Pool

section
variable {A : Area} {s : Heap} {a : Pool} {sz : Nat}

lemma word_of_mem {s t : Heap} (h : t.mem = s.mem) : t.word = s.word := by
  funext p
  exact Heap.word_congr (fun x _ _ => congrFun h x)

lemma findFitNodes_spec (hsz : sz % 4 = 0) (hlt : sz < 2 ^ 32) {l : List Block} {q n fuel : Nat}
    (R : Rep A s a) (hb : ∀ b ∈ l, b ∈ a.blocks) (hf : l.length < fuel)
    (hl : DList.Linked s.word (fun x => s.word (x + 4)) 0 q n (l.map Block.addr)) :
    Ends (findFitNodes (sz / WSIZE) fuel n) s (fun r t =>
      r = (l.find? (fun b => sz ≤ b.size)).map Block.addr ∧ Rep A t a ∧ t.mem = s.mem) := by
  have hw := mulW_words hsz hlt
  induction l generalizing s q n fuel with
  | nil =>
    have h0 : n = 0 := hl
    cases fuel with
    | zero => exact absurd hf (by simp)
    | succ fuel =>
      rw [findFitNodes, ends_ite_neg (by omega), ends_pure]
      exact ⟨rfl, R, rfl⟩
  | cons b l ih =>
    obtain ⟨hn, hne, -, hl'⟩ := hl
    cases fuel with
    | zero => exact absurd hf (by simp)
    | succ fuel =>
      have hbb := hb b List.mem_cons_self
      have h0 := R.laid.arena
      have h1 := R.laid.block hbb
      have hadd : b.addr ≠ 0 := hne
      rw [findFitNodes, hn, ends_ite_pos hadd, ends_bind]
      apply R.ends_getSize hbb
      intro t R1 e1
      rw [hw]
      by_cases hfit : sz ≤ b.size
      · rw [ends_ite_pos hfit, ends_pure]
        have e : (b :: l).find? (fun b => sz ≤ b.size) = some b :=
          List.find?_cons_of_pos (by simpa using hfit)
        rw [e]
        exact ⟨rfl, R1, e1⟩
      · rw [ends_ite_neg hfit, ends_bind]
        have e : (b :: l).find? (fun b => sz ≤ b.size) = l.find? (fun b => sz ≤ b.size) :=
          List.find?_cons_of_neg (by simpa using hfit)
        rw [e]
        apply R1.ends_get (by omega) (by omega) (by omega)
        intro u R2 e2
        have ew : u.word = s.word := word_of_mem (e2.trans e1)
        have ew1 : t.word = s.word := word_of_mem e1
        rw [ew1]
        have hl2 : DList.Linked u.word (fun x => u.word (x + 4)) 0 b.addr (s.word b.addr)
            (l.map Block.addr) := by
          rw [ew]
          exact hl'
        refine (ih R2 (fun c hc => hb c (List.mem_cons_of_mem _ hc)) ?_ hl2).mono ?_
        · rw [List.length_cons] at hf
          omega
        · rintro r v ⟨h2, h3, h4⟩
          exact ⟨h2, h3, h4.trans (e2.trans e1)⟩

lemma Rep.length_lt (R : Rep A s a) (k : Nat) : (a.lists k).length < addrSpace := by
  have h0 := R.laid.arena
  have h1 := ((R.threaded.nodup k).subperm
    (fun b hb => (R.threaded.listed k b hb).1)).length_le
  have h2 := R.laid.tiled.length_mul_le (k := 32) (fun b hb => (R.laid.sized b hb).1)
  show _ < 2 ^ 32
  omega

lemma findFitBuckets_spec (hsz : sz % 4 = 0) (hlt : sz < 2 ^ 32) {m k fuel : Nat} (R : Rep A s a)
    (hk : k + m = 32) (hf : m < fuel) :
    Ends (findFitBuckets (sz / WSIZE) fuel (A.lo + 4 * k)) s (fun r t =>
      r = (((List.range' k m).flatMap a.lists).find? (fun b => sz ≤ b.size)).elim 0 Block.addr ∧
        Rep A t a ∧ t.mem = s.mem) := by
  have h0 := R.laid.arena
  have hend : addW A.lo (WSIZE * BUCKETS_COUNT) = A.lo + 128 :=
    addW_eq (show A.lo + 128 < 2 ^ 32 by omega)
  induction m generalizing s k fuel with
  | zero =>
    cases fuel with
    | zero => exact absurd hf (by simp)
    | succ fuel =>
      rw [findFitBuckets, ends_bind, ends_memHeapLo, R.laid.start, hend, ends_ite_neg (by omega),
        ends_pure]
      exact ⟨rfl, R, rfl⟩
  | succ m ih =>
    cases fuel with
    | zero => exact absurd hf (by simp)
    | succ fuel =>
      rw [findFitBuckets, ends_bind, ends_memHeapLo, R.laid.start, hend, ends_ite_pos (by omega),
        ends_bind]
      apply R.ends_get (by omega) (by omega) (by omega)
      intro t R1 e1
      rw [ends_bind]
      have hc := R.threaded.chains k (by omega)
      have hl : DList.Linked t.word (fun x => t.word (x + 4)) 0 0 (s.word (A.lo + 4 * k))
          ((a.lists k).map Block.addr) := by
        rw [word_of_mem e1]
        exact hc
      refine (findFitNodes_spec hsz hlt R1 (fun b hb => (R.threaded.listed k b hb).1)
        (R.length_lt k) hl).mono ?_
      rintro r u ⟨rfl, R2, e2⟩
      rw [List.range'_succ, List.flatMap_cons, List.find?_append]
      cases hfind : (a.lists k).find? (fun b => sz ≤ b.size) with
      | some b =>
        show Ends (pure b.addr) u _
        rw [ends_pure]
        exact ⟨rfl, R2, e2.trans e1⟩
      | none =>
        have e4 : addW (A.lo + 4 * k) WSIZE = A.lo + 4 * (k + 1) := by
          show addW (A.lo + 4 * k) 4 = _
          rw [addW_eq (by omega)]
          omega
        show Ends (findFitBuckets (sz / WSIZE) fuel (addW (A.lo + 4 * k) WSIZE)) u _
        rw [e4]
        refine (ih R2 (by omega) (by omega)).mono ?_
        rintro r v ⟨h2, h3, h4⟩
        exact ⟨h2, h3, h4.trans (e2.trans e1)⟩

/-- **`find_fit` is the search of the pool**, for a size that has a class. -/
theorem findFit_spec (R : Rep A s a) (hsz : sz % 4 = 0) (h31 : sz ≤ 2 ^ 31) :
    Ends (findFit (sz / WSIZE)) s (fun r t =>
      r = (a.fit sz).elim 0 Block.addr ∧ Rep A t a ∧ t.mem = s.mem) := by
  have h0 := R.laid.arena
  have hk : cls sz ≤ 31 := (Nat.clog_le_iff_le_pow (by omega)).mpr h31
  have e : addW s.memStartBrk (WSIZE * Nat.clog 2 sz) = A.lo + 4 * cls sz := by
    rw [R.laid.start]
    exact addW_eq (show A.lo + 4 * cls sz < 2 ^ 32 by omega)
  unfold findFit
  rw [ends_bind, ends_of_run (findBucket_run s sz hsz (by omega)), if_pos h31, e]
  have hc : classes = 32 := rfl
  exact findFitBuckets_spec (k := cls sz) (m := classes - cls sz) hsz
    (by omega) R (by omega) (show _ < 2 ^ 32 by omega)

end
end SegList

import SegList.Model.Memlib

/-!
# The simulated break and its limit test

`mem_sbrk` adds before it compares, so the sum may wrap around the address space and pass the test.

* `sbrkSound_iff`           one call does what it should exactly when the sum does not wrap;
* `sbrk_sound_iff_noWrap`   so a whole sequence of calls does exactly when no sum wraps.
-/

set_option linter.unusedSectionVars false

open Bytes Prog

namespace SegList

/-- `mem_sbrk(incr)` on `s`, which returned `r` and left `t`: the break stays inside the arena; the
call succeeds iff the arena has room for `incr`; it then returns the region from the old break to
the new one, else the break is unchanged -/
structure SbrkSound (s : Heap) (incr : Int) (r : Nat) (t : Heap) : Prop where
  inside : t.memStartBrk = s.memStartBrk ∧ t.memMaxAddr = s.memMaxAddr ∧
    t.memStartBrk ≤ t.memBrk ∧ t.memBrk ≤ t.memMaxAddr
  succeeds : r ≠ minusOne ↔ 0 ≤ incr ∧ s.memBrk + incr ≤ s.memMaxAddr
  region : r ≠ minusOne → r = s.memBrk ∧ (t.memBrk : Int) = s.memBrk + incr
  unchanged : r = minusOne → t.memBrk = s.memBrk

/-- the sum of the limit test does not wrap; and the break is not `(void *)-1`, which as a result
would mean failure -/
def NoWrap (s : Heap) (incr : Int) : Prop :=
  incr < 0 ∨ (s.memBrk + incr < 2 ^ 32 ∧ s.memBrk ≠ minusOne)

/-- a value of the type `int` -/
def IsInt (i : Int) : Prop := -2 ^ 31 ≤ i ∧ i < 2 ^ 31

/-- the calls `mem_sbrk(i)` for `i` in the list, one after the other, all satisfy `P` -/
def EveryCall (P : Heap → Int → Nat → Heap → Prop) : List Int → Heap → Prop
  | [], _ => True
  | i :: is, s => ∃ r t, memSbrk i s = some (r, t) ∧ P s i r t ∧ EveryCall P is t

/-- the break lies inside an arena below the top of the address space -/
structure InArena (s : Heap) : Prop where
  start : s.memStartBrk ≤ s.memBrk
  limit : s.memBrk ≤ s.memMaxAddr
  fits : s.memMaxAddr ≤ 2 ^ 32 - 1

section
variable {s t : Heap} {i : Int} {r : Nat}

lemma memSbrk_cases (s : Heap) (i : Int) :
    (∃ t, memSbrk i s = some (minusOne, t) ∧ t.memBrk = s.memBrk ∧
      t.memStartBrk = s.memStartBrk ∧ t.memMaxAddr = s.memMaxAddr ∧
      (i < 0 ∨ offset s.memBrk i > s.memMaxAddr)) ∨
    (∃ t, memSbrk i s = some (s.memBrk, t) ∧ t.memBrk = offset s.memBrk i ∧
      t.memStartBrk = s.memStartBrk ∧ t.memMaxAddr = s.memMaxAddr ∧
      0 ≤ i ∧ offset s.memBrk i ≤ s.memMaxAddr) := by
  unfold memSbrk
  by_cases h : i < 0 ∨ offset s.memBrk i > s.memMaxAddr
  · exact Or.inl ⟨_, if_pos h, rfl, rfl, rfl, h⟩
  · refine Or.inr ⟨_, if_neg h, rfl, rfl, rfl, ?_⟩
    rw [not_or] at h
    omega

lemma offset_int (hs : s.memBrk ≤ 2 ^ 32 - 1) (h0 : 0 ≤ i) (hi : IsInt i) :
    s.memBrk + i < 2 ^ 32 ∧ (offset s.memBrk i : Int) = s.memBrk + i ∨
      2 ^ 32 ≤ s.memBrk + i ∧ (offset s.memBrk i : Int) = s.memBrk + i - 2 ^ 32 := by
  obtain ⟨h1, h2⟩ := hi
  unfold offset
  omega

/-- **One call does what it should exactly when the sum does not wrap.** -/
theorem sbrkSound_iff (hs : InArena s) (hi : IsInt i) :
    ∃ r t, memSbrk i s = some (r, t) ∧ (SbrkSound s i r t ↔ NoWrap s i) := by
  obtain ⟨h1, h2, h3⟩ := hs
  have hint : -2 ^ 31 ≤ i ∧ i < 2 ^ 31 := hi
  have hmo : minusOne = 4294967295 := rfl
  rcases memSbrk_cases s i with ⟨t, e, hb, hst, hmx, hc⟩ | ⟨t, e, hb, hst, hmx, h0, hc⟩
  · refine ⟨minusOne, t, e, ?_, fun hw => ?_⟩
    · intro hS
      by_cases h0 : 0 ≤ i
      · -- the call failed, so the arena had no room
        right
        have hroom : ¬ s.memBrk + i ≤ s.memMaxAddr := fun hle => hS.succeeds.mpr ⟨h0, hle⟩ rfl
        have hoff := offset_int (s := s) (by omega) h0 hi
        omega
      · exact Or.inl (by omega)
    · refine ⟨⟨hst, hmx, by omega, by omega⟩, ⟨fun h => absurd rfl h, ?_⟩, fun h => absurd rfl h,
        fun _ => hb⟩
      rintro ⟨h0, hle⟩
      have hoff := offset_int (s := s) (by omega) h0 hi
      omega
  · have hoff := offset_int (s := s) (by omega) h0 hi
    refine ⟨s.memBrk, t, e, ?_, fun hw => ?_⟩
    · intro hS
      right
      by_cases hr : s.memBrk = minusOne
      · have h4 := hS.unchanged hr
        have h5 := hS.succeeds
        omega
      · have h4 := (hS.region hr).2
        omega
    · have hw' : s.memBrk + i < 2 ^ 32 ∧ s.memBrk ≠ minusOne := hw.resolve_left (by omega)
      refine ⟨⟨hst, hmx, by omega, by omega⟩, ⟨fun _ => ⟨h0, by omega⟩, fun _ => hw'.2⟩,
        fun _ => ⟨rfl, by omega⟩, fun h => absurd h hw'.2⟩

lemma SbrkSound.inArena (h : SbrkSound s i r t) (hs : InArena s) : InArena t := by
  obtain ⟨h1, h2, h3, h4⟩ := h.inside
  exact ⟨h3, h4, h2 ▸ hs.fits⟩

lemma everyCall_iff {is : List Int} (hs : InArena s) (hi : ∀ i ∈ is, IsInt i) :
    EveryCall SbrkSound is s ↔ EveryCall (fun s i _ _ => NoWrap s i) is s := by
  induction is generalizing s with
  | nil => exact Iff.rfl
  | cons i is ih =>
    obtain ⟨r, t, e, hiff⟩ := sbrkSound_iff hs (hi i List.mem_cons_self)
    have hrest : ∀ t, InArena t → (EveryCall SbrkSound is t ↔
        EveryCall (fun s i _ _ => NoWrap s i) is t) := fun t ht =>
      ih ht (fun j hj => hi j (List.mem_cons_of_mem _ hj))
    constructor
    · rintro ⟨r', t', e', hS, hR⟩
      rw [e] at e'
      obtain ⟨rfl, rfl⟩ := Prod.mk.inj (Option.some.inj e')
      exact ⟨r, t, e, hiff.mp hS, (hrest t (hS.inArena hs)).mp hR⟩
    · rintro ⟨r', t', e', hW, hR⟩
      rw [e] at e'
      obtain ⟨rfl, rfl⟩ := Prod.mk.inj (Option.some.inj e')
      have hS := hiff.mpr hW
      exact ⟨r, t, e, hS, (hrest t (hS.inArena hs)).mpr hR⟩

end

section
variable {base : Nat} {s s₀ : Heap} {is : List Int}

lemma memInit_inArena (hb : base + MAX_HEAP ≤ 2 ^ 32 - 1)
    (h : memInit base s₀ = some ((), s)) : InArena s := by
  have h0 : base ≠ 0 := by
    rintro rfl
    rw [memInit_null] at h
    exact absurd h (by simp)
  rw [memInit_run h0 (by omega)] at h
  obtain ⟨-, rfl⟩ := Prod.mk.inj (Option.some.inj h)
  exact ⟨Nat.le_refl _, Nat.le_add_right .., hb⟩

/-- **The break stays inside its arena, in every sequence of calls, exactly when no sum wraps.** -/
theorem sbrk_sound_iff_noWrap (hb : base + MAX_HEAP ≤ 2 ^ 32 - 1) (hi : ∀ i ∈ is, IsInt i)
    (h : memInit base s₀ = some ((), s)) :
    EveryCall SbrkSound is s ↔ EveryCall (fun s i _ _ => NoWrap s i) is s :=
  everyCall_iff (memInit_inArena hb h) hi

/-- an arena at 16, asked for two regions -/
theorem sbrk_sound_low : ∃ s, memInit 16 ⟨fun _ => 0, 0, 0, 0, 0, []⟩ = some ((), s) ∧
    EveryCall SbrkSound [4096, 40] s := by
  have h := memInit_run (p := 16) (by decide) (by decide) ⟨fun _ => 0, 0, 0, 0, 0, []⟩
  refine ⟨_, h, (sbrk_sound_iff_noWrap (by decide) (by unfold IsInt; decide) h).mpr ?_⟩
  exact ⟨16, _, rfl, Or.inr ⟨by decide, by decide⟩, 4112, _, rfl,
    Or.inr ⟨by decide, by decide⟩, trivial⟩

/-- an arena at `0xF0000000`, asked for `0x10000000` bytes: the break becomes `0` -/
theorem sbrk_wraps_high : 0xF0000000 + MAX_HEAP ≤ 2 ^ 32 - 1 ∧ IsInt 0x10000000 ∧
    ∃ s, memInit 0xF0000000 ⟨fun _ => 0, 0, 0, 0, 0, []⟩ = some ((), s) ∧
      ¬ EveryCall SbrkSound [0x10000000] s := by
  have hM : MAX_HEAP = 20971520 := rfl
  have h := memInit_run (p := 0xF0000000) (by omega) (by omega) ⟨fun _ => 0, 0, 0, 0, 0, []⟩
  refine ⟨by omega, by unfold IsInt; omega, _, h, ?_⟩
  rintro ⟨r, t, e, hS, -⟩
  have h1 : t.memBrk = 0 := by
    have h2 : (memSbrk 0x10000000 ⟨fun _ => 0, 0xF0000000, 0xF0000000, 0xF0000000 + MAX_HEAP, 0,
        []⟩).map (fun x => x.2.memBrk) = some 0 := by decide
    rw [e] at h2
    exact Option.some.inj h2
  have h3 : t.memStartBrk = 0xF0000000 := hS.inside.1
  have h4 := hS.inside.2.2.1
  omega

end
end SegList

import SegList.Lib.Lts
import SegList.Pool.Client
import SegList.Refine.Init

/-!
# Ordinary runs

A client calls the package with live pointers and sizes up to `MAX_HEAP`, and between the calls
writes bytes inside the payloads it asked for.  `Client.Step` is one such step on the byte-level
heap; `Ordinary lo c` says that `mem_init` at `lo`, `mm_init` and finitely many steps lead to `c`.

* `step_follows`   each step is followed by a step of the pool with the same label;
* `Ordinary.tracks`   so every reached heap represents a sound pool whose blocks in use are the
                      live pointers;
* `call_spec`      every call the client may make returns.
-/

set_option linter.unusedSectionVars false

open Bytes Prog

namespace SegList
open Pool

/-! ## the client and its steps -/

/-- a call of the package, with the value it returns (`0` for `mm_free`) -/
def Call.run : Call → M Nat
  | .malloc n => mmMalloc n
  | .free p => do
    mmFree p
    return 0
  | .realloc p n => mmRealloc p n

/-- the heap and the pointers that are live, with the sizes they were requested with -/
structure Client where
  heap : Heap
  live : Live

/-- the byte `v` written at `x` by the client -/
def Heap.poke (s : Heap) (x : Nat) (v : UInt8) : Heap := { s with mem := Function.update s.mem x v }

namespace Client

/-- one step of an ordinary run -/
inductive Step : Client → Label → Client → Prop where
  /-- a call with live pointers and a size up to `MAX_HEAP`; a `mm_realloc` finds memory -/
  | call {c : Client} {k : Call} {r : Nat} {t : Heap} : k.Names c.live → k.SizeLe MAX_HEAP →
      k.run c.heap = some (r, t) → k.Found r → Step c (.call k r) ⟨t, k.live c.live r⟩
  /-- a byte written inside the requested payload of a live pointer -/
  | write {c : Client} {p m x : Nat} {v : UInt8} : (p, m) ∈ c.live → p ≤ x → x < p + m →
      Step c (.write x v) ⟨c.heap.poke x v, c.live⟩

end Client

/-- the program before anything ran, with any bytes in memory -/
def fresh (m : Mem) : Heap := ⟨m, 0, 0, 0, 0, []⟩

/-- `mem_init`, with `lo` from the C library's `malloc`, and `mm_init` -/
def boot (lo : Nat) : M Int := do
  memInit lo
  mmInit

/-- an 8-aligned base address with room for three heaps below `2^32` -/
structure GoodBase (lo : Nat) : Prop where
  aligned : lo % 8 = 0
  fits : lo + 3 * MAX_HEAP < 2 ^ 32

/-- the arena at a good base -/
def GoodBase.arena {lo : Nat} (h : GoodBase lo) (h0 : lo ≠ 0) : Arena :=
  ⟨⟨lo, Nat.pos_of_ne_zero h0, h.aligned, by have := h.fits; omega⟩, h.fits⟩

/-- from memory `m`, `boot` and the steps labelled `ls` lead to `c` -/
structure Trail (lo : Nat) (m : Mem) (ls : List Label) (c : Client) : Prop where
  base : GoodBase lo
  run : ∃ r s, boot lo (fresh m) = some (r, s) ∧ Lts.Run Client.Step ⟨s, []⟩ ls c

/-- **`c` is reached by an ordinary run** over the arena at `lo`. -/
def Ordinary (lo : Nat) (c : Client) : Prop := ∃ m ls, Trail lo m ls c

/-! ## the simulation -/

/-- the heap of the client represents the pool, and the live pointers are its blocks in use -/
structure Tracks (A : Arena) (c : Client) (a : SoundPool A.base A.limit) : Prop where
  rep : Rep A c.heap a.toPool
  owns : Owns a.toPool c.live
  grown : A.base + 4096 ≤ a.brk

section
variable {A : Arena} {c c' : Client} {a a' : SoundPool A.base A.limit} {k : Call} {l : Label}
  {s t : Heap} {r n : Nat}

lemma fits_of_le {b : Pool} (R : Rep A s b) (hn : n ≤ MAX_HEAP) : Fits b.brk n := by
  have h0 := R.laid.arena
  have habove := A.above
  have h1 := fitSize_le n
  have h2 : n ≤ 20971520 := hn
  exact ⟨by omega, Or.inr ⟨by omega, by omega⟩⟩

/-- the value of `mm_realloc` is that of the `mm_malloc` in it -/
lemma mmRealloc_ret {p : Nat} (hp : p ≠ 0) (hn : n ≠ 0) (h : mmRealloc p n s = some (r, t)) :
    ∃ u, mmMalloc n s = some (r, u) := by
  unfold mmRealloc at h
  rw [if_neg hp, if_neg hn] at h
  obtain ⟨q, u, h1, h2⟩ := bind_eq_some.mp h
  obtain ⟨x, v, -, h3⟩ := bind_eq_some.mp h2
  obtain ⟨-, w, -, h4⟩ := bind_eq_some.mp h3
  obtain ⟨-, y, -, h5⟩ := bind_eq_some.mp h4
  obtain ⟨rfl, -⟩ := Prod.mk.inj (Option.some.inj h5)
  exact ⟨u, h1⟩

/-- what a call does: it returns what the pool returns, represents the pool after it, keeps the
payloads of the other blocks in use, and a `realloc` copies -/
structure Does (A : Arena) (s : Heap) (a : SoundPool A.base A.limit) (k : Call) (r : Nat)
    (t : Heap) : Prop where
  ret : r = (a.call k).1
  rep : Rep A t (a.call k).2.toPool
  keeps : Keeps (a.free k.subject).blocks s t
  copies : ∀ p n, k = .realloc p n → n ≠ 0 → ∀ b ∈ a.blocks, b.alloc = true → p = b.addr + 8 →
    ∀ i, i < n → i + 16 < b.size → t.mem (r + i) = s.mem (p + i)

lemma not_null_block {p : Nat} {b : Block} (hp : p = 0) : p ≠ b.addr + 8 := by omega

/-- the size in the arguments fits the 32-bit arithmetic -/
def Call.FitsAt (brk : Nat) : Call → Prop
  | .malloc n => Fits brk n
  | .free _ => True
  | .realloc _ n => Fits brk n

lemma Call.SizeLe.fits {b : Pool} (hz : k.SizeLe MAX_HEAP) (R : Rep A s b) : k.FitsAt b.brk := by
  cases k with
  | malloc n => exact fits_of_le R hz
  | free p => trivial
  | realloc p n => exact fits_of_le R hz

/-- **A call with a size that fits returns**, and does what the pool does; a `mm_realloc` provided
that the pool finds memory. -/
theorem fitting_call_spec (h : Tracks A c a) (hk : k.Names c.live) (hz : k.FitsAt a.brk)
    (hf : k.Found (a.call k).1) : Ends k.run c.heap (Does A c.heap a k) := by
  have R := h.rep
  have hnull : a.toPool.free 0 = a.toPool := free_null R
  cases k with
  | malloc n =>
    refine (mmMalloc_spec R a.wf hz).mono ?_
    rintro r t ⟨h1, h2, h3⟩
    refine ⟨h1, h2, ?_, fun p n e => by cases e⟩
    show Keeps (a.toPool.free 0).blocks _ _
    rwa [hnull]
  | free p =>
    obtain ⟨m, hm⟩ := hk
    obtain ⟨b, hb, hu, rfl, -⟩ := h.owns.backed p m hm
    show Ends (mmFree _ >>= _) _ _
    simp only [ends_bind, ends_pure]
    refine (mmFree_spec R a.wf hb hu).mono ?_
    rintro - t ⟨h1, h2⟩
    exact ⟨rfl, h1, h2, fun p n e => by cases e⟩
  | realloc p n =>
    rcases a.realloc_cases p n with ⟨h0, e⟩ | ⟨h0, hn, e⟩ | ⟨h0, hn, e⟩
    · have e : a.call (.realloc p n) = a.malloc n := e
      show Ends (mmRealloc p n) _ _
      unfold mmRealloc
      rw [ends_ite_pos h0]
      refine (mmMalloc_spec R a.wf hz).mono ?_
      rintro r t ⟨h1, h2, h3⟩
      refine ⟨by rw [e]; exact h1, by rw [e]; exact h2, ?_, ?_⟩
      · show Keeps (a.toPool.free p).blocks _ _
        rwa [h0, hnull]
      · intro q k e' _ b _ _ hq
        obtain ⟨rfl, -⟩ := Call.realloc.inj e'
        exact absurd hq (not_null_block h0)
    · obtain ⟨m, hm⟩ := hk.resolve_left h0
      obtain ⟨b, hb, hu, rfl, -⟩ := h.owns.backed p m hm
      have e : a.call (.realloc (b.addr + 8) n) = (0, a.free (b.addr + 8)) := e
      show Ends (mmRealloc (b.addr + 8) n) _ _
      unfold mmRealloc
      rw [ends_ite_neg h0, ends_ite_pos hn]
      simp only [ends_bind, ends_pure]
      refine (mmFree_spec R a.wf hb hu).mono ?_
      rintro - t ⟨h1, h2⟩
      refine ⟨by rw [e], by rw [e]; exact h1, h2, ?_⟩
      intro q k e' hk
      obtain ⟨-, rfl⟩ := Call.realloc.inj e'
      exact absurd hn hk
    · obtain ⟨m, hm⟩ := hk.resolve_left h0
      obtain ⟨b, hb, hu, rfl, -⟩ := h.owns.backed p m hm
      have hr : (a.toPool.malloc A.limit n).1 ≠ 0 := by
        have h1 := hf (Nat.pos_of_ne_zero hn)
        have e : a.call (.realloc (b.addr + 8) n) =
          ((a.malloc n).1, (a.malloc n).2.free (b.addr + 8)) := e
        rw [e] at h1
        exact h1
      have e' := a.realloc_toPool (b.addr + 8) n
      refine (mmRealloc_spec R a.wf hb hu hn hz hr).mono ?_
      rintro r t ⟨h1, h2, h3, h4⟩
      rw [← e'] at h1 h2
      refine ⟨h1, h2, h3, ?_⟩
      intro q k e'' _ d hd hdu hq i hi hid
      obtain ⟨rfl, rfl⟩ := Call.realloc.inj e''
      have hbd : b.addr = d.addr := by omega
      obtain rfl : b = d := a.wf.tiled.eq_of_addr hb hd hbd
      exact h4 i hi hid

/-- **A call the client may make returns.** -/
theorem call_spec (h : Tracks A c a) (hk : k.Names c.live) (hz : k.SizeLe MAX_HEAP)
    (hf : k.Found (a.call k).1) : Ends k.run c.heap (Does A c.heap a k) :=
  fitting_call_spec h hk (hz.fits h.rep) hf

/-- the `mm_malloc` in a `mm_realloc` to some size finds memory -/
def Call.Finds (s : Heap) : Call → Prop
  | .realloc _ n => 0 < n → ∃ r t, mmMalloc n s = some (r, t) ∧ r ≠ 0
  | _ => True

lemma Call.Finds.fitting_found (hf : k.Finds c.heap) (h : Tracks A c a) (hz : k.FitsAt a.brk) :
    k.Found (a.call k).1 := by
  cases k with
  | malloc n => trivial
  | free p => trivial
  | realloc p n =>
    intro hn
    have hn0 : n ≠ 0 := by omega
    obtain ⟨r, u, hu, hr⟩ := hf hn
    have h2 := ((mmMalloc_spec h.rep a.wf hz).of_run hu).1
    have h3 : (a.call (.realloc p n)).1 = (a.malloc n).1 := a.realloc_ret p hn0
    rw [h3]
    show (a.toPool.malloc A.limit n).1 ≠ 0
    rwa [← h2]

lemma Call.Finds.found (hf : k.Finds c.heap) (h : Tracks A c a) (hz : k.SizeLe MAX_HEAP) :
    k.Found (a.call k).1 := hf.fitting_found h (hz.fits h.rep)

lemma Call.Found.finds (hf : k.Found r) (hrun : k.run s = some (r, t)) : k.Finds s := by
  cases k with
  | malloc n => trivial
  | free p => trivial
  | realloc p n =>
    intro hn
    by_cases h0 : p = 0
    · have h1 : mmRealloc p n s = some (r, t) := hrun
      unfold mmRealloc at h1
      rw [if_pos h0] at h1
      exact ⟨r, t, h1, hf hn⟩
    · obtain ⟨u, hu⟩ := mmRealloc_ret h0 (by omega) hrun
      exact ⟨r, u, hu, hf hn⟩

lemma Tracks.does (h : Tracks A c a) (hs : c.Step (.call k r) c') :
    k.Names c.live ∧ Does A c.heap a k r c'.heap := by
  cases hs with
  | call hk hz hrun hf => exact ⟨hk, (call_spec h hk hz ((hf.finds hrun).found h hz)).of_run hrun⟩

lemma Does.tracks (hd : Does A c.heap a k r t) (h : Tracks A c a) (hk : k.Names c.live) :
    Tracks A ⟨t, k.live c.live r⟩ (a.call k).2 := by
  refine ⟨hd.rep, ?_, h.grown.trans (a.le_call_brk k)⟩
  show Owns _ (k.live c.live r)
  rw [hd.ret]
  exact h.owns.call hk

/-- a call that the client may make is a step, with the value that the pool returns -/
lemma Tracks.call_step (h : Tracks A c a) (hk : k.Names c.live) (hz : k.SizeLe MAX_HEAP)
    (hf : k.Found (a.call k).1) : ∃ c', c.Step (.call k (a.call k).1) c' ∧
      c'.live = k.live c.live (a.call k).1 ∧ Tracks A c' (a.call k).2 := by
  obtain ⟨r, t, hrun, hd⟩ := call_spec h hk hz hf
  have hT := hd.tracks h hk
  obtain rfl := hd.ret
  exact ⟨_, .call hk hz hrun hf, rfl, hT⟩

/-- a byte written from 8 bytes in front of a payload to 16 bytes behind it is inside the block, away
from its tags -/
lemma Tracks.poke (h : Tracks A c a) {p m x : Nat} {v : UInt8} (hm : (p, m) ∈ c.live)
    (h1 : p ≤ x + 8) (h2 : x < p + m + 16) : Tracks A ⟨c.heap.poke x v, c.live⟩ a := by
  obtain ⟨b, hb, hu, h3, h4, -⟩ := h.owns.backed p m hm
  have h5 := le_fitSize m
  refine ⟨h.rep.scribble hb hu ⟨rfl, rfl, rfl, rfl⟩ (fun y hy => ?_) h.rep.clean, h.owns, h.grown⟩
  show Function.update c.heap.mem x v y = _
  exact Function.update_of_ne (by omega) ..

/-- **A step is followed by a step of the pool** with the same label. -/
theorem step_follows (h : Tracks A c a) (hs : c.Step l c') :
    ∃ a', a.Steps l a' ∧ Tracks A c' a' := by
  cases hs with
  | @call k r t hk hz hrun hf =>
    have hd := (call_spec h hk hz ((hf.finds hrun).found h hz)).of_run hrun
    refine ⟨(a.call k).2, ?_, hd.tracks h hk⟩
    show a.call k = (r, (a.call k).2)
    rw [hd.ret]
  | @write p m x v hm h1 h2 => exact ⟨a, rfl, h.poke hm (by omega) (by omega)⟩

end

/-! ## reached states -/

lemma boot_spec (A : Arena) (m : Mem) :
    Ends (boot A.lo) (fresh m) (fun r t => r = 0 ∧ Rep A t (Pool.initial A.base)) := by
  unfold boot
  rw [ends_bind, ends_of_run (memInit_run (Nat.ne_of_gt A.pos) A.room (fresh m))]
  exact mmInit_spec rfl rfl rfl (fun e he => absurd he (List.not_mem_nil))

lemma boot_arena {lo : Nat} {m : Mem} {r : Int} {s : Heap} (hb : GoodBase lo)
    (h : boot lo (fresh m) = some (r, s)) : ∃ A : Arena, A.lo = lo ∧ r = 0 ∧
      Rep A s (Pool.initial A.base) := by
  have h0 : lo ≠ 0 := by
    -- `mem_init` exits when there is no memory
    intro h0
    obtain ⟨x, t, h1, -⟩ := bind_eq_some.mp h
    rw [h0, memInit_null] at h1
    exact absurd h1 (by simp)
  exact ⟨hb.arena h0, rfl, (boot_spec (hb.arena h0) m).of_run h⟩

/-- the pool after `mm_init`: one free block behind bucket table and prologue -/
def firstPool (lo : Nat) : SoundPool (lo + 144) (lo + MAX_HEAP) :=
  SoundPool.initial (by
    rw [MAX_HEAP_eq]
    omega)

/-- **Every run is followed by a run of the pool** with the same labels. -/
theorem Trail.follows {lo : Nat} {m : Mem} {ls : List Label} {c : Client} (h : Trail lo m ls c) :
    ∃ A : Arena, A.lo = lo ∧ ∃ a, Lts.Run SoundPool.Steps (firstPool A.lo) ls a ∧ Tracks A c a := by
  obtain ⟨hb, r, s, h1, h2⟩ := h
  obtain ⟨A, hA, -, R⟩ := boot_arena hb h1
  have hR : Tracks A ⟨s, []⟩ (firstPool A.lo) := ⟨R, Owns.initial A.base, Nat.le_refl _⟩
  exact ⟨A, hA, h2.simulate SoundPool.Steps (R := Tracks A)
    (fun s a l t hR hl => step_follows hR hl) hR⟩

lemma Trail.snoc {lo : Nat} {m : Mem} {ls : List Label} {l : Label} {c c' : Client}
    (h : Trail lo m ls c) (hs : c.Step l c') : Trail lo m (ls ++ [l]) c' := by
  obtain ⟨hb, r, s, hboot, hrun⟩ := h
  exact ⟨hb, r, s, hboot, hrun.snoc hs⟩

theorem Ordinary.tracks {lo : Nat} {c : Client} (h : Ordinary lo c) :
    ∃ A : Arena, A.lo = lo ∧ ∃ a, Tracks A c a := by
  obtain ⟨m, ls, ht⟩ := h
  obtain ⟨A, hA, a, -, h1⟩ := ht.follows
  exact ⟨A, hA, a, h1⟩

/-! ## a small run

`mem_init` at address 8 in zeroed memory, `mm_init`, then `mm_malloc(40)`, which returns 160, and
`mm_malloc(8)`, which returns 232. -/

namespace Sample

def arena : Arena := ⟨⟨8, by decide, by decide, by decide⟩, by decide⟩

/-- zeroed memory -/
def start : Heap := fresh (fun _ => 0)

/-- after `mm_init` -/
@[irreducible] def booted : Heap := (boot 8 start).elim start Prod.snd

/-- after `mm_malloc(40)` -/
@[irreducible] def used : Heap := (mmMalloc 40 booted).elim start Prod.snd

/-- after `mm_malloc(8)` -/
@[irreducible] def filled : Heap := (mmMalloc 8 used).elim start Prod.snd

def idle : Client := ⟨booted, []⟩
def client : Client := ⟨used, [(160, 40)]⟩
def pair : Client := ⟨filled, [(232, 8), (160, 40)]⟩

lemma boot_run : boot 8 start = some (0, booted) ∧ Rep arena booted (Pool.initial arena.base) := by
  have h := Ends.run_eq (d := start) (boot_spec arena (fun _ => 0))
  unfold booted
  exact h

theorem idle_trail : Trail 8 (fun _ => 0) [] idle :=
  ⟨⟨by decide, by decide⟩, 0, booted, boot_run.1, .nil⟩

theorem idle_ordinary : Ordinary 8 idle := ⟨_, _, idle_trail⟩

lemma request_run {s : Heap} {a : Pool} {n p : Nat} (R : Rep arena s a) (h : WF arena.base a)
    (hn : n ≤ MAX_HEAP) (hp : (a.malloc arena.limit n).1 = p) :
    mmMalloc n s = some (p, (mmMalloc n s).elim start Prod.snd) ∧
      Rep arena ((mmMalloc n s).elim start Prod.snd) (a.malloc arena.limit n).2 := by
  have h1 := mmMalloc_spec R h (fits_of_le R hn)
  rw [hp] at h1
  exact Ends.run_eq (h1.mono fun r t ht => ⟨ht.1, ht.2.1⟩)

lemma malloc_run : mmMalloc 40 booted = some (160, used) ∧
    Rep arena used ((Pool.initial arena.base).malloc arena.limit 40).2 := by
  unfold used
  exact request_run boot_run.2 (Pool.initial_wf _) (by decide) (by decide)

lemma second_run : mmMalloc 8 used = some (232, filled) ∧
    Rep arena filled (((Pool.initial arena.base).malloc arena.limit 40).2.malloc arena.limit 8).2 := by
  unfold filled
  exact request_run malloc_run.2 (malloc_wf (Pool.initial_wf _) _ _) (by decide) (by decide)

lemma request_step {c : Client} {s : Heap} {n p : Nat} (hrun : mmMalloc n c.heap = some (p, s))
    (hn : n ≤ MAX_HEAP) : c.Step (.call (.malloc n) p) ⟨s, (Call.malloc n).live c.live p⟩ :=
  .call (k := .malloc n) trivial hn hrun trivial

theorem client_trail : Trail 8 (fun _ => 0) [.call (.malloc 40) 160] client :=
  ⟨⟨by decide, by decide⟩, 0, booted, boot_run.1,
    .single (request_step (c := idle) malloc_run.1 (by decide))⟩

theorem pair_trail : Trail 8 (fun _ => 0) [.call (.malloc 40) 160, .call (.malloc 8) 232] pair :=
  ⟨⟨by decide, by decide⟩, 0, booted, boot_run.1,
    Lts.run_cons.mpr ⟨client, request_step (c := idle) malloc_run.1 (by decide),
      .single (request_step (c := client) second_run.1 (by decide))⟩⟩

/-- the pools that `client` and `pair` represent -/
def clientPool : SoundPool arena.base arena.limit := ((firstPool 8).call (.malloc 40)).2

def pairPool : SoundPool arena.base arena.limit := (clientPool.call (.malloc 8)).2

lemma client_tracks : Tracks arena client clientPool :=
  ⟨malloc_run.2, (Owns.initial arena.base).call (k := .malloc 40) trivial,
    Nat.le_trans (Nat.le_refl _) ((firstPool 8).le_call_brk (.malloc 40))⟩

lemma pair_tracks : Tracks arena pair pairPool :=
  ⟨second_run.2, client_tracks.owns.call (k := .malloc 8) trivial,
    client_tracks.grown.trans (SoundPool.le_call_brk _ (.malloc 8))⟩

theorem client_ordinary : Ordinary 8 client := ⟨_, _, client_trail⟩

theorem pair_ordinary : Ordinary 8 pair := ⟨_, _, pair_trail⟩

end Sample
end SegList

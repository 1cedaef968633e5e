import SegList.Safety.Payload
import SegList.Safety.Realloc
import SegList.Safety.Stray
import SegList.Safety.WrappedFree

/-!
# What a call leaves alone

A call may change the tags and the links of the blocks around it, never a byte that some client
wrote.  For sizes up to `MAX_HEAP` this is so without exception.  Above, the block size may have no
class, the break may wrap, and the size itself may wrap when it is rounded up.

* `Harmless s n`            the sizes for which `mm_malloc(n)` spoils nothing;
* `Tracks.malloc_kept`      why: each of the four bands by itself;
* `payloads_kept`           such a call changes no byte of a live payload it is not about;
* `payloads_spoilt`         a size without a class, and a header forged inside a payload.
-/

set_option linter.unusedSectionVars false

open Bytes Prog

namespace SegList
open Pool

/-- the block that `extend_heap` makes has a class, also when it is joined with a free block at the
end of the heap -/
def Joins (s : Heap) (sz : Nat) : Prop :=
  sz < 2 ^ 31 ∧ ∀ bps, s.blocks = some bps → ∀ bp ∈ bps, s.getAlloc (hdrp bp) = 0 →
    bp + s.getSize (hdrp bp) = s.memBrk → s.getSize (hdrp bp) + sz ≤ 2 ^ 31

/-- a free block at the end of the heap is split, and the rest of it begins at address 0 -/
def AtNull (s : Heap) (sz : Nat) : Prop :=
  sz < 2 ^ 31 ∧ ∃ bps, s.blocks = some bps ∧ ∃ bp ∈ bps, s.getAlloc (hdrp bp) = 0 ∧
    bp + s.getSize (hdrp bp) = s.memBrk ∧ bp + sz = 2 ^ 32

/-- the search and the break can handle the size; or the break wraps, and the new block has a class;
or the size has none, and the words from address 0 on lead to no node that is large enough -/
def Harmless (s : Heap) (n : Nat) : Prop :=
  Reckoned s n ∨ Joins s (align (addW n OVERHEAD)) ∨
    2 ^ 31 < align (addW n OVERHEAD) ∧ s.Barren (align (addW n OVERHEAD))

/-- the size is harmless; and a `mm_realloc` of a block, which copies into the new one, gets one that
is large enough and whose rest is not at address 0 -/
def Call.Harmless (s : Heap) : Call → Prop
  | .malloc n => SegList.Harmless s n
  | .free _ => True
  | .realloc p n => SegList.Harmless s n ∧
      (p ≠ 0 → n + 39 < 2 ^ 32 ∧ ¬ AtNull s (align (addW n OVERHEAD)))

section
variable {A : Arena} {s : Heap} {a : Pool} {n sz : Nat} {x : Block}

lemma Rep.joins (R : Rep A s a) (h : Joins s sz) (hx : x ∈ a.blocks) (hf : x.alloc = false)
    (hend : x.addr + x.size = a.brk) : x.size + sz ≤ 2 ^ 31 := by
  have h1 := (R.shows.tags x hx).1
  have h2 := h.2 _ R.blocks_eq x.addr (List.mem_map_of_mem hx) ((R.getAlloc_eq_zero hx).mpr hf)
  rw [h1, R.laid.brk] at h2
  exact h2 hend

lemma Rep.not_atNull (R : Rep A s a) (h : ¬ AtNull s sz) (h31 : sz < 2 ^ 31) (hx : x ∈ a.blocks)
    (hf : x.alloc = false) (hend : x.addr + x.size = a.brk) : x.addr + sz ≠ 2 ^ 32 := by
  refine fun e => h ⟨h31, _, R.blocks_eq, x.addr, List.mem_map_of_mem hx,
    (R.getAlloc_eq_zero hx).mpr hf, ?_, e⟩
  rw [(R.shows.tags x hx).1, R.laid.brk]
  exact hend

lemma Rep.harmless (R : Rep A s a) (hn : n + 39 < 2 ^ 32) (h : Harmless s n) :
    Fits a.brk n ∨ MAX_HEAP < n ∧ (fitSize n < 2 ^ 31 ∧ 2 ^ 32 ≤ a.brk + fitSize n ∧
      Joins s (fitSize n) ∨ 2 ^ 31 < fitSize n ∧ s.Barren (fitSize n)) := by
  have h1 := R.laid.arena
  have habove := A.above
  have h2 := fitSize_le n
  have hM : MAX_HEAP = 20971520 := rfl
  unfold Harmless Reckoned at h
  rw [align_eq hn, R.laid.brk] at h
  rcases h with h | h | h
  · exact Or.inl ⟨hn, h⟩
  · by_cases hw : a.brk + fitSize n < 2 ^ 32
    · exact Or.inl ⟨hn, Or.inr ⟨h.1, hw⟩⟩
    · exact Or.inr ⟨by omega, Or.inl ⟨h.1, by omega, h⟩⟩
  · exact Or.inr ⟨by omega, Or.inr h⟩

/-- no list is found, and `mem_sbrk` is asked for a negative number of bytes -/
lemma Rep.malloc_barren (R : Rep A s a) (hn : n + 39 < 2 ^ 32) (h31 : 2 ^ 31 < fitSize n)
    (hb : s.Barren (fitSize n)) : Ends (mmMalloc n) s (fun p t => p = 0 ∧ t.mem = s.mem) := by
  have h1 := R.laid.arena
  have h2 := fitSize_le n
  have h8 := fitSize_mod n
  have hst := R.laid.start
  have hmax : max (fitSize n) CHUNKSIZE = fitSize n := max_eq_left (by
    show 4096 ≤ fitSize n
    omega)
  rw [mmMalloc_ends R.laid.listp_ne (by omega), align_eq hn, hmax]
  refine (findFit_barren (by omega) h31 (by omega) (by omega) hb).mono ?_
  rintro - u ⟨rfl, hu⟩
  refine ⟨fun h0 => absurd rfl h0, fun _ => ?_⟩
  rw [extendHeap_null h8 (by omega) (Or.inl (by omega))]
  exact ⟨fun _ => ⟨rfl, hu⟩, fun h0 => absurd rfl h0⟩

end

section
variable {A : Arena} {c : Client} {a : SoundPool A.base A.limit} {n q m : Nat} {b : Block} {t : Heap}

lemma Tracks.bytes (h : Tracks A c a) (hq : (q, m) ∈ c.live)
    (hd : ∀ d ∈ a.blocks, d.alloc = true → q = d.addr + 8 → ∀ x, d.addr ≤ x →
      x < d.addr + d.size - 8 → t.mem x = c.heap.mem x) :
    ∀ x, q ≤ x → x < q + m → t.mem x = c.heap.mem x := by
  obtain ⟨d, hd1, hdu, rfl, hsz⟩ := h.block hq
  intro x h1 h2
  exact hd d hd1 hdu rfl x (by omega) (by omega)

/-- **A harmless `mm_malloc` changes no payload in use.** -/
lemma Tracks.malloc_kept (h : Tracks A c a) (hn : n < 2 ^ 32) (hs : Harmless c.heap n) :
    Ends (mmMalloc n) c.heap (fun _ t => Keeps a.blocks c.heap t) := by
  have R := h.rep
  by_cases h39 : 2 ^ 32 ≤ n + 39
  · exact (R.malloc_spares a.wf hn h39).mono fun _ _ hk => hk.keeps
  have h39 : n + 39 < 2 ^ 32 := by omega
  rcases R.harmless h39 hs with hf | ⟨hgt, ⟨h31, hw, hj⟩ | ⟨h31, hb⟩⟩
  · exact (mmMalloc_spec R a.wf hf).mono fun _ _ ht => ht.2.2
  · refine (R.malloc_wrapped a.wf hgt h39 h31 hw).mono ?_
    rintro - t ⟨r, -, G, hP⟩
    refine (hP ?_).keeps
    rcases G.last with rfl | ⟨x, hx, hf, hxr, hend⟩
    · omega
    · have := R.joins hj hx hf (by omega)
      omega
  · exact (R.malloc_barren h39 h31 hb).mono fun _ _ ht => Keeps.of_mem ht.2

/-- **A harmless `mm_realloc` of a block in use** changes no other payload in use. -/
lemma Tracks.realloc_kept (h : Tracks A c a) (hn : n + 39 < 2 ^ 32) (hs : Harmless c.heap n)
    (h0 : ¬ AtNull c.heap (align (addW n OVERHEAD))) {p : Nat} (hp : ∃ k, (p, k) ∈ c.live)
    (hf : (Call.realloc p n).Finds c.heap) (hq : (q, m) ∈ c.live) (hne : p ≠ q) :
    Ends (mmRealloc p n) c.heap (fun _ t => ∀ x, q ≤ x → x < q + m → t.mem x = c.heap.mem x) := by
  have R := h.rep
  rcases R.harmless hn hs with hfit | ⟨hgt, ⟨h31, hw, hj⟩ | ⟨h31, hb⟩⟩
  · have hk : (Call.realloc p n).Names c.live := Or.inr hp
    have hfits : (Call.realloc p n).FitsAt a.brk := hfit
    exact (fitting_call_spec h hk hfits (hf.fitting_found h hfits)).mono fun _ _ hd =>
      h.kept hd hk hq hne
  · obtain ⟨k, hk⟩ := hp
    obtain ⟨b, hb, hu, rfl, -⟩ := h.block hk
    rw [align_eq hn] at h0
    refine (R.realloc_wrapped a.wf hgt hn h31 hw (fun x hx hxf hend => ⟨R.joins hj hx hxf hend,
      R.not_atNull h0 h31 hx hxf hend⟩) hb hu).mono fun _ t ht => h.bytes hq fun d hd hdu hdq => ?_
    refine ht d hd hdu ?_
    rintro rfl
    exact hne hdq.symm
  · -- then `mm_malloc` finds nothing
    obtain ⟨r, t, hrun, hr⟩ := hf (by omega)
    exact absurd ((R.malloc_barren hn h31 hb).of_run hrun).1 hr

end

section
variable {lo : Nat} {c : Client}

/-- **The next call returns and changes no byte of a live payload** it is not about, in every state
of an ordinary run and for every `size_t` that is harmless there. -/
theorem payloads_kept (h : Ordinary lo c) {k : Call} (hk : k.Names c.live)
    (hz : k.SizeLe (2 ^ 32 - 1)) (hs : k.Harmless c.heap) (hf : k.Finds c.heap) {q m : Nat}
    (hq : (q, m) ∈ c.live) (hne : k.subject ≠ q) :
    Ends k.run c.heap (fun _ t => ∀ x, q ≤ x → x < q + m → t.mem x = c.heap.mem x) := by
  obtain ⟨A, -, a, hT⟩ := h.tracks
  have hall : ∀ n, n ≤ 2 ^ 32 - 1 → Harmless c.heap n → Ends (mmMalloc n) c.heap
      (fun _ t => ∀ x, q ≤ x → x < q + m → t.mem x = c.heap.mem x) := fun n hn hs =>
    (hT.malloc_kept (by omega) hs).mono fun _ t ht => hT.bytes hq fun d hd hu _ => ht d hd hu
  cases k with
  | malloc n => exact hall n hz hs
  | free p =>
    exact (fitting_call_spec hT hk trivial trivial).mono fun _ _ hd => hT.kept hd hk hq hne
  | realloc p n =>
    obtain ⟨hs, hcopy⟩ := hs
    by_cases hp : p = 0
    · show Ends (mmRealloc p n) _ _
      unfold mmRealloc
      rw [ends_ite_pos hp]
      exact hall n hz hs
    · obtain ⟨hn, h0⟩ := hcopy hp
      exact hT.realloc_kept hn hs h0 (hk.resolve_left hp) hf hq hne

/-- the largest `size_t` asked for with two pointers live -/
theorem payloads_kept_sample : Ends (Call.malloc (2 ^ 32 - 1)).run Sample.pair.heap (fun _ t =>
    ∀ x, 160 ≤ x → x < 160 + 40 → t.mem x = Sample.pair.heap.mem x) := by
  obtain ⟨A, -, a, hT⟩ := Sample.pair_ordinary.tracks
  have h1 := hT.rep.laid.arena
  have habove := A.above
  have hs : (Call.malloc (2 ^ 32 - 1)).Harmless Sample.pair.heap := by
    have e : align (addW (2 ^ 32 - 1) OVERHEAD) = 32 := by decide
    refine Or.inl (Or.inr ⟨by decide, ?_⟩)
    rw [e, hT.rep.laid.brk]
    omega
  exact payloads_kept (k := .malloc (2 ^ 32 - 1)) Sample.pair_ordinary trivial (Nat.le_refl _) hs
    trivial (List.mem_cons_of_mem _ List.mem_cons_self) (by decide)

end

/-! ## a size without a class -/

namespace Sample

/-- zeroed memory, but for the word at address 0 -/
def plantedStart : Heap := fresh (fun x => if x = 0 then 172 else 0)

/-- `mem_init` at address 8, `mm_init` -/
@[irreducible] def plantedBoot : Heap := (boot 8 plantedStart).elim start Prod.snd

/-- `mm_malloc(40)`, which returns 160 -/
@[irreducible] def planted : Heap := (mmMalloc 40 plantedBoot).elim start Prod.snd

/-- the client has written the word 3000000032 at 168, inside the payload -/
def forged : Client :=
  ⟨(((planted.poke 168 0x20).poke 169 0x5e).poke 170 0xd0).poke 171 0xb2, [(160, 40)]⟩

lemma plantedBoot_run : boot 8 plantedStart = some (0, plantedBoot) ∧
    Rep arena plantedBoot (Pool.initial arena.base) := by
  have h := Ends.run_eq (d := start) (boot_spec arena (fun x => if x = 0 then 172 else 0))
  unfold plantedBoot
  exact h

lemma planted_run : mmMalloc 40 plantedBoot = some (160, planted) ∧
    Rep arena planted ((Pool.initial arena.base).malloc arena.limit 40).2 := by
  unfold planted
  exact request_run plantedBoot_run.2 (Pool.initial_wf _) (by decide) (by decide)

lemma poke_step (s : Heap) {x : Nat} {v : UInt8} (h1 : 160 ≤ x) (h2 : x < 160 + 40) :
    Client.Step ⟨s, [(160, 40)]⟩ (.write x v) ⟨s.poke x v, [(160, 40)]⟩ :=
  .write (c := ⟨s, [(160, 40)]⟩) List.mem_cons_self h1 h2

theorem forged_ordinary : Ordinary 8 forged := by
  refine ⟨_, [.call (.malloc 40) 160, .write 168 0x20, .write 169 0x5e, .write 170 0xd0,
    .write 171 0xb2], ⟨by decide, by decide⟩, 0, plantedBoot, plantedBoot_run.1, ?_⟩
  refine Lts.run_cons.mpr ⟨⟨planted, [(160, 40)]⟩,
    request_step (c := ⟨plantedBoot, []⟩) planted_run.1 (by decide), ?_⟩
  refine Lts.run_cons.mpr ⟨_, poke_step _ (by decide) (by decide), ?_⟩
  refine Lts.run_cons.mpr ⟨_, poke_step _ (by decide) (by decide), ?_⟩
  exact Lts.run_cons.mpr ⟨_, poke_step _ (by decide) (by decide),
    .single (poke_step _ (by decide) (by decide))⟩

/-- the calls wrote nothing below the arena -/
lemma planted_below {x : Nat} (hx : x < 8) : planted.mem x = plantedStart.mem x := by
  obtain ⟨_, u, h1, h2⟩ := bind_eq_some.mp plantedBoot_run.1
  rw [memInit_run (by decide) (by decide)] at h1
  obtain ⟨-, rfl⟩ := Prod.mk.inj (Option.some.inj h1)
  have h3 := stmt_covered mmInit_built _ _ _ h2
  have h4 := stmt_covered (mmMalloc_built 40) _ _ _ planted_run.1
  have hstart : planted.memStartBrk = 8 := planted_run.2.laid.start
  exact (IsTrans.trans _ _ _ h3 h4 : Covered _ planted).below planted_run.2.clean (by omega)

lemma forged_mem {x : Nat} (hx : x < 168) : forged.heap.mem x = planted.mem x := by
  show Function.update (Function.update (Function.update (Function.update planted.mem 168 _) 169 _)
    170 _) 171 _ x = _
  rw [Function.update_of_ne (by omega), Function.update_of_ne (by omega),
    Function.update_of_ne (by omega), Function.update_of_ne (by omega)]

lemma forged_header : forged.heap.getSize (hdrp 172) = 3000000032 := rfl

/-- the word at address 0 leads to the header that the client forged -/
lemma forged_strays : Strays forged.heap 3000000032 172 := by
  have h0 : forged.heap.word 0 = 172 := by
    have e : forged.heap.word 0 = plantedStart.word 0 := Heap.word_congr fun x _ hx =>
      (forged_mem (by omega)).trans (planted_below (by omega))
    rw [e]
    rfl
  refine ⟨by decide, 0, ?_, fun i hi => absurd hi (Nat.not_lt_zero i), [], ?_, h0⟩
  · show 0 < forged.heap.memStartBrk + 128
    omega
  · rw [h0]
    exact decide_eq_true (Or.inr (le_of_eq forged_header.symm))

end Sample

/-- **A size without a class spoils a payload**: the search takes the word at address 0 for a bucket
and follows it into the payload at 160, and `place` marks the header that was forged there as in
use. -/
theorem payloads_spoilt : Ordinary 8 Sample.forged ∧ (160, 40) ∈ Sample.forged.live ∧
    ∃ p t, (Call.malloc 3000000000).run Sample.forged.heap = some (p, t) ∧
      t.mem 168 ≠ Sample.forged.heap.mem 168 := by
  refine ⟨Sample.forged_ordinary, List.mem_singleton.mpr rfl, ?_⟩
  have e : align (addW 3000000000 OVERHEAD) = 3000000032 := by decide
  have hlo : Sample.forged.heap.memStartBrk = 8 := Sample.planted_run.2.laid.start
  have hl : Sample.forged.heap.heapListp ≠ 0 := Sample.planted_run.2.laid.listp_ne
  show Ends (mmMalloc 3000000000) Sample.forged.heap (fun _ t => t.mem 168 ≠ _)
  rw [mmMalloc_ends hl (by decide), e]
  refine (findFit_leads (by decide) (by decide) (by decide) (by omega) Sample.forged_strays).mono ?_
  rintro _ u ⟨rfl, hu⟩
  refine ⟨fun _ => ?_, fun h0 => absurd h0 (by decide)⟩
  have hsize : u.getSize (hdrp 172) = 3000000032 := by
    rw [← Sample.forged_header]
    unfold Heap.getSize
    rw [word_of_mem hu]
  unfold place
  rw [ends_bind, ends_getSize, hsize, ends_ite_neg (by decide)]
  simp only [ends_bind]
  -- whatever the list is that the forged block is unlinked from, the header is written after that
  refine (access_ends (removeFromSeglist_built 172) _).mono fun _ v _ => ?_
  rw [ends_tag (by decide) (by decide) (by decide) (by decide) (by decide)]
  intro hkept
  have h1 : (v.tagged 172 3000000032 1).word 168 = 3000000033 :=
    tagged_header (by decide) (by decide) (by decide)
  have h2 : Sample.forged.heap.mem 168 = 0x20 := rfl
  unfold Heap.word word at h1
  rw [hkept, h2] at h1
  have h3 : (0x20 : UInt8).toNat = 32 := rfl
  omega

end SegList

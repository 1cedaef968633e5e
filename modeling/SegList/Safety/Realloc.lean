import SegList.Safety.Accesses
import SegList.Safety.Confluence
import SegList.Safety.Failure
import SegList.Safety.Wrapped

/-!
# What `mm_realloc` copies

`mm_realloc` calls `mm_malloc`, copies as many bytes as the smaller of the request and the whole
old block has, and frees the old block, whatever `mm_malloc` returned.

* `realloc_copies`        the log of a `mm_realloc` has exactly this one `memcpy`;
* `Rep.malloc_spares`     a size that wraps spoils no header and no payload of a block in use, so
                          the length is as for every other size;
* `failed_realloc_null`   when `mm_malloc` returns `NULL`, bytes are copied to `NULL`;
* `copies_inside_iff`     the copy stays inside the old payload exactly when the request does.
-/

set_option linter.unusedSectionVars false

open Bytes Prog

namespace SegList
open Pool

/-- the copy that an event records: destination, source and length -/
def Event.copy? : Event → Option (Nat × Nat × Nat)
  | .memcpy dst src len => some (dst, src, len)
  | _ => none

def copies (evs : List Event) : List (Nat × Nat × Nat) := evs.filterMap Event.copy?

/-- the number of bytes `mm_realloc(p, n)` copies: the request, or the size of the whole block -/
def copyLen (s : Heap) (p n : Nat) : Nat :=
  if n < s.getSize (hdrp (subW p DSIZE)) then n else s.getSize (hdrp (subW p DSIZE))

section
variable {s t u : Heap} {p n r : Nat} {evs evs' : List Event}

lemma copies_append : copies (evs ++ evs') = copies evs ++ copies evs' := List.filterMap_append

lemma Adds.copies_eq (h : Adds Event.NotCopy s t) :
    ∃ evs, t.trace = evs ++ s.trace ∧ copies evs = [] := by
  refine h.filterMap fun e he => ?_
  cases e with
  | memcpy dst src len => exact absurd he id
  | load p brk => rfl
  | store p brk => rfl
  | sbrk incr ret => rfl
  | message text => rfl

/-- **One copy**: `mm_realloc` of a pointer to some size copies once, to what `mm_malloc`
returned. -/
theorem realloc_copies (hp : p ≠ 0) (hn : n ≠ 0) (h : mmRealloc p n s = some (r, t)) :
    ∃ u, mmMalloc n s = some (r, u) ∧
      ∃ evs, t.trace = evs ++ s.trace ∧ copies evs = [(r, p, copyLen u p n)] := by
  unfold mmRealloc at h
  rw [if_neg hp, if_neg hn] at h
  obtain ⟨q, u, h1, h⟩ := bind_eq_some.mp h
  obtain ⟨csize, v, h2, h⟩ := bind_eq_some.mp h
  obtain ⟨rfl, rfl⟩ := Prod.mk.inj (Option.some.inj h2)
  obtain ⟨_, w, h3, h⟩ := bind_eq_some.mp h
  obtain ⟨-, rfl⟩ := Prod.mk.inj (Option.some.inj h3)
  obtain ⟨_, x, h4, h⟩ := bind_eq_some.mp h
  obtain ⟨rfl, rfl⟩ := Prod.mk.inj (Option.some.inj h)
  obtain ⟨evs, hu, hevs⟩ := (stmt_notCopy (mmMalloc_built n) s q u h1).copies_eq
  have hfree : Adds Event.NotCopy _ x := access_moves (mmFree_built p) _ _ _ h4
  obtain ⟨evs', hx, hevs'⟩ := hfree.copies_eq
  refine ⟨u, h1, evs' ++ .memcpy q p (copyLen u p n) ::
    .load (hdrp (subW p DSIZE)) u.memBrk :: evs, ?_, ?_⟩
  · rw [hx, List.append_assoc, List.cons_append, List.cons_append, ← hu]
    rfl
  · rw [copies_append, hevs', List.nil_append]
    show (q, p, copyLen u p n) :: copies evs = _
    rw [hevs]

lemma copies_of_log (hp : p ≠ 0) (hn : n ≠ 0) (h : mmRealloc p n s = some (r, t))
    (he : t.trace = evs ++ s.trace) :
    ∃ u, mmMalloc n s = some (r, u) ∧ copies evs = [(r, p, copyLen u p n)] := by
  obtain ⟨u, hu, evs', he', hc⟩ := realloc_copies hp hn h
  have e : evs = evs' := List.append_cancel_right (he.symm.trans he')
  rw [e]
  exact ⟨u, hu, hc⟩

lemma mem_copies {dst src len : Nat} :
    (dst, src, len) ∈ copies evs ↔ .memcpy dst src len ∈ evs := by
  unfold copies
  rw [List.mem_filterMap]
  constructor
  · rintro ⟨ev, hev, he⟩
    cases ev with
    | memcpy dst' src' len' =>
      have e := Option.some.inj he
      simp only [Prod.mk.injEq] at e
      obtain ⟨rfl, rfl, rfl⟩ := e
      exact hev
    | load p brk => exact absurd he (by simp [Event.copy?])
    | store p brk => exact absurd he (by simp [Event.copy?])
    | sbrk incr ret => exact absurd he (by simp [Event.copy?])
    | message text => exact absurd he (by simp [Event.copy?])
  · intro h
    exact ⟨_, h, rfl⟩

end

/-! ## sizes that wrap -/

section
variable {A : Arena} {s t : Heap} {a : Pool} {b : Block} {sz n : Nat} {L : Nat → List Nat} {C : Nat → Prop}

/-- the headers and the payloads of the blocks in use are the same -/
structure UsedKept (a : Pool) (s t : Heap) : Prop where
  header : ∀ c ∈ a.blocks, c.alloc = true → t.word (c.addr - 4) = c.size + 1
  keeps : Keeps a.blocks s t

lemma UsedKept.of_rep {M : Nat → List Block} (R : Rep A t ⟨a.blocks, M, a.brk⟩)
    (hK : Keeps a.blocks s t) : UsedKept a s t := by
  refine ⟨fun c hc hu => ?_, hK⟩
  rw [← tag_of_used hu]
  exact (R.laid.tags c hc).1

lemma UsedKept.write (h : UsedKept a s t) (R : Rep A s a) {v : Heap} (hW : Writes C t v)
    (hC : ∀ p, C p → ∀ c ∈ a.blocks, c.alloc = true → p + 8 ≤ c.addr ∨ c.addr + c.size ≤ p + 8) :
    UsedKept a s v := by
  have h0 := R.laid.arena
  refine ⟨fun c hc hu => ?_, fun c hc hu x h1 h2 => ?_⟩
  · have h3 := R.laid.block hc
    rw [hW.word fun p hp => ?_]
    · exact h.header c hc hu
    · have := hC p hp c hc hu
      omega
  · rw [hW.mem x fun p hp => ?_]
    · exact h.keeps c hc hu x h1 h2
    · have := hC p hp c hc hu
      omega

/-- the words of a block, and the footer before it -/
def BlockWord (b : Block) (p : Nat) : Prop := b.addr ≤ p + 8 ∧ p + 8 ≤ b.addr + b.size

/-- **`place` with a wrapped size** spoils no header and no payload of a block in use: what it writes
are words of the free block and of the lists, and the footer before the block when the size is `0`. -/
lemma place_wrapped (R : Rep A s a) (h : WF A.base a) (hb : b ∈ a.blocks) (hf : b.alloc = false)
    (h32 : sz ≤ 32) (h8 : sz % 8 = 0) : Ends (place b.addr sz) s (fun _ t => UsedKept a s t) := by
  have h0 := R.laid.arena
  have h1 := R.laid.block hb
  have hsub : subW b.size sz = b.size - sz := subW_eq (by omega) (by omega)
  have hother : ∀ p, BlockWord b p → ∀ c ∈ a.blocks, c.alloc = true →
      p + 8 ≤ c.addr ∨ c.addr + c.size ≤ p + 8 := by
    rintro p ⟨h2, h3⟩ c hc hu
    have hne : b ≠ c := by
      rintro rfl
      rw [hu] at hf
      exact absurd hf (by simp)
    have h4 := R.laid.apart hb hc hne
    omega
  unfold place
  simp only [ends_bind]
  apply R.ends_getSize hb
  intro u R1 e1
  rw [hsub]
  -- before the tags are written, the block leaves its list
  have hdrop := removeFromSeglist_spec R1 (h.mem_lists hb hf)
  by_cases hsp : 32 ≤ b.size - sz
  · rw [ends_ite_pos (show b.size - sz ≥ 4 * DSIZE from hsp)]
    simp only [ends_bind]
    refine hdrop.mono ?_
    rintro - v ⟨R2, K2⟩
    have hkept : UsedKept a s v := UsedKept.of_rep R2 ((Keeps.of_mem e1).trans K2)
    rw [ends_tag h8 (by omega) (by omega) (by omega) (by omega), SegList.ends_nextBlkp,
      Heap.nextBlkp_of_tag (tagged_header (by omega) (by omega) (by omega)) h8 (by omega)
        (by omega) (by omega),
      ends_tag (by omega) (by omega) (by omega) (by omega) (by omega)]
    have hW1 : Writes (BlockWord b) v (v.tagged b.addr sz 1) :=
      (((Writes.refl _ v).store ⟨by omega, by omega⟩).log _).store ⟨by omega, by omega⟩
    have hW2 := (((hW1.log (.load (subW b.addr WSIZE) v.memBrk)).store (p := b.addr + sz - 4)
      (v := b.size - sz + 0) ⟨by omega, by omega⟩).log (.load (b.addr + sz - 4) v.memBrk)).store
      (p := b.addr + sz + (b.size - sz) - 8) (v := b.size - sz + 0) ⟨by omega, by omega⟩
    have hhead : ∀ v' : Heap, (v'.tagged (b.addr + sz) (b.size - sz) 0).word (hdrp (b.addr + sz))
        = b.size - sz + 0 := by
      intro v'
      rw [SegList.hdrp_eq (by omega) (by omega)]
      exact tagged_header (by omega) (by omega) (by omega)
    have hcell := fun p hp => R2.cut_top.spare_cell (p := p) R2 hp fun k y hy => by
      obtain ⟨d, hd, rfl⟩ := List.mem_map.mp hy
      obtain ⟨h2, h3, -⟩ := R2.threaded.listed k d hd
      exact Or.inr ⟨d, h2, h3, rfl⟩
    have S2 := R2.strung.congr hW2.start fun q hq => hW2.word fun p hp => ?_
    · refine (S2.add_writes (by omega) (by omega) (hhead _) (by omega) (by omega)).mono ?_
      rintro - t hT
      refine (hkept.write R hW2 hother).write R hT fun p hp c hc hu => ?_
      rcases hp with rfl | rfl | hp
      · exact hother _ ⟨by omega, by omega⟩ c hc hu
      · exact hother _ ⟨by omega, by omega⟩ c hc hu
      · have h2 := (hcell p hp).payload c hc hu
        have h3 := ((hcell p hp).tags c hc (R.laid.block hc).2.2.2.2).1
        omega
    · -- the cells are those of other blocks
      obtain ⟨h2, h3⟩ := hp
      rcases hq with ⟨k, hk, rfl⟩ | ⟨k, y, hy, hqy⟩
      · omega
      · obtain ⟨d, hd, rfl⟩ := List.mem_map.mp hy
        have hd2 := R2.threaded.listed k d hd
        have hne : d ≠ b := by
          rintro rfl
          exact ((mem_drop h.nodup).mp hd).2 ⟨rfl, hd2.2.2.symm⟩
        have h4 := R.laid.apart hd2.1 hb hne
        have h5 := R.laid.block hd2.1
        omega
  · rw [ends_ite_neg (show ¬ b.size - sz ≥ 4 * DSIZE from hsp)]
    simp only [ends_bind]
    refine hdrop.mono ?_
    rintro - v ⟨R2, K2⟩
    have hkept : UsedKept a s v := UsedKept.of_rep R2 ((Keeps.of_mem e1).trans K2)
    rw [ends_tag (by omega) (by omega) (by omega) (by omega) (by omega)]
    have hW : Writes (BlockWord b) v (v.tagged b.addr b.size 1) :=
      (((Writes.refl _ v).store ⟨by omega, by omega⟩).log _).store ⟨by omega, by omega⟩
    exact hkept.write R hW hother

/-- so no header and no payload in use is spoilt by a request whose size wraps -/
lemma Rep.malloc_spares (R : Rep A s a) (h : WF A.base a) (hn : n < 2 ^ 32) (ht : 2 ^ 32 ≤ n + 39) :
    Ends (mmMalloc n) s (fun _ t => UsedKept a s t) := by
  have h1 := R.laid.arena
  have habove := A.above
  obtain ⟨h8, h32⟩ := align_wrapped hn ht
  refine R.ends_request h (by omega) rfl h8 (by omega) (fun b u hf R1 e1 => ?_)
    (fun b u _ _ hb R1 K1 => ?_) (fun u _ _ R1 e1 => UsedKept.of_rep R1 (Keeps.of_mem e1))
  · obtain ⟨h2, h3, -⟩ := fit_some h hf
    refine (place_wrapped R1 h h2 h3 h32 h8).mono fun _ t ht => ?_
    exact ⟨ht.header, (Keeps.of_mem e1).trans ht.keeps⟩
  · obtain ⟨h2, h3, -⟩ := grow_block a (max (align (addW n OVERHEAD)) 4096)
    rw [hb] at h2 h3
    refine (place_wrapped R1 (grow_wf h (by omega) (by omega)) h2 h3 h32 h8).mono fun _ t ht => ?_
    have hsub : ∀ c ∈ a.blocks, c.alloc = true →
        c ∈ (a.grow (max (align (addW n OVERHEAD)) 4096)).2.blocks := fun c hc hu =>
      (mem_grow_alloc.mpr ⟨hc, hu⟩).1
    exact ⟨fun c hc hu => ht.header c (hsub c hc hu) hu, K1.trans (ht.keeps.mono hsub)⟩

end

/-! ## failure -/

/-- the event goes through a null pointer -/
def Event.Null : Event → Prop
  | .load p _ => p = 0
  | .store p _ => p = 0
  | .memcpy dst src len => 0 < len ∧ (dst = 0 ∨ src = 0)
  | _ => False

/-- when `mm_malloc(n)` returns `NULL`, so does `mm_realloc(p, n)`, without going through a null
pointer, and it leaves the tags, the lists, the break and the bytes of every live payload as they
were -/
def FailsSafely (c : Client) (p n : Nat) : Prop :=
  ∀ u, mmMalloc n c.heap = some (0, u) → ∃ t evs, mmRealloc p n c.heap = some (0, t) ∧
    t.trace = evs ++ c.heap.trace ∧ (∀ e ∈ evs, ¬ e.Null) ∧ SamePartition c.heap t ∧
    (∀ k < 32, t.bucket k = c.heap.bucket k) ∧
    ∀ q m, (q, m) ∈ c.live → ∀ x, q ≤ x → x < q + m → t.mem x = c.heap.mem x

section
variable {A : Arena} {c : Client} {a : SoundPool A.base A.limit} {p m n r : Nat} {u : Heap}

lemma Tracks.header (h : Tracks A c a) (hp : (p, m) ∈ c.live) :
    32 ≤ c.heap.getSize (hdrp (subW p DSIZE)) ∧
      c.heap.getSize (hdrp (subW p DSIZE)) ≤ MAX_HEAP := by
  have R := h.rep
  have h1 := R.laid.arena
  have hM : MAX_HEAP = 20971520 := rfl
  obtain ⟨b, hb, hu, rfl, -⟩ := h.owns.backed p m hp
  have h2 := R.laid.block hb
  rw [R.size_of_payload hb]
  omega

lemma Tracks.header_kept (h : Tracks A c a) (hp : (p, m) ∈ c.live) (hn : n < 2 ^ 32)
    (hz : n ≤ MAX_HEAP ∨ 2 ^ 32 ≤ n + 39) (hrun : mmMalloc n c.heap = some (r, u)) :
    u.getSize (hdrp (subW p DSIZE)) = c.heap.getSize (hdrp (subW p DSIZE)) := by
  have R := h.rep
  have h1 := R.laid.arena
  obtain ⟨b, hb, hu, rfl, -⟩ := h.owns.backed p m hp
  have h2 := R.laid.block hb
  rw [R.size_of_payload hb]
  rcases hz with hz | hz
  · obtain ⟨-, R1, -⟩ := (mmMalloc_spec R a.wf (fits_of_le R hz)).of_run hrun
    exact R1.size_of_payload (mem_malloc a.wf hb hu)
  · have h3 := ((R.malloc_spares a.wf hn hz).of_run hrun).header b hb hu
    rw [R.laid.of_payload hb, R.laid.hdrp_eq hb]
    exact Heap.getSize_of_tag h3 h2.2.2.2.1 (by omega)

/-- **Nothing safe about a failure**: the copy goes to `NULL`. -/
lemma Tracks.not_failsSafely (h : Tracks A c a) (hp : (p, m) ∈ c.live) (h0 : 0 < n)
    (hz : n ≤ MAX_HEAP) (hf : mmMalloc n c.heap = some (0, u)) : ¬ FailsSafely c p n := by
  intro hsafe
  obtain ⟨t, evs, hrun, he, hnull, -⟩ := hsafe u hf
  have hn : n ≠ 0 := Nat.ne_of_gt h0
  obtain ⟨v, hv, hc⟩ := copies_of_log (h.owns.ne_zero hp) hn hrun he
  have h1 := (h.header hp).1
  have hM : MAX_HEAP = 20971520 := rfl
  have hlen : 0 < copyLen v p n := by
    unfold copyLen
    rw [h.header_kept hp (by omega) (Or.inl hz) hv]
    split <;> omega
  have hm : .memcpy 0 p (copyLen v p n) ∈ evs := mem_copies.mp (hc ▸ List.mem_singleton.mpr rfl)
  exact hnull _ hm ⟨hlen, Or.inl rfl⟩

lemma Tracks.malloc_null (h : Tracks A c a) : ∃ u, mmMalloc MAX_HEAP c.heap = some (0, u) := by
  have R := h.rep
  have h1 := R.laid.arena
  have h2 := le_fitSize MAX_HEAP
  have hM : MAX_HEAP = 20971520 := rfl
  have hlim : A.limit = A.lo + 20971520 := rfl
  obtain ⟨r, u, hrun, hr, -⟩ := mmMalloc_spec R a.wf (fits_of_le R (Nat.le_refl MAX_HEAP))
  have hf : a.fit (fitSize MAX_HEAP) = none := by
    refine Pool.fit_eq_none a.wf fun b hb _ => ?_
    have h3 := R.laid.block hb
    omega
  rw [malloc_of_full (by omega) hf (by omega)] at hr
  obtain rfl : r = 0 := hr
  exact ⟨u, hrun⟩

end

section
variable {lo p m n : Nat} {c : Client} {u : Heap}

/-- **A failed `mm_realloc` never keeps the old block safely**, in any state of an ordinary run. -/
theorem failed_realloc_null (h : Ordinary lo c) (hp : (p, m) ∈ c.live) (h0 : 0 < n)
    (hz : n ≤ MAX_HEAP) (hf : mmMalloc n c.heap = some (0, u)) : ¬ FailsSafely c p n := by
  obtain ⟨A, -, a, hT⟩ := h.tracks
  exact hT.not_failsSafely hp h0 hz hf

theorem failed_realloc_null_sample : ∃ u, mmMalloc MAX_HEAP Sample.client.heap = some (0, u) ∧
    ¬ FailsSafely Sample.client 160 MAX_HEAP := by
  obtain ⟨A, -, a, hT⟩ := Sample.client_ordinary.tracks
  obtain ⟨u, hu⟩ := hT.malloc_null
  exact ⟨u, hu, failed_realloc_null Sample.client_ordinary (List.mem_singleton.mpr rfl)
    (by decide) (Nat.le_refl _) hu⟩

/-- the block at 160, to be as large as the whole arena -/
theorem realloc_copies_to_null : Ordinary 8 Sample.client ∧ (160, 40) ∈ Sample.client.live ∧
    (∃ u, mmMalloc MAX_HEAP Sample.client.heap = some (0, u)) ∧
    ¬ FailsSafely Sample.client 160 MAX_HEAP := by
  obtain ⟨A, -, a, hT⟩ := Sample.client_ordinary.tracks
  have hp : (160, 40) ∈ Sample.client.live := List.mem_singleton.mpr rfl
  obtain ⟨u, hu⟩ := hT.malloc_null
  exact ⟨Sample.client_ordinary, hp, ⟨u, hu⟩, hT.not_failsSafely hp (by decide) (Nat.le_refl _) hu⟩

/-! ## success -/

/-- `mm_malloc(n)` succeeds: it returns a pointer, and has accessed the heap only -/
def Succeeds (s : Heap) (n : Nat) : Prop :=
  ∃ r t evs, mmMalloc n s = some (r, t) ∧ r ≠ 0 ∧ t.trace = evs ++ s.trace ∧
    ∀ e ∈ evs, e.Inside s.memStartBrk

/-- `mm_realloc(p, n)` returns, and every byte it copies is read inside the payload of the block
that `p` points to, behind the links and before the footer -/
def CopiesInside (s : Heap) (p n : Nat) : Prop :=
  ∃ r t evs, mmRealloc p n s = some (r, t) ∧ t.trace = evs ++ s.trace ∧
    ∀ dst src len, .memcpy dst src len ∈ evs → ∀ i < len,
      p ≤ src + i ∧ src + i < p + (s.getSize (hdrp (subW p DSIZE)) - 16)

section
variable {A : Arena} {a : SoundPool A.base A.limit} {s : Heap} {r : Nat}

/-- only the sizes that the arena can hold succeed, and those that wrap -/
lemma Tracks.fits_or_wraps (h : Tracks A c a) (h0 : 0 < n) (hs : Succeeds c.heap n) :
    n ≤ MAX_HEAP ∨ 2 ^ 32 ≤ n + 39 := by
  have R := h.rep
  have h1 := R.laid.arena
  have hst := R.laid.start
  have h8 := fitSize_mod n
  obtain ⟨r, t, evs, hrun, hr, he, hevs⟩ := hs
  have hin : ∀ e ∈ t.trace, e.Inside A.lo := by
    intro e hm
    rw [he] at hm
    rw [← hst]
    rcases List.mem_append.mp hm with hm | hm
    · exact hevs e hm
    · exact (R.clean e hm).inside
  by_contra hbad
  obtain ⟨hgt, hn⟩ := not_or.mp hbad
  have hn : n + 39 < 2 ^ 32 := Nat.lt_of_not_le hn
  obtain ⟨hf, hlt⟩ := (hopeless_of_gt R (Nat.lt_of_not_le hgt) hn).fit_eq_none R a.wf
  have hne : n ≠ 0 := Nat.ne_of_gt h0
  by_cases hfits : fitSize n = 2 ^ 31 ∨ fitSize n < 2 ^ 31 ∧ a.brk + fitSize n < 2 ^ 32
  · obtain ⟨u, -, hu, -⟩ := atomic_of_reckoned R a.wf hne hn hf hlt hfits
    rw [hrun] at hu
    obtain ⟨rfl, -⟩ := Prod.mk.inj (Option.some.inj hu)
    exact hr rfl
  by_cases h31 : 2 ^ 31 < fitSize n
  · -- the word at address 0 was read
    have h2 := (hin _ (mmMalloc_null R hne hn h31 hrun)).1
    omega
  · -- the break is below the arena
    obtain ⟨hbrk, hstore⟩ := mmMalloc_wraps R hne hn hf (by omega) (by omega) hrun
    have hle := fitSize_le n
    have h2 := hin _ hstore
    have h3 : A.lo ≤ hdrp a.brk ∧ hdrp a.brk + 4 ≤ t.memBrk := h2
    omega

lemma Tracks.copy (h : Tracks A c a) (hp : (p, m) ∈ c.live) (h0 : 0 < n) (hn : n < 2 ^ 32)
    (hs : Succeeds c.heap n) (hrun : mmRealloc p n c.heap = some (r, u)) {evs : List Event}
    (he : u.trace = evs ++ c.heap.trace) : copies evs = [(r, p, copyLen c.heap p n)] := by
  obtain ⟨v, hv, hc⟩ := copies_of_log (h.owns.ne_zero hp) (Nat.ne_of_gt h0) hrun he
  rw [hc]
  unfold copyLen
  rw [h.header_kept hp hn (h.fits_or_wraps h0 hs) hv]

lemma Tracks.copiesInside_iff (h : Tracks A c a) (hp : (p, m) ∈ c.live) (h0 : 0 < n)
    (hn : n < 2 ^ 32) (hs : Succeeds c.heap n) :
    CopiesInside c.heap p n ↔ n + 16 ≤ c.heap.getSize (hdrp (subW p DSIZE)) := by
  obtain ⟨hB, hle⟩ := h.header hp
  have hlen : copyLen c.heap p n = n ∧ n < c.heap.getSize (hdrp (subW p DSIZE)) ∨
      copyLen c.heap p n = c.heap.getSize (hdrp (subW p DSIZE)) ∧
        c.heap.getSize (hdrp (subW p DSIZE)) ≤ n := by
    unfold copyLen
    split <;> omega
  constructor
  · rintro ⟨r, t, evs, hrun, he, hin⟩
    have hc := h.copy hp h0 hn hs hrun he
    have hm : .memcpy r p (copyLen c.heap p n) ∈ evs :=
      mem_copies.mp (hc ▸ List.mem_singleton.mpr rfl)
    -- a longer copy reads the byte where the footer starts
    by_contra hlt
    have h1 := hin _ _ _ hm (c.heap.getSize (hdrp (subW p DSIZE)) - 16) (by omega)
    omega
  · intro hfits
    have hz : n ≤ MAX_HEAP := by omega
    obtain ⟨q, v, -, hv, hq, -⟩ := id hs
    have hfinds : (Call.realloc p n).Finds c.heap := fun _ => ⟨q, v, hv, hq⟩
    obtain ⟨r, t, hrun, -⟩ :=
      call_spec (k := .realloc p n) h (Or.inr ⟨m, hp⟩) hz (hfinds.found h hz)
    obtain ⟨evs, he⟩ := (Call.realloc p n).run_grows _ r t hrun
    have hc := h.copy hp h0 hn hs hrun he.symm
    refine ⟨r, t, evs, hrun, he.symm, fun dst src len hm i hi => ?_⟩
    have h1 := mem_copies.mpr hm
    rw [hc] at h1
    simp only [List.mem_singleton, Prod.mk.injEq] at h1
    omega

end

lemma Rep.succeeds {A : Arena} {s : Heap} {a : Pool} (R : Rep A s a) (h : WF A.base a)
    (hz : n ≤ MAX_HEAP) (hr : (a.malloc A.limit n).1 ≠ 0) : Succeeds s n := by
  obtain ⟨r, t, hrun, rfl, R1, -⟩ := mmMalloc_spec R h (fits_of_le R hz)
  obtain ⟨evs, he⟩ := stmt_grows (mmMalloc_built n) s _ t hrun
  refine ⟨_, t, evs, hrun, hr, he.symm, fun e hm => ?_⟩
  have hok := R1.clean e (he ▸ List.mem_append_left _ hm)
  rw [R1.laid.start, ← R.laid.start] at hok
  exact hok.inside

lemma Sample.header_le : Sample.client.heap.getSize (hdrp (subW 160 DSIZE)) ≤ 96 := by
  obtain ⟨A, -, a, hT⟩ := Sample.client_ordinary.tracks
  obtain ⟨b, hb, hu, hp, -, hle⟩ := hT.owns.backed 160 40 (List.mem_singleton.mpr rfl)
  rw [hp, hT.rep.size_of_payload hb]
  exact hle

lemma Sample.succeeds : Succeeds Sample.client.heap 8 ∧ Succeeds Sample.client.heap 100 :=
  ⟨Sample.malloc_run.2.succeeds (malloc_wf (initial_wf _) _ _) (by decide) (by decide),
    Sample.malloc_run.2.succeeds (malloc_wf (initial_wf _) _ _) (by decide) (by decide)⟩

/-- **`mm_realloc` copies from the old payload only exactly when the request fits in it**, in every
state of an ordinary run. -/
theorem copies_inside_iff (h : Ordinary lo c) (hp : (p, m) ∈ c.live) (h0 : 0 < n) (hn : n < 2 ^ 32)
    (hs : Succeeds c.heap n) :
    CopiesInside c.heap p n ↔ n + 16 ≤ c.heap.getSize (hdrp (subW p DSIZE)) := by
  obtain ⟨A, -, a, hT⟩ := h.tracks
  exact hT.copiesInside_iff hp h0 hn hs

theorem copies_inside_iff_sample : CopiesInside Sample.client.heap 160 8 := by
  have hp : (160, 40) ∈ Sample.client.live := List.mem_singleton.mpr rfl
  obtain ⟨A, -, a, hT⟩ := Sample.client_ordinary.tracks
  have h1 := (hT.header hp).1
  exact (copies_inside_iff Sample.client_ordinary hp (by decide) (by decide)
    Sample.succeeds.1).mpr (by omega)

/-- the block at 160, to be of 100 bytes: the copy takes the footer with it -/
theorem realloc_copies_footer : Ordinary 8 Sample.client ∧ (160, 40) ∈ Sample.client.live ∧
    Succeeds Sample.client.heap 100 ∧ ¬ CopiesInside Sample.client.heap 160 100 := by
  have hp : (160, 40) ∈ Sample.client.live := List.mem_singleton.mpr rfl
  obtain ⟨A, -, a, hT⟩ := Sample.client_ordinary.tracks
  have h1 := Sample.header_le
  refine ⟨Sample.client_ordinary, hp, Sample.succeeds.2, fun hin => ?_⟩
  have h2 := (hT.copiesInside_iff hp (by decide) (by decide) Sample.succeeds.2).mp hin
  omega

end
end SegList

import SegList.Model.Frame
import SegList.Refine.Blocks
import SegList.Refine.Search

/-!
# The package refines the pool

`extend_heap`, `mm_malloc`, `mm_free` and `mm_realloc` on a heap that represents a well-formed pool
do what `Pool.grow`, `Pool.malloc`, `Pool.free` and `Pool.realloc` do, and keep the bytes of all
payloads in use.  `mm_init` makes a heap that represents the first pool.

* `Rep.extend`                      the break moved, the old epilogue turned into a header;
* `Rep.ends_request`                the three ends of a request, for every block size;
* `Rep.scribble`                    bytes inside a payload written.
-/

set_option linter.unusedSectionVars false

open Bytes Prog Tile

namespace SegList
open Pool

/-! ## the break -/

section
variable {s : Heap} {n : Nat}

lemma memSbrk_ok (hmax : s.memBrk + n ≤ s.memMaxAddr) (hlt : s.memMaxAddr < 2 ^ 32) : memSbrk n s
      = some (s.memBrk, { s with memBrk := s.memBrk + n }.log (.sbrk n s.memBrk)) := by
  have e : offset s.memBrk n = s.memBrk + n := offset_eq (by omega)
  unfold memSbrk
  rw [e]
  exact if_neg (by omega)

lemma memSbrk_fail (h32 : n < 2 ^ 32)
    (h : 2 ^ 31 ≤ n ∨ s.memBrk + n < 2 ^ 32 ∧ s.memMaxAddr < s.memBrk + n) : memSbrk (toInt n) s
      = some (minusOne, (s.log (.message "ERROR: mem_sbrk failed. Ran out of memory...\n")).log
        (.sbrk (toInt n) minusOne)) := by
  unfold memSbrk
  refine if_pos ?_
  by_cases h31 : 2 ^ 31 ≤ n
  · exact Or.inl (toInt_neg h31 h32)
  · obtain ⟨h1, h2⟩ := h.resolve_left h31
    rw [toInt_eq (by omega), offset_eq h1]
    exact Or.inr h2

end

section
variable {A : Arena} {s t : Heap} {a : Pool} {e : Nat}

/-- **The break moved by `e`**: the old epilogue is the header of a new free block. -/
theorem Rep.extend (R : Rep A s a) (h32 : 32 ≤ e) (h8 : e % 8 = 0) (hle : a.brk + e ≤ A.limit)
    (hT : Touches (fun p => p % 4 = 0 ∧ a.brk ≤ p + 4 ∧ p + 4 ≤ a.brk + e)
      ({ s with memBrk := a.brk + e }.log (.sbrk (toInt e) a.brk)) t)
    (htag : Tagged t ⟨a.brk, e, false⟩) (hend : t.word (a.brk + e - 4) = 1) :
    Rep A t ⟨a.blocks ++ [⟨a.brk, e, false⟩], a.lists, a.brk + e⟩ ∧ Keeps a.blocks s t := by
  have h0 := R.laid.arena
  have hw : ∀ q, q + 8 ≤ a.brk → t.word q = s.word q := by
    intro q hq
    refine hT.word (fun p hp => ?_)
    omega
  refine ⟨⟨⟨hT.fixed.start.trans R.laid.start, hT.fixed.brk, hT.fixed.maxAddr.trans R.laid.maxAddr,
    hT.fixed.listp.trans R.laid.listp, ?_, ?_, hle, ⟨?_, ?_⟩, hend, ?_⟩,
    ⟨fun k b hb => ?_, R.threaded.nodup, fun k hk => ?_⟩, hT.clean (fun p hp => ?_) ?_⟩,
    fun c hc _ x h1 h2 => ?_⟩
  · refine tiled_append.mpr ⟨a.brk, R.laid.tiled, rfl, ?_, rfl⟩
    show 0 < e
    omega
  · intro b hb
    rcases List.mem_append.mp hb with hb | hb
    · exact R.laid.sized b hb
    · rw [List.mem_singleton.mp hb]
      exact ⟨h32, h8⟩
  · rw [hw _ (by omega)]
    exact R.laid.prologue.1
  · rw [hw _ (by omega)]
    exact R.laid.prologue.2
  · intro b hb
    rcases List.mem_append.mp hb with hb | hb
    · have h1 := R.laid.block hb
      exact ⟨(hw _ (by omega)).trans (R.laid.tags b hb).1, (hw _ (by omega)).trans (R.laid.tags b hb).2⟩
    · rw [List.mem_singleton.mp hb]
      exact htag
  · obtain ⟨h1, h2⟩ := R.threaded.listed k b hb
    exact ⟨List.mem_append_left _ h1, h2⟩
  · have hc : Chain ({ s with memBrk := a.brk + e }.log (.sbrk (toInt e) a.brk)) (A.lo + 4 * k)
        ((a.lists k).map Block.addr) := R.threaded.chains k hk
    refine hc.frame hT (fun p hp => ?_) (fun y hy p hp => ?_)
    · omega
    · obtain ⟨c, hcl, rfl⟩ := List.mem_map.mp hy
      have := R.laid.block (R.threaded.listed k c hcl).1
      omega
  · refine ⟨hp.1, ?_, hp.2.2⟩
    show s.memStartBrk ≤ p
    rw [R.laid.start]
    omega
  · intro ev hev
    rcases List.mem_cons.mp hev with rfl | hev
    · trivial
    · exact R.clean ev hev
  · have := R.laid.block hc
    refine hT.mem x (fun p hp => ?_)
    omega

/-- **`extend_heap` grows the pool** when the arena has room. -/
theorem extendHeap_grow (R : Rep A s a) (h : WF A.base a) (h32 : 32 ≤ e) (h8 : e % 8 = 0)
    (hle : a.brk + e ≤ A.limit) :
    Ends (extendHeap (e / WSIZE)) s (fun r t => r = (a.grow e).1.addr ∧ Rep A t (a.grow e).2 ∧
      Keeps a.blocks s t) := by
  have h0 := R.laid.arena
  have hlim : A.limit = A.lo + 20971520 := rfl
  have hsize := even_words h8 (by omega)
  have hb := R.laid.brk
  have hm := R.laid.maxAddr
  have hrun := memSbrk_ok (s := s) (n := e) (by omega) (by omega)
  rw [hb, ← toInt_eq (n := e) (by omega)] at hrun
  unfold extendHeap
  simp only [ends_bind, hsize]
  have hmo : a.brk ≠ minusOne := by
    show a.brk ≠ 4294967295
    omega
  rw [ends_of_run hrun, ends_ite_neg hmo]
  simp only [ends_bind]
  rw [ends_tag h8 (by omega) (by omega) (by omega) (by omega), ends_nextBlkp,
    Heap.nextBlkp_of_tag (tagged_header (by omega) (by omega) (by omega)) h8 (by omega)
      (by omega) (by omega), hdrp_eq (by omega) (by omega), ends_put]
  have e4 : subW a.brk WSIZE = a.brk - 4 := subW_eq (show 4 ≤ a.brk by omega) (by omega)
  have ep : pack 0 1 = 1 := rfl
  rw [e4, ep]
  have hT0 : Touches (fun p => p % 4 = 0 ∧ a.brk ≤ p + 4 ∧ p + 4 ≤ a.brk + e)
      ({ s with memBrk := a.brk + e }.log (.sbrk (toInt e) a.brk))
      (({ s with memBrk := a.brk + e }.log (.sbrk (toInt e) a.brk)).tagged a.brk e 0) :=
    (Touches.refl _ _).tagged (by omega) (by omega)
  have hT := (hT0.load (p := a.brk - 4) (by omega)).store (p := a.brk + e - 4) (v := 1) (by omega)
  have htag : Tagged (((({ s with memBrk := a.brk + e }.log (.sbrk (toInt e) a.brk)).tagged a.brk e 0).log
      (.load (a.brk - 4) (a.brk + e))).store (a.brk + e - 4) 1) ⟨a.brk, e, false⟩ := by
    refine ⟨?_, ?_⟩
    · show Heap.word _ (a.brk - 4) = e + 0
      rw [Heap.word_store_of_apart _ (by omega), Heap.log_word,
        tagged_header (by omega) (by omega) (by omega)]
    · show Heap.word _ (a.brk + e - 8) = e + 0
      rw [Heap.word_store_of_apart _ (by omega), Heap.log_word, tagged_footer (by omega)]
  obtain ⟨R1, K1⟩ := R.extend h32 h8 hle hT htag (Heap.word_store_self _ _ (by omega))
  refine (coalesce_spec (b := ⟨a.brk, e, false⟩) R1 (h.grow_loose h32 h8)).mono ?_
  rintro r t ⟨h1, h2, h3⟩
  refine ⟨h1, h2, K1.trans (h3.mono fun c hc _ => ?_)⟩
  simpa using hc

/-- `extend_heap` returns `NULL` when the limit test of `mem_sbrk` fails as it should -/
lemma extendHeap_null (h8 : e % 8 = 0) (h32 : e < 2 ^ 32)
    (h : 2 ^ 31 ≤ e ∨ s.memBrk + e < 2 ^ 32 ∧ s.memMaxAddr < s.memBrk + e)
    {Q : Nat → Heap → Prop} : Ends (extendHeap (e / WSIZE)) s Q ↔
      Q 0 ((s.log (.message "ERROR: mem_sbrk failed. Ran out of memory...\n")).log
        (.sbrk (toInt e) minusOne)) := by
  have hsize := even_words h8 (by omega)
  have hrun := memSbrk_fail (s := s) h32 h
  unfold extendHeap
  simp only [ends_bind, hsize]
  rw [ends_of_run hrun, ends_ite_pos rfl, ends_pure]

theorem extendHeap_fail (R : Rep A s a) (h8 : e % 8 = 0) (h32 : e < 2 ^ 32)
    (h : 2 ^ 31 ≤ e ∨ a.brk + e < 2 ^ 32 ∧ A.limit < a.brk + e) :
    Ends (extendHeap (e / WSIZE)) s (fun r t => r = 0 ∧ Rep A t a ∧ t.mem = s.mem) := by
  rw [extendHeap_null h8 h32 (by rw [R.laid.brk, R.laid.maxAddr]; exact h)]
  exact ⟨rfl, (R.logged (.message _) trivial).logged (.sbrk _ _) trivial, rfl⟩

end
/-! ## requests -/

section
variable {A : Arena} {s t : Heap} {a : Pool} {n : Nat} {b : Block}

lemma align_eq (hn : n + 39 < 2 ^ 32) : align (addW n OVERHEAD) = fitSize n := by
  unfold align
  rw [land_notW_seven (addW_lt _ _)]
  show addW (addW n 32) 7 / 8 * 8 = _
  rw [addW_eq (a := n) (by omega), addW_eq (by omega)]
  rfl

/-- the largest sizes wrap when they are rounded up -/
lemma align_wrapped (hn : n < 2 ^ 32) (ht : 2 ^ 32 ≤ n + 39) :
    align (addW n OVERHEAD) % 8 = 0 ∧ align (addW n OVERHEAD) ≤ 32 := by
  unfold align
  rw [land_notW_seven (addW_lt _ _)]
  show addW (addW n 32) 7 / 8 * 8 % 8 = 0 ∧ addW (addW n 32) 7 / 8 * 8 ≤ 32
  unfold addW
  omega

/-- **The three ends of a request** for a block of `sz` bytes: a free block is placed, or new space,
or `NULL` is returned. -/
theorem Rep.ends_request (R : Rep A s a) (h : WF A.base a) (h0 : n ≠ 0) {sz : Nat}
    (hsz : align (addW n OVERHEAD) = sz) (h8 : sz % 8 = 0)
    (hw : sz = 2 ^ 31 ∨ sz < 2 ^ 31 ∧ a.brk + sz < 2 ^ 32) {Q : Nat → Heap → Prop}
    (hit : ∀ b u, a.fit sz = some b → Rep A u a → u.mem = s.mem →
      Ends (place b.addr sz) u (fun _ v => Q (b.addr + 8) v))
    (grow : ∀ b u, a.fit sz = none → a.brk + max sz 4096 ≤ A.limit →
      (a.grow (max sz 4096)).1 = b → Rep A u (a.grow (max sz 4096)).2 → Keeps a.blocks s u →
      Ends (place b.addr sz) u (fun _ v => Q (b.addr + 8) v))
    (fail : ∀ u, a.fit sz = none → A.limit < a.brk + max sz 4096 → Rep A u a → u.mem = s.mem →
      Q 0 u) : Ends (mmMalloc n) s Q := by
  have h1 := R.laid.arena
  have habove := A.above
  have hlim : A.limit = A.lo + 20971520 := rfl
  have hmax : max sz CHUNKSIZE = max sz 4096 := rfl
  rw [mmMalloc_ends R.laid.listp_ne h0, hsz, hmax]
  refine (findFit_spec R (by omega) (by omega)).mono fun bp u hbp => ?_
  obtain ⟨e, R1, e1⟩ := hbp
  cases hf : a.fit sz with
  | some b =>
    rw [hf] at e
    obtain rfl : bp = b.addr := e
    have h2 := R.laid.block (fit_some h hf).1
    have hadd : addW b.addr DSIZE = b.addr + 8 := addW_eq (show b.addr + 8 < 2 ^ 32 by omega)
    rw [hadd]
    exact ⟨fun _ => hit b u hf R1 e1, fun hz => by omega⟩
  | none =>
    rw [hf] at e
    obtain rfl : bp = 0 := e
    refine ⟨fun hne => absurd rfl hne, fun _ => ?_⟩
    by_cases hroom : a.brk + max sz 4096 ≤ A.limit
    · refine (extendHeap_grow R1 h (by omega) (by omega) hroom).mono fun q v hq => ?_
      obtain ⟨rfl, R2, K2⟩ := hq
      have h2 := R2.laid.block (grow_block a (max sz 4096)).1
      have h3 := R2.laid.arena
      have hadd : addW (a.grow (max sz 4096)).1.addr DSIZE = (a.grow (max sz 4096)).1.addr + 8 :=
        addW_eq (show (a.grow (max sz 4096)).1.addr + 8 < 2 ^ 32 by omega)
      rw [hadd]
      exact ⟨fun hz => by omega, fun _ => grow _ v hf hroom rfl R2 ((Keeps.of_mem e1).trans K2)⟩
    · refine (extendHeap_fail R1 (by omega) (by omega) (by omega)).mono fun q v hq => ?_
      obtain ⟨rfl, R2, e2⟩ := hq
      exact ⟨fun _ => fail v hf (by omega) R2 (e2.trans e1), fun hne => absurd rfl hne⟩

lemma mmMalloc_zero (R : Rep A s a) :
    Ends (mmMalloc 0) s (fun r t => r = 0 ∧ Rep A t a ∧ Keeps a.blocks s t) := by
  unfold mmMalloc
  simp only [ends_bind]
  rw [ends_heapListp, ends_ite_neg R.laid.listp_ne, ends_pure, ends_ite_pos trivial, ends_pure]
  exact ⟨rfl, R, Keeps.refl _ _⟩

/-- a request that is not answered, and whose size does not wrap in the limit test -/
theorem mmMalloc_fail (R : Rep A s a) (h : WF A.base a) (h0 : n ≠ 0) (hn : n + 39 < 2 ^ 32)
    (hf : a.fit (fitSize n) = none) (hlt : A.limit < a.brk + max (fitSize n) 4096)
    (hw : fitSize n = 2 ^ 31 ∨ fitSize n < 2 ^ 31 ∧ a.brk + fitSize n < 2 ^ 32) :
    Ends (mmMalloc n) s (fun r t => r = 0 ∧ Rep A t a ∧ t.mem = s.mem) := by
  refine R.ends_request h h0 (align_eq hn) (fitSize_mod n) hw (fun b u hb => ?_)
    (fun b u _ hle => ?_) (fun u _ _ R1 e1 => ⟨rfl, R1, e1⟩)
  · rw [hf] at hb
    exact absurd hb (by simp)
  · omega

/-- the request fits the 32-bit arithmetic of the search and of the limit test -/
def Fits (brk n : Nat) : Prop :=
  n + 39 < 2 ^ 32 ∧ (fitSize n = 2 ^ 31 ∨ fitSize n < 2 ^ 31 ∧ brk + fitSize n < 2 ^ 32)

/-- **`mm_malloc` is `Pool.malloc`.** -/
theorem mmMalloc_spec (R : Rep A s a) (h : WF A.base a) (hn : Fits a.brk n) :
    Ends (mmMalloc n) s (fun r t => r = (a.malloc A.limit n).1 ∧
      Rep A t (a.malloc A.limit n).2 ∧ Keeps a.blocks s t) := by
  obtain ⟨h39, hw⟩ := hn
  by_cases h0 : n = 0
  · rw [h0, malloc_zero]
    exact mmMalloc_zero R
  have hs := le_fitSize n
  have h8 := fitSize_mod n
  refine R.ends_request h h0 (align_eq h39) h8 hw (fun b u hf R1 e1 => ?_)
    (fun b u hf hle hb R1 K1 => ?_) (fun u hf hlt R1 e1 => ?_)
  · rw [malloc_of_fit A.limit h0 hf]
    obtain ⟨h1, h2, h3⟩ := fit_some h hf
    refine (place_spec R1 h h1 h2 (by omega) h8 h3).mono fun _ t ht => ?_
    exact ⟨rfl, ht.1, (Keeps.of_mem e1).trans ht.2⟩
  · rw [malloc_of_room h0 hf hle, hb]
    obtain ⟨h1, h2⟩ := max_fit n
    obtain ⟨h3, h4, h5⟩ := grow_block a (max (fitSize n) 4096)
    rw [hb] at h3 h4 h5
    refine (place_spec R1 (grow_wf h h1 h2) h3 h4 (by omega) h8 (by omega)).mono fun _ t ht => ?_
    exact ⟨rfl, ht.1, K1.trans (ht.2.mono fun c hc hu => (mem_grow_alloc.mpr ⟨hc, hu⟩).1)⟩
  · rw [malloc_of_full h0 hf hlt]
    exact ⟨rfl, R1, Keeps.of_mem e1⟩

/-! ## giving back -/

/-- **`mm_free` is `Pool.free`** on a block in use. -/
theorem mmFree_spec (R : Rep A s a) (h : WF A.base a) (hb : b ∈ a.blocks) (hu : b.alloc = true) :
    Ends (mmFree (b.addr + 8)) s (fun _ t => Rep A t (a.free (b.addr + 8)) ∧
      Keeps (a.free (b.addr + 8)).blocks s t) := by
  have h0 := R.laid.arena
  have h1 := R.laid.block hb
  obtain ⟨pre, post, e, hf⟩ := h.free_eq hb hu
  have e' : a.blocks = pre ++ [b] ++ post := by simpa using e
  have e8 : subW (b.addr + 8) DSIZE = b.addr := R.laid.of_payload hb
  unfold mmFree
  simp only [ends_bind, ends_pure, e8]
  apply R.ends_getSize hb
  intro u R1 e1
  rw [ends_tag (by omega) (by omega) (by omega) (by omega) (by omega)]
  have hT : Touches (Within b.addr (b.addr + b.size)) u (u.tagged b.addr b.size 0) :=
    (Touches.refl _ u).tagged ⟨by omega, by omega, by omega⟩ ⟨by omega, by omega, by omega⟩
  have ht : Tiling b.addr [{ b with alloc := false }] (b.addr + b.size) :=
    tiled_single.mpr ⟨rfl, show 0 < b.size by omega, rfl⟩
  obtain ⟨R2, K2⟩ := R1.retile e' (by simp) (tiled_single.mpr ⟨rfl, by omega, rfl⟩) ht
    (fun c hc => by rw [List.mem_singleton.mp hc]; exact h.sized b hb)
    (fun k c hc hm => h.not_mem_lists hu k (List.mem_singleton.mp hm ▸ hc)) hT (fun p hp => hp)
    (fun c hc => by
      rw [List.mem_singleton.mp hc]
      exact ⟨tagged_header (by omega) (by omega) (by omega), tagged_footer (by omega)⟩)
  rw [List.append_assoc] at R2
  refine (coalesce_spec R2 (h.free_loose e hu)).mono ?_
  rintro r t ⟨-, R3, K3⟩
  rw [hf]
  refine ⟨R3, ((Keeps.of_mem e1).trans (K2.trans K3)).mono fun c hc hcu => ?_⟩
  rw [List.mem_append]
  exact (mem_join_alloc.mp ⟨hc, hcu⟩).1

/-! ## payloads -/

lemma Laid.tag_outside {bs : List Block} {brk : Nat} (L : Laid A s bs brk) (hb : b ∈ bs)
    {c : Block} (hc : c ∈ bs) : (c.addr ≤ b.addr ∨ b.addr + b.size ≤ c.addr) ∧
      (c.addr + c.size ≤ b.addr ∨ b.addr + b.size ≤ c.addr + c.size) := by
  have h1 := L.block hb
  have h2 := L.block hc
  by_cases e : b = c
  · subst e
    omega
  · have := L.apart hb hc e
    omega

/-- **Bytes written inside a payload** change nothing the allocator looks at. -/
theorem Rep.scribble (R : Rep A s a) (hb : b ∈ a.blocks) (hu : b.alloc = true)
    (hfix : Fixed s t) (hm : ∀ x, x < b.addr ∨ b.addr + b.size - 8 ≤ x → t.mem x = s.mem x)
    (hc : t.Clean) : Rep A t a := by
  have h0 := R.laid.arena
  have h1 := R.laid.block hb
  have hw : ∀ p, p + 4 ≤ b.addr ∨ b.addr + b.size - 8 ≤ p → t.word p = s.word p := by
    intro p hp
    exact Heap.word_congr fun x _ _ => hm x (by omega)
  refine ⟨⟨hfix.start.trans R.laid.start, hfix.brk.trans R.laid.brk,
    hfix.maxAddr.trans R.laid.maxAddr, hfix.listp.trans R.laid.listp, R.laid.tiled, R.laid.sized,
    R.laid.brk_le, ⟨?_, ?_⟩, ?_, fun c hcb => ?_⟩, ⟨R.threaded.listed, R.threaded.nodup,
    fun k hk => ?_⟩, hc⟩
  · rw [hw _ (by omega)]
    exact R.laid.prologue.1
  · rw [hw _ (by omega)]
    exact R.laid.prologue.2
  · rw [hw _ (by omega)]
    exact R.laid.epilogue
  · have h2 := R.laid.block hcb
    have h3 := R.laid.tag_outside hb hcb
    exact ⟨(hw _ (by omega)).trans (R.laid.tags c hcb).1,
      (hw _ (by omega)).trans (R.laid.tags c hcb).2⟩
  · have hl := R.threaded.chains k hk
    have hlink : ∀ y ∈ (a.lists k).map Block.addr, t.word y = s.word y ∧
        t.word (y + 4) = s.word (y + 4) := by
      intro y hy
      obtain ⟨c, hcl, rfl⟩ := List.mem_map.mp hy
      obtain ⟨h2, h3, -⟩ := R.threaded.listed k c hcl
      have hne : b ≠ c := by
        rintro rfl
        rw [hu] at h3
        exact absurd h3 (by simp)
      have h4 := R.laid.apart hb h2 hne
      have h5 := R.laid.block h2
      exact ⟨hw _ (by omega), hw _ (by omega)⟩
    unfold Chain
    rw [hw _ (by omega)]
    exact hl.congr (fun y hy => (hlink y hy).1) (fun y hy => (hlink y hy).2)

lemma free_null (R : Rep A s a) : a.free 0 = a := by
  have h0 := R.laid.arena
  unfold Pool.free
  rw [focus_eq_none (fun b hb => ?_)]
  have := R.laid.block hb
  omega

/-- **`mm_realloc` of a block in use, when memory is found**: `Pool.realloc`; the first bytes of
the new payload are the old ones. -/
theorem mmRealloc_spec (R : Rep A s a) (h : WF A.base a) (hb : b ∈ a.blocks) (hu : b.alloc = true)
    (h0 : n ≠ 0) (hn : Fits a.brk n) (hp : (a.malloc A.limit n).1 ≠ 0) :
    Ends (mmRealloc (b.addr + 8) n) s (fun r t => r = (a.realloc A.limit (b.addr + 8) n).1 ∧
      Rep A t (a.realloc A.limit (b.addr + 8) n).2 ∧ Keeps (a.free (b.addr + 8)).blocks s t ∧
      ∀ i, i < n → i + 16 < b.size → t.mem (r + i) = s.mem (b.addr + 8 + i)) := by
  have h1 := R.laid.arena
  have h2 := R.laid.block hb
  obtain ⟨c, hc, hT⟩ := malloc_spec h hp
  have hwf := malloc_wf h A.limit n
  have hsz := hT.size_ge
  have hle := le_fitSize n
  have hb1 := hT.keeps hb hu
  have hc1 := hT.mem
  have hne := hT.ne hb hu
  have e8 : subW (b.addr + 8) DSIZE = b.addr := R.laid.of_payload hb
  have er : a.realloc A.limit (b.addr + 8) n =
      ((a.malloc A.limit n).1, (a.malloc A.limit n).2.free (b.addr + 8)) := by
    unfold Pool.realloc
    rw [if_neg (by omega), if_neg h0]
  unfold mmRealloc
  rw [ends_ite_neg (by omega), ends_ite_neg h0, er]
  simp only [ends_bind, ends_pure, e8]
  refine (mmMalloc_spec R h hn).mono ?_
  rintro r u ⟨rfl, R1, K1⟩
  apply R1.ends_getSize hb1
  intro v R2 e2
  have hb2 := R2.laid.block hb1
  have hc2 := R2.laid.block hc1
  have hap := R2.laid.apart hc1 hb1 hne
  rw [ends_memcpy, hc]
  -- the copy is as long as the smaller of the request and the old block
  have hk : ∃ k, (if n < b.size then n else b.size) = k ∧ k ≤ n ∧ (∀ i, i < n → i + 16 < b.size →
      i < k) := by
    refine ⟨_, rfl, ?_, fun i h3 h4 => ?_⟩
    · split <;> omega
    · split <;> omega
  obtain ⟨k, ek, hkn, hkb⟩ := hk
  rw [ek]
  have hout : ∀ x, x < c.addr ∨ c.addr + c.size - 8 ≤ x →
      (v.copied (c.addr + 8) (b.addr + 8) k).mem x = v.mem x := fun x hx =>
    copyBytes_of_outside v.mem (by omega)
  have R3 : Rep A (v.copied (c.addr + 8) (b.addr + 8) k) (a.malloc A.limit n).2 := by
    refine R2.scribble hc1 hT.alloc ⟨rfl, rfl, rfl, rfl⟩ hout (fun ev hev => ?_)
    rcases List.mem_cons.mp hev with rfl | hev
    · trivial
    · exact R2.clean ev hev
  refine (mmFree_spec R3 hwf hb1 hu).mono ?_
  rintro - t ⟨R4, K4⟩
  refine ⟨rfl, R4, fun d hd hdu x hx1 hx2 => ?_, fun i hi hib => ?_⟩
  · obtain ⟨hdb, hda, -⟩ := (mem_free_alloc h hb hu).mp ⟨hd, hdu⟩
    have hd1 := hT.keeps hda hdu
    have hd2 := R2.laid.block hd1
    have hap2 := R2.laid.apart hc1 hd1 (hT.ne hda hdu)
    have hdf := mem_free hwf hb1 hu hd1 hdu hdb
    rw [K4 d hdf hdu x hx1 hx2, hout x (by omega), e2, K1 d hda hdu x hx1 hx2]
  · have hcf := mem_free hwf hb1 hu hc1 hT.alloc hne
    rw [K4 c hcf hT.alloc _ (by omega) (by omega)]
    show copyBytes v.mem (c.addr + 8) (b.addr + 8) k (c.addr + 8 + i) = _
    rw [copyBytes_inside _ _ _ (hkb i hi hib), e2, K1 b hb hu _ (by omega) (by omega)]

end
end SegList

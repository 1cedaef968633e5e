import SegList.Refine.Readout
import SegList.Safety.Lists
import SegList.Safety.Layout

/-!
# The consistency checker

`mm_check` walks the blocks for their tags, the buckets for blocks in use, and the blocks again for
free neighbours.  In the second part a missing pair of braces makes it return `0` at the first node
it meets, free or not.

* `checkTags_spec`, `checkBuckets_spec`, `checkCoalesced_spec`   what each part tests;
* `mmCheck_spec`         the value returned: no bucket may hold a node;
* `mmCheck_exact_iff`    when that agrees with the consistency of the heap.
-/

set_option linter.unusedSectionVars false

open Bytes Prog Walk

namespace SegList
open Pool

/-- the walks through the heap end: the blocks `bps` lead from the one after the prologue to the
epilogue at the break, and the `k`-th list runs through `nodes k` to `0` -/
structure Checkable (s : Heap) (bps : List Nat) (nodes : Nat → List Nat) : Prop where
  brk : s.memBrk < 2 ^ 32
  table : s.memStartBrk + 128 ≤ s.memBrk
  walk : walk s.nextBlkp (fun bp => bp = s.memBrk) addrSpace (s.nextBlkp s.heapListp) = some bps
  below : ∀ bp ∈ bps, bp < s.memBrk
  epilogue : s.getSize (hdrp s.memBrk) = 0 ∧ s.getAlloc (hdrp s.memBrk) = 1
  lists : ∀ k < 32, s.bucket k = some (nodes k)

/-- what `mm_check` is to test -/
structure Consistent (s : Heap) (bps : List Nat) (nodes : Nat → List Nat) : Prop where
  tags : ∀ bp ∈ bps, s.word (hdrp bp) = s.word (s.ftrp bp)
  free : ∀ k < 32, ∀ node ∈ nodes k, s.getAlloc (hdrp node) = 0
  coalesced : bps.IsChain (fun x y => ¬ (s.getAlloc (hdrp x) = 0 ∧ s.getAlloc (hdrp y) = 0))

def Heap.with (s : Heap) (tr : List Event) : Heap := { s with trace := tr }

/-- from `s` only the log changed -/
def Logged (s t : Heap) : Prop := ∃ tr, t = s.with tr

section
variable {s : Heap} {tr : List Event} {bps : List Nat} {nodes : Nat → List Nat}

lemma le_heapHi {bp : Nat} (h0 : 0 < s.memBrk) (h1 : s.memBrk < 2 ^ 32) :
    bp ≤ s.heapHi ↔ bp < s.memBrk := by
  have e : s.heapHi = s.memBrk - 1 := subW_eq h0 h1
  omega

/-! ## reading -/

section
variable {p : Nat} {Q : Nat → Heap → Prop}

lemma read_get (h : ∀ tr', Q (s.word p) (s.with tr')) : Ends (get p) (s.with tr) Q :=
  ends_get.mpr (h (.load p s.memBrk :: tr))

lemma read_getAlloc (h : ∀ tr', Q (s.getAlloc p) (s.with tr')) :
    Ends (getAlloc p) (s.with tr) Q := ends_getAlloc.mpr (h (.load p s.memBrk :: tr))

lemma read_ftrp (h : ∀ tr', Q (s.ftrp p) (s.with tr')) : Ends (ftrp p) (s.with tr) Q :=
  ends_ftrp.mpr (h (.load (hdrp p) s.memBrk :: tr))

lemma read_nextBlkp (h : ∀ tr', Q (s.nextBlkp p) (s.with tr')) :
    Ends (nextBlkp p) (s.with tr) Q := ends_nextBlkp.mpr (h (.load (subW p WSIZE) s.memBrk :: tr))

lemma read_memHeapHi (h : Q s.heapHi (s.with tr)) : Ends memHeapHi (s.with tr) Q :=
  ends_memHeapHi.mpr h

lemma read_memHeapLo (h : Q s.memStartBrk (s.with tr)) : Ends memHeapLo (s.with tr) Q :=
  ends_memHeapLo.mpr h

lemma read_heapListp (h : Q s.heapListp (s.with tr)) : Ends heapListp (s.with tr) Q :=
  ends_heapListp.mpr h

lemma read_message {text : String} {Q : Unit → Heap → Prop} (h : ∀ tr', Q () (s.with tr')) :
    Ends (message text) (s.with tr) Q := ends_message.mpr (h (.message text :: tr))

end

/-! ## the three parts -/

lemma checkTags_spec (h0 : 0 < s.memBrk) (h1 : s.memBrk < 2 ^ 32) {fuel bp : Nat}
    (hp : Path s.nextBlkp (fun bp => bp = s.memBrk) bp bps) (hb : ∀ x ∈ bps, x < s.memBrk)
    (hf : bps.length < fuel) : Ends (checkTags fuel bp) (s.with tr) (fun r t =>
      (r = true ↔ ∀ x ∈ bps, s.word (hdrp x) = s.word (s.ftrp x)) ∧ Logged s t) := by
  induction bps generalizing bp fuel tr with
  | nil =>
    have he : bp = s.memBrk := of_decide_eq_true hp
    have hn : ¬ bp ≤ s.heapHi := by
      rw [le_heapHi h0 h1, he]
      exact Nat.lt_irrefl _
    cases fuel with
    | zero => exact absurd hf (by simp)
    | succ fuel =>
      rw [checkTags, ends_bind]
      apply read_memHeapHi
      rw [ends_ite_neg hn, ends_pure]
      exact ⟨by simp, tr, rfl⟩
  | cons x xs ih =>
    obtain ⟨rfl, -, hp'⟩ := hp
    have hle : bp ≤ s.heapHi := (le_heapHi h0 h1).mpr (hb bp List.mem_cons_self)
    cases fuel with
    | zero => exact absurd hf (by simp)
    | succ fuel =>
      rw [checkTags, ends_bind]
      apply read_memHeapHi
      rw [ends_ite_pos hle]
      simp only [ends_bind]
      apply read_get
      intro tr1
      apply read_ftrp
      intro tr2
      apply read_get
      intro tr3
      by_cases he : s.word (hdrp bp) = s.word (s.ftrp bp)
      · rw [ends_ite_neg (not_not.mpr he), ends_bind]
        apply read_nextBlkp
        intro tr4
        rw [List.length_cons] at hf
        refine (ih hp' (fun y hy => hb y (List.mem_cons_of_mem _ hy))
          (Nat.lt_of_succ_lt_succ hf)).mono ?_
        rintro r t ⟨h2, h3⟩
        refine ⟨h2.trans ?_, h3⟩
        rw [List.forall_mem_cons]
        exact (and_iff_right he).symm
      · rw [ends_ite_pos he, ends_bind]
        apply read_message
        intro tr4
        rw [ends_pure]
        exact ⟨⟨fun h => absurd h (by simp), fun h => absurd (h bp List.mem_cons_self) he⟩, _, rfl⟩

/-- the inner loop of part 2 ends in its first round, whatever the alloc bit of the node is -/
lemma checkNodes_spec (node : Nat) : Ends (checkNodes node) (s.with tr) (fun r t =>
    r = decide (node = 0) ∧ Logged s t) := by
  rw [checkNodes]
  by_cases h0 : node = 0
  · rw [ends_ite_neg (not_not.mpr h0), ends_pure]
    exact ⟨(decide_eq_true h0).symm, tr, rfl⟩
  · rw [ends_ite_pos h0]
    simp only [ends_bind]
    apply read_getAlloc
    intro tr1
    have hr : false = decide (node = 0) := (decide_eq_false h0).symm
    rw [ends_ite]
    refine ⟨fun _ => ?_, fun _ => ?_⟩
    · apply read_message
      intro tr2
      rw [ends_pure]
      exact ⟨hr, tr2, rfl⟩
    · rw [ends_pure, ends_pure]
      exact ⟨hr, tr1, rfl⟩

/-- part 2: the buckets from `k` on.  A bucket with a node ends it. -/
lemma checkBuckets_spec (h1 : s.memStartBrk + 128 < 2 ^ 32) {m k fuel : Nat} (hk : k + m = 32)
    (hf : m < fuel) : Ends (checkBuckets fuel (s.memStartBrk + 4 * k)) (s.with tr) (fun r t =>
      (r = true ↔ ∀ j, k ≤ j → j < 32 → s.word (s.memStartBrk + 4 * j) = 0) ∧ Logged s t) := by
  have hend : addW s.memStartBrk (WSIZE * BUCKETS_COUNT) = s.memStartBrk + 128 := addW_eq h1
  induction m generalizing k fuel tr with
  | zero =>
    cases fuel with
    | zero => exact absurd hf (by simp)
    | succ fuel =>
      rw [checkBuckets, ends_bind]
      apply read_memHeapLo
      rw [hend, ends_ite_neg (by omega), ends_pure]
      exact ⟨⟨fun _ j h2 h3 => by omega, fun _ => rfl⟩, tr, rfl⟩
  | succ m ih =>
    cases fuel with
    | zero => exact absurd hf (by simp)
    | succ fuel =>
      have e4 : addW (s.memStartBrk + 4 * k) WSIZE = s.memStartBrk + 4 * (k + 1) := by
        show addW (s.memStartBrk + 4 * k) 4 = _
        rw [addW_eq (by omega)]
        omega
      rw [checkBuckets, ends_bind]
      apply read_memHeapLo
      rw [hend, ends_ite_pos (by omega), ends_bind]
      apply read_get
      intro tr1
      rw [ends_bind]
      refine (checkNodes_spec _).mono ?_
      rintro r t ⟨rfl, tr2, rfl⟩
      by_cases hz : s.word (s.memStartBrk + 4 * k) = 0
      · rw [ends_ite_pos (decide_eq_true hz), e4]
        refine (ih (by omega) (by omega)).mono ?_
        rintro r t ⟨h2, h3⟩
        refine ⟨h2.trans ⟨fun h j hj1 hj2 => ?_, fun h j hj1 hj2 => h j (by omega) hj2⟩, h3⟩
        rcases Nat.eq_or_lt_of_le hj1 with rfl | hj1
        · exact hz
        · exact h j hj1 hj2
      · rw [ends_ite_neg (by simpa using hz), ends_pure]
        exact ⟨⟨fun h => absurd h (by simp), fun h => absurd (h k (Nat.le_refl k) (by omega)) hz⟩,
          tr2, rfl⟩

lemma checkCoalesced_spec (h0 : 0 < s.memBrk) (h1 : s.memBrk < 2 ^ 32) {fuel bp : Nat}
    (hp : Path s.nextBlkp (fun bp => bp = s.memBrk) bp bps) (hb : ∀ x ∈ bps, x < s.memBrk)
    (hf : bps.length < fuel) : Ends (checkCoalesced fuel bp) (s.with tr) (fun r t =>
      (r = true ↔ ∀ x ∈ bps, ¬ (s.getAlloc (hdrp x) = 0 ∧ s.getAlloc (hdrp (s.nextBlkp x)) = 0)) ∧
        Logged s t) := by
  induction bps generalizing bp fuel tr with
  | nil =>
    have he : bp = s.memBrk := of_decide_eq_true hp
    have hn : ¬ bp ≤ s.heapHi := by
      rw [le_heapHi h0 h1, he]
      exact Nat.lt_irrefl _
    cases fuel with
    | zero => exact absurd hf (by simp)
    | succ fuel =>
      rw [checkCoalesced, ends_bind]
      apply read_memHeapHi
      rw [ends_ite_neg hn, ends_pure]
      exact ⟨by simp, tr, rfl⟩
  | cons x xs ih =>
    obtain ⟨rfl, -, hp'⟩ := hp
    have hle : bp ≤ s.heapHi := (le_heapHi h0 h1).mpr (hb bp List.mem_cons_self)
    cases fuel with
    | zero => exact absurd hf (by simp)
    | succ fuel =>
      -- what follows when these two neighbours are in order, and when they are not
      have hgood : ¬ (s.getAlloc (hdrp bp) = 0 ∧ s.getAlloc (hdrp (s.nextBlkp bp)) = 0) → ∀ tr',
          Ends (nextBlkp bp >>= checkCoalesced fuel) (s.with tr') (fun r t =>
            (r = true ↔ ∀ x ∈ bp :: xs, ¬ (s.getAlloc (hdrp x) = 0 ∧
              s.getAlloc (hdrp (s.nextBlkp x)) = 0)) ∧ Logged s t) := by
        intro hg tr'
        rw [ends_bind]
        apply read_nextBlkp
        intro tr1
        rw [List.length_cons] at hf
        refine (ih hp' (fun y hy => hb y (List.mem_cons_of_mem _ hy))
          (Nat.lt_of_succ_lt_succ hf)).mono ?_
        rintro r t ⟨h2, h3⟩
        refine ⟨h2.trans ?_, h3⟩
        rw [List.forall_mem_cons]
        exact (and_iff_right hg).symm
      rw [checkCoalesced, ends_bind]
      apply read_memHeapHi
      rw [ends_ite_pos hle]
      simp only [ends_bind]
      apply read_getAlloc
      intro tr1
      by_cases hf0 : s.getAlloc (hdrp bp) = 0
      · rw [ends_ite_pos hf0]
        simp only [ends_bind]
        apply read_nextBlkp
        intro tr2
        apply read_getAlloc
        intro tr3
        rw [ends_pure]
        by_cases hn0 : s.getAlloc (hdrp (s.nextBlkp bp)) = 0
        · rw [ends_ite_pos (by simpa using hn0), ends_bind]
          apply read_message
          intro tr4
          rw [ends_pure]
          exact ⟨⟨fun h => absurd h (by simp), fun h => absurd ⟨hf0, hn0⟩ (h bp List.mem_cons_self)⟩,
            _, rfl⟩
        · rw [ends_ite_neg (by simpa using hn0)]
          exact hgood (fun h => hn0 h.2) tr3
      · rw [ends_ite_neg hf0, ends_pure, ends_ite_neg (by simp)]
        exact hgood (fun h => hf0 h.1) tr1

/-! ## the whole -/

lemma isChain_iff_path {next : Nat → Nat} {brk a : Nat} {l : List Nat} {P : Nat → Prop}
    (h : Path next (fun x => x = brk) a l) (hb : ¬ P brk) :
    (∀ x ∈ l, ¬ (P x ∧ P (next x))) ↔ l.IsChain (fun x y => ¬ (P x ∧ P y)) := by
  induction l generalizing a with
  | nil => exact ⟨fun _ => List.isChain_nil, fun _ x hx => absurd hx (List.not_mem_nil)⟩
  | cons x xs ih =>
    obtain ⟨-, -, h3⟩ := h
    rw [List.forall_mem_cons, ih h3, List.isChain_cons]
    refine and_congr_left fun _ => ?_
    cases xs with
    | nil =>
      have e : next x = brk := of_decide_eq_true h3
      rw [e]
      exact ⟨fun _ y hy => absurd hy (by simp), fun _ hP => hb hP.2⟩
    | cons y ys =>
      rw [h3.1]
      exact ⟨fun hP z hz => Option.some.inj hz ▸ hP, fun hP => hP y rfl⟩

lemma nodes_eq_nil {k : Nat} {l : List Nat} (h : s.bucket k = some l) :
    s.word (s.memStartBrk + 4 * k) = 0 ↔ l = [] := by
  obtain ⟨hp, -⟩ := walk_eq_some.mp h
  cases l with
  | nil => exact ⟨fun _ => rfl, fun _ => of_decide_eq_true hp⟩
  | cons x xs =>
    refine ⟨fun h0 => ?_, fun h => absurd h (by simp)⟩
    have h1 : ¬ x = 0 := of_decide_eq_false hp.2.1
    rw [hp.1] at h0
    exact absurd h0 h1

/-- **The value of `mm_check`**: `1` when the tags agree, no bucket holds any node, and no two
neighbours are free. -/
theorem mmCheck_spec (h : Checkable s bps nodes) : Ends mmCheck s (fun r _ =>
    r = 1 ↔ (∀ x ∈ bps, s.word (hdrp x) = s.word (s.ftrp x)) ∧ (∀ k < 32, nodes k = []) ∧
      bps.IsChain (fun x y => ¬ (s.getAlloc (hdrp x) = 0 ∧ s.getAlloc (hdrp y) = 0))) := by
  have h0 : 0 < s.memBrk := by
    have := h.table
    omega
  have h128 : s.memStartBrk + 128 < 2 ^ 32 := h.table.trans_lt h.brk
  obtain ⟨hp, hl⟩ := walk_eq_some.mp h.walk
  have hep : ¬ s.getAlloc (hdrp s.memBrk) = 0 := by
    rw [h.epilogue.2]
    decide
  have hchain := isChain_iff_path (P := fun x => s.getAlloc (hdrp x) = 0) hp hep
  have hnodes : (∀ j, 0 ≤ j → j < 32 → s.word (s.memStartBrk + 4 * j) = 0) ↔
      ∀ k < 32, nodes k = [] :=
    ⟨fun hw k hk => (nodes_eq_nil (h.lists k hk)).mp (hw k (Nat.zero_le k) hk),
      fun hn k _ hk => (nodes_eq_nil (h.lists k hk)).mpr (hn k hk)⟩
  show Ends mmCheck (s.with s.trace) _
  unfold mmCheck
  simp only [ends_bind]
  apply read_heapListp
  apply read_nextBlkp
  intro tr1
  refine (checkTags_spec h0 h.brk hp h.below hl).mono ?_
  rintro r1 t ⟨i1, tr2, rfl⟩
  by_cases b1 : r1 = true
  · rw [ends_ite_pos b1]
    simp only [ends_bind]
    apply read_memHeapLo
    refine (checkBuckets_spec (k := 0) h128 rfl (show 32 < 2 ^ 32 by decide)).mono ?_
    rintro r2 t ⟨i2, tr3, rfl⟩
    by_cases b2 : r2 = true
    · rw [ends_ite_pos b2]
      simp only [ends_bind]
      apply read_heapListp
      apply read_nextBlkp
      intro tr4
      refine (checkCoalesced_spec h0 h.brk hp h.below hl).mono ?_
      rintro r3 t ⟨i3, tr5, rfl⟩
      by_cases b3 : r3 = true
      · rw [ends_ite_pos b3, ends_pure]
        exact ⟨fun _ => ⟨i1.mp b1, hnodes.mp (i2.mp b2), hchain.mp (i3.mp b3)⟩, fun _ => rfl⟩
      · rw [ends_ite_neg b3, ends_pure]
        exact ⟨fun h => absurd h (by decide), fun hc => absurd (i3.mpr (hchain.mpr hc.2.2)) b3⟩
    · rw [ends_ite_neg b2, ends_pure]
      exact ⟨fun h => absurd h (by decide), fun hc => absurd (i2.mpr (hnodes.mpr hc.2.1)) b2⟩
  · rw [ends_ite_neg b1, ends_pure]
    exact ⟨fun h => absurd h (by decide), fun hc => absurd (i1.mpr hc.1) b1⟩

end

section
variable {A : Arena} {c : Client} {a : SoundPool A.base A.limit}

lemma Tracks.checkable (h : Tracks A c a) :
    Checkable c.heap (a.blocks.map Block.addr) (fun k => (a.lists k).map Block.addr) ∧
      Consistent c.heap (a.blocks.map Block.addr) (fun k => (a.lists k).map Block.addr) := by
  have R := h.rep
  have h0 := R.laid.arena
  have hE : hdrp a.brk = a.brk - 4 := hdrp_eq (by omega) (by omega)
  have hX := R.exactLists a.wf
  refine ⟨⟨?_, ?_, ?_, fun bp hbp => ?_, ?_, fun k hk => R.bucket_eq hk⟩,
    fun bp hbp => (R.boundaryTags.footers bp hbp).symm, fun k hk node hn => (hX.only k hk node hn).2, ?_⟩
  · rw [R.laid.brk]
    omega
  · rw [R.laid.brk, R.laid.start]
    omega
  · have hw := R.blocks_eq
    unfold Heap.blocks at hw
    rw [R.laid.listp, R.laid.nextBlkp_prologue]
    rwa [R.laid.start] at hw
  · obtain ⟨b, hb, rfl⟩ := List.mem_map.mp hbp
    have := R.laid.block hb
    rw [R.laid.brk]
    omega
  · rw [R.laid.brk, hE, ← R.laid.brk]
    exact R.boundaryTags.epilogue
  · exact R.isChain_blocks a.wf

end

/-- **When `mm_check` is right.**  On every heap whose walks end, its value agrees with the
consistency of the heap exactly when all buckets are empty or the heap is not consistent; in an
ordinary run, where every heap is consistent, it is `1` exactly when all buckets are empty. -/
theorem mmCheck_exact_iff (s : Heap) :
    (∀ bps nodes, Checkable s bps nodes → Ends mmCheck s (fun r _ =>
      (r = 1 ↔ Consistent s bps nodes) ↔ (∀ k < 32, nodes k = []) ∨ ¬ Consistent s bps nodes)) ∧
    (∀ lo live, Ordinary lo ⟨s, live⟩ → ∃ bps nodes, Checkable s bps nodes ∧
      Consistent s bps nodes ∧ Ends mmCheck s (fun r _ => r = 1 ↔ ∀ k < 32, nodes k = [])) := by
  constructor
  · intro bps nodes h
    refine (mmCheck_spec h).mono fun r _ hr => ?_
    have hnil : (∀ k < 32, nodes k = []) → ∀ k < 32, ∀ node ∈ nodes k, s.getAlloc (hdrp node) = 0 := by
      intro hn k hk node hnode
      rw [hn k hk] at hnode
      exact absurd hnode (List.not_mem_nil)
    by_cases hn : ∀ k < 32, nodes k = []
    · refine ⟨fun _ => Or.inl hn, fun _ => hr.trans ?_⟩
      exact ⟨fun hc => ⟨hc.1, hnil hn, hc.2.2⟩, fun hc => ⟨hc.tags, hn, hc.coalesced⟩⟩
    · have h1 : ¬ r = 1 := fun e => hn (hr.mp e).2.1
      exact ⟨fun hi => Or.inr fun hc => h1 (hi.mpr hc),
        fun ho => ⟨fun e => absurd e h1, fun hc => absurd hc (ho.resolve_left hn)⟩⟩
  · intro lo live h
    obtain ⟨A, -, a, hT⟩ := h.tracks
    obtain ⟨hC, hK⟩ := hT.checkable
    refine ⟨_, _, hC, hK, (mmCheck_spec hC).mono fun r _ hr => hr.trans ?_⟩
    exact ⟨fun hc => hc.2.1, fun hn => ⟨hK.tags, hn, hK.coalesced⟩⟩

/-- on the sample heap `mm_check` is `1` exactly when its buckets are empty -/
theorem mmCheck_exact_iff_sample : ∃ bps nodes, Checkable Sample.client.heap bps nodes ∧
    Consistent Sample.client.heap bps nodes ∧
    Ends mmCheck Sample.client.heap (fun r _ => r = 1 ↔ ∀ k < 32, nodes k = []) :=
  (mmCheck_exact_iff Sample.client.heap).2 8 Sample.client.live Sample.client_ordinary

/-- right after `mm_init` the heap is consistent, and `mm_check` returns `0` -/
theorem mmCheck_rejects_first : Ordinary 8 Sample.idle ∧ ∃ bps nodes,
    Checkable Sample.idle.heap bps nodes ∧ Consistent Sample.idle.heap bps nodes ∧
      Ends mmCheck Sample.idle.heap (fun r _ => r ≠ 1) := by
  refine ⟨Sample.idle_ordinary, ?_⟩
  obtain ⟨A, -, a, hT⟩ := Sample.idle_ordinary.tracks
  obtain ⟨hC, hK⟩ := hT.checkable
  refine ⟨_, _, hC, hK, (mmCheck_spec hC).mono fun r _ hr e => ?_⟩
  -- the heap is one free block, in some bucket
  have hone := hT.oneBlock rfl
  obtain ⟨j, hj, -, hl⟩ := hone.lists
  have h1 := hl j hj
  rw [if_pos rfl, hC.lists j hj, (hr.mp e).2.1 j hj] at h1
  exact absurd h1 (by simp)

end SegList

import SegList.Lib.Walk
import SegList.Refine.Search

/-!
# A search that starts at address 0

`find_bucket` has no bucket for a size above `2^31` and returns `0`, so `find_fit` takes the words at
`0`, `4`, `8`, ... for buckets, up to the end of the bucket table.

* `ends_findFitNodes`, `leadsTo_of_run`   one list ends where the words in memory lead to;
* `findFit_leads`, `findFit_strays`       what the whole search returns, as a property of the words;
* `findFit_barren`                        when no list leads anywhere, it returns `0`.
-/

set_option linter.unusedSectionVars false

open Bytes Prog Walk

namespace SegList

/-- a search for `sz` bytes stops at the node: it is `0`, or the size in its header is enough -/
def Heap.stops (s : Heap) (sz node : Nat) : Bool := node = 0 ∨ sz ≤ s.getSize (hdrp node)

/-- the nodes from the word at `q` on, each in the word at the one before, lead to `node`, the first
where the search stops -/
def Heap.LeadsTo (s : Heap) (sz q node : Nat) : Prop :=
  ∃ l, Path s.word (s.stops sz) (s.word q) l ∧ Path.final s.word (s.word q) l = node

/-- the words below the end of the bucket table, from the one at `0` on, taken for buckets: `node` is
the first node that is large enough -/
def Strays (s : Heap) (sz node : Nat) : Prop :=
  node ≠ 0 ∧ ∃ j, 4 * j < s.memStartBrk + WSIZE * BUCKETS_COUNT ∧
    (∀ i < j, s.LeadsTo sz (4 * i) 0) ∧ s.LeadsTo sz (4 * j) node

/-- each of these words leads to the end of a list -/
def Heap.Barren (s : Heap) (sz : Nat) : Prop :=
  ∀ j, 4 * j < s.memStartBrk + WSIZE * BUCKETS_COUNT → s.LeadsTo sz (4 * j) 0

section
variable {s t : Heap} {sz node q i fuel r : Nat} {l : List Nat} {o : Option Nat}

lemma stops_of_mem (h : t.mem = s.mem) : t.stops sz = s.stops sz := by
  funext node
  unfold Heap.stops Heap.getSize
  rw [word_of_mem h]

lemma leadsTo_of_mem (h : t.mem = s.mem) : t.LeadsTo sz q node ↔ s.LeadsTo sz q node := by
  unfold Heap.LeadsTo
  rw [stops_of_mem h, word_of_mem h]

lemma Heap.LeadsTo.lt (h : s.LeadsTo sz q node) : node < 2 ^ 32 := by
  obtain ⟨l, hp, rfl⟩ := h
  exact hp.lt_of_bounded (s.word_lt q) s.word_lt _ List.mem_cons_self

lemma Strays.lt (h : Strays s sz node) : node < 2 ^ 32 := by
  obtain ⟨-, j, -, -, hlast⟩ := h
  exact hlast.lt

/-! ## one list -/

/-- where the words lead to, as the inner loop of `find_fit` returns it -/
def found (node : Nat) : Option Nat := if node = 0 then none else some node

lemma ends_findFitNodes (hsz : sz % 4 = 0) (hlt : sz < 2 ^ 32)
    (hp : Path s.word (s.stops sz) node l) (hf : l.length < fuel) :
    Ends (findFitNodes (sz / WSIZE) fuel node) s (fun o t =>
      o = found (Path.final s.word node l) ∧ t.mem = s.mem ∧ t.memStartBrk = s.memStartBrk) := by
  have hw := mulW_words hsz hlt
  induction l generalizing s node fuel with
  | nil =>
    cases fuel with
    | zero => exact absurd hf (by simp)
    | succ fuel =>
      have hs : node = 0 ∨ sz ≤ s.getSize (hdrp node) := of_decide_eq_true hp
      rw [findFitNodes]
      by_cases h0 : node = 0
      · rw [ends_ite_neg (not_not.mpr h0), ends_pure]
        exact ⟨(if_pos h0).symm, rfl, rfl⟩
      · rw [ends_ite_pos h0, ends_bind, ends_getSize, hw, ends_ite_pos (hs.resolve_left h0),
          ends_pure]
        exact ⟨(if_neg h0).symm, rfl, rfl⟩
  | cons x l ih =>
    obtain ⟨rfl, hs, hp⟩ := hp
    cases fuel with
    | zero => exact absurd hf (by simp)
    | succ fuel =>
      have hs : ¬ (node = 0 ∨ sz ≤ s.getSize (hdrp node)) := of_decide_eq_false hs
      rw [not_or] at hs
      rw [findFitNodes, ends_ite_pos hs.1, ends_bind, ends_getSize, hw, ends_ite_neg hs.2,
        ends_bind, ends_get]
      rw [List.length_cons] at hf
      exact ih (s := (s.log _).log _) hp (by omega)

/-- the inner loop returns only if the words lead somewhere -/
lemma path_of_run (hsz : sz % 4 = 0) (hlt : sz < 2 ^ 32)
    (h : findFitNodes (sz / WSIZE) fuel node s = some (o, t)) :
    ∃ l, Path s.word (s.stops sz) node l ∧ l.length < fuel := by
  have hw := mulW_words hsz hlt
  induction fuel generalizing s node with
  | zero => exact absurd h (by simp [findFitNodes, diverge])
  | succ fuel ih =>
    by_cases hs : node = 0 ∨ sz ≤ s.getSize (hdrp node)
    · exact ⟨[], decide_eq_true hs, Nat.succ_pos _⟩
    · obtain ⟨h0, hlarge⟩ := not_or.mp hs
      have hlarge : ¬ sz ≤ s.word (hdrp node) &&& notW 0x7 := hlarge
      rw [findFitNodes, if_pos h0] at h
      obtain ⟨size, u, h1, h⟩ := bind_eq_some.mp h
      obtain ⟨rfl, rfl⟩ := Prod.mk.inj (Option.some.inj h1)
      rw [hw, if_neg hlarge] at h
      obtain ⟨next, v, h2, h⟩ := bind_eq_some.mp h
      obtain ⟨rfl, rfl⟩ := Prod.mk.inj (Option.some.inj h2)
      obtain ⟨l, hp, hl⟩ := ih h
      refine ⟨node :: l, ⟨rfl, decide_eq_false hs, hp⟩, ?_⟩
      rw [List.length_cons]
      omega

lemma findFitNodes_leads (hsz : sz % 4 = 0) (hlt : sz < 2 ^ 32) (h : s.LeadsTo sz q node) :
    Ends (findFitNodes (sz / WSIZE) addrSpace (s.word q)) s (fun o t =>
      o = found node ∧ t.mem = s.mem ∧ t.memStartBrk = s.memStartBrk) := by
  obtain ⟨l, hp, rfl⟩ := h
  have hl := (walk_eq_some.mp (walk_of_bounded hp (s.word_lt q) s.word_lt)).2
  exact ends_findFitNodes hsz hlt hp hl

lemma leadsTo_of_run (hsz : sz % 4 = 0) (hlt : sz < 2 ^ 32)
    (h : findFitNodes (sz / WSIZE) addrSpace (s.word q) s = some (o, t)) :
    ∃ node, s.LeadsTo sz q node ∧ o = found node ∧ t.mem = s.mem ∧
      t.memStartBrk = s.memStartBrk := by
  obtain ⟨l, hp, -⟩ := path_of_run hsz hlt h
  have hlead : s.LeadsTo sz q (Path.final s.word (s.word q) l) := ⟨l, hp, rfl⟩
  exact ⟨_, hlead, (findFitNodes_leads hsz hlt hlead).of_run h⟩

/-! ## all lists -/

lemma ends_findFitBuckets (hsz : sz % 4 = 0) (hlt : sz < 2 ^ 32)
    (hlo : s.memStartBrk + 128 + 4 ≤ 2 ^ 32) {m : Nat} (hm : m < fuel)
    (hj : 4 * (i + m) < s.memStartBrk + 128) (h0 : ∀ k < m, s.LeadsTo sz (4 * (i + k)) 0)
    (hnode : node ≠ 0) (hlast : s.LeadsTo sz (4 * (i + m)) node) :
    Ends (findFitBuckets (sz / WSIZE) fuel (4 * i)) s (fun r t => r = node ∧ t.mem = s.mem) := by
  have hend : addW s.memStartBrk (WSIZE * BUCKETS_COUNT) = s.memStartBrk + 128 :=
    addW_eq (show s.memStartBrk + 128 < 2 ^ 32 by omega)
  induction m generalizing s i fuel with
  | zero =>
    cases fuel with
    | zero => exact absurd hm (by simp)
    | succ fuel =>
      rw [findFitBuckets, ends_bind, ends_memHeapLo, hend, ends_ite_pos (by omega), ends_bind,
        ends_get, ends_bind]
      refine (findFitNodes_leads (s := s.log _) hsz hlt hlast).mono ?_
      rintro o t ⟨rfl, hmem, -⟩
      rw [found, if_neg hnode]
      exact (ends_pure _ _ _).mpr ⟨rfl, hmem⟩
  | succ m ih =>
    cases fuel with
    | zero => exact absurd hm (by simp)
    | succ fuel =>
      rw [findFitBuckets, ends_bind, ends_memHeapLo, hend, ends_ite_pos (by omega), ends_bind,
        ends_get, ends_bind]
      refine (findFitNodes_leads (s := s.log _) hsz hlt (h0 0 (by omega))).mono ?_
      rintro o t ⟨rfl, hmem, hst⟩
      have hmem' : t.mem = s.mem := hmem
      have hst' : t.memStartBrk = s.memStartBrk := hst
      have e4 : addW (4 * i) WSIZE = 4 * (i + 1) := by
        show addW (4 * i) 4 = _
        rw [addW_eq (by omega)]
        omega
      show Ends (findFitBuckets (sz / WSIZE) fuel (addW (4 * i) WSIZE)) t _
      rw [e4]
      refine (ih (by omega) (by omega) (by omega) (fun k hk => ?_) ?_ (by rw [hst', hend])).mono
        fun r u hu => ⟨hu.1, hu.2.trans hmem'⟩
      · rw [leadsTo_of_mem hmem', Nat.add_right_comm]
        exact h0 (k + 1) (by omega)
      · rw [leadsTo_of_mem hmem', Nat.add_right_comm]
        exact hlast

lemma strays_of_run (hsz : sz % 4 = 0) (hlt : sz < 2 ^ 32) (hlo : s.memStartBrk + 128 + 4 ≤ 2 ^ 32)
    (h0 : ∀ k < i, s.LeadsTo sz (4 * k) 0)
    (h : findFitBuckets (sz / WSIZE) fuel (4 * i) s = some (r, t)) (hr : r ≠ 0) : Strays s sz r := by
  have hend : addW s.memStartBrk (WSIZE * BUCKETS_COUNT) = s.memStartBrk + 128 :=
    addW_eq (show s.memStartBrk + 128 < 2 ^ 32 by omega)
  induction fuel generalizing s i with
  | zero => exact absurd h (by simp [findFitBuckets, diverge])
  | succ fuel ih =>
    rw [findFitBuckets] at h
    obtain ⟨lo, u, h1, h⟩ := bind_eq_some.mp h
    obtain ⟨rfl, rfl⟩ := Prod.mk.inj (Option.some.inj h1)
    rw [hend] at h
    by_cases hi : 4 * i < s.memStartBrk + 128
    · rw [if_pos hi] at h
      obtain ⟨q, v, h2, h⟩ := bind_eq_some.mp h
      obtain ⟨rfl, rfl⟩ := Prod.mk.inj (Option.some.inj h2)
      obtain ⟨o, w, h3, h⟩ := bind_eq_some.mp h
      obtain ⟨node, hlead, rfl, hmem, hst⟩ := leadsTo_of_run (s := s.log _) hsz hlt h3
      have hlead : s.LeadsTo sz (4 * i) node := hlead
      have hmem : w.mem = s.mem := hmem
      have hst : w.memStartBrk = s.memStartBrk := hst
      by_cases hnode : node = 0
      · have e4 : addW (4 * i) WSIZE = 4 * (i + 1) := by
          show addW (4 * i) 4 = _
          rw [addW_eq (by omega)]
          omega
        have hrest : findFitBuckets (sz / WSIZE) fuel (4 * (i + 1)) w = some (r, t) := by
          rw [found, if_pos hnode] at h
          rw [← e4]
          exact h
        have hnext : ∀ k < i + 1, w.LeadsTo sz (4 * k) 0 := by
          intro k hk
          rw [leadsTo_of_mem hmem]
          rcases Nat.lt_succ_iff_lt_or_eq.mp hk with hk | rfl
          · exact h0 k hk
          · exact hnode ▸ hlead
        obtain ⟨-, j, hj, hj0, hjr⟩ := ih (by omega) hnext hrest (by rw [hst, hend])
        exact ⟨hr, j, hst ▸ hj, fun k hk => (leadsTo_of_mem hmem).mp (hj0 k hk),
          (leadsTo_of_mem hmem).mp hjr⟩
      · rw [found, if_neg hnode] at h
        obtain ⟨rfl, -⟩ := Prod.mk.inj (Option.some.inj h)
        exact ⟨hr, i, hi, h0, hlead⟩
    · rw [if_neg hi] at h
      obtain ⟨rfl, -⟩ := Prod.mk.inj (Option.some.inj h)
      exact absurd rfl hr

lemma findFit_leads (hsz : sz % 4 = 0) (h31 : 2 ^ 31 < sz) (hlt : sz < 2 ^ 32)
    (hlo : s.memStartBrk + 128 + 4 ≤ 2 ^ 32) (h : Strays s sz node) :
    Ends (findFit (sz / WSIZE)) s (fun r t => r = node ∧ t.mem = s.mem) := by
  obtain ⟨hnode, j, hj, h0, hlast⟩ := h
  have hj : 4 * j < s.memStartBrk + 128 := hj
  have hb := findBucket_run s sz hsz hlt
  rw [if_neg (by omega)] at hb
  unfold findFit
  rw [ends_bind, ends_of_run hb]
  refine ends_findFitBuckets (i := 0) (m := j) hsz hlt hlo ?_ (by omega) (fun k hk => ?_) hnode ?_
  · show j < 2 ^ 32
    omega
  · rw [Nat.zero_add]
    exact h0 k hk
  · rw [Nat.zero_add]
    exact hlast

/-- **The search for a size without a class** returns the node that the words from address `0` on
lead to, if there is one. -/
theorem findFit_strays (hsz : sz % 4 = 0) (h31 : 2 ^ 31 < sz) (hlt : sz < 2 ^ 32)
    (hlo : s.memStartBrk + 128 + 4 ≤ 2 ^ 32) (hnode : node ≠ 0) :
    (∃ t, findFit (sz / WSIZE) s = some (node, t)) ↔ Strays s sz node := by
  have hb := findBucket_run s sz hsz hlt
  rw [if_neg (by omega)] at hb
  constructor
  · rintro ⟨t, h⟩
    obtain ⟨b, u, h1, h⟩ := bind_eq_some.mp h
    rw [hb] at h1
    obtain ⟨rfl, rfl⟩ := Prod.mk.inj (Option.some.inj h1)
    exact strays_of_run (i := 0) hsz hlt hlo (fun k hk => absurd hk (Nat.not_lt_zero k)) h hnode
  · intro hs
    obtain ⟨r, t, hrun, rfl, -⟩ := findFit_leads hsz h31 hlt hlo hs
    exact ⟨t, hrun⟩

lemma ends_findFitBuckets_barren (hsz : sz % 4 = 0) (hlt : sz < 2 ^ 32)
    (hlo : s.memStartBrk + 128 + 4 ≤ 2 ^ 32) {m : Nat} (hm : m < fuel)
    (hend : s.memStartBrk + 128 ≤ 4 * (i + m)) (h : s.Barren sz) :
    Ends (findFitBuckets (sz / WSIZE) fuel (4 * i)) s (fun r t => r = 0 ∧ t.mem = s.mem) := by
  have hb : addW s.memStartBrk (WSIZE * BUCKETS_COUNT) = s.memStartBrk + 128 :=
    addW_eq (show s.memStartBrk + 128 < 2 ^ 32 by omega)
  induction m generalizing s i fuel with
  | zero =>
    cases fuel with
    | zero => exact absurd hm (by simp)
    | succ fuel =>
      rw [findFitBuckets, ends_bind, ends_memHeapLo, hb, ends_ite_neg (by omega), ends_pure]
      exact ⟨rfl, rfl⟩
  | succ m ih =>
    cases fuel with
    | zero => exact absurd hm (by simp)
    | succ fuel =>
      rw [findFitBuckets, ends_bind, ends_memHeapLo, hb]
      by_cases hi : 4 * i < s.memStartBrk + 128
      · rw [ends_ite_pos hi, ends_bind, ends_get, ends_bind]
        refine (findFitNodes_leads (s := s.log _) hsz hlt (h i hi)).mono ?_
        rintro o t ⟨rfl, hmem, hst⟩
        have hmem : t.mem = s.mem := hmem
        have hst : t.memStartBrk = s.memStartBrk := hst
        have e4 : addW (4 * i) WSIZE = 4 * (i + 1) := by
          show addW (4 * i) 4 = _
          rw [addW_eq (by omega)]
          omega
        show Ends (findFitBuckets (sz / WSIZE) fuel (addW (4 * i) WSIZE)) t _
        rw [e4]
        refine (ih (by omega) (by omega) (by omega) (fun j hj => ?_) (by rw [hst, hb])).mono ?_
        · rw [hst] at hj
          exact (leadsTo_of_mem hmem).mpr (h j hj)
        · rintro r u ⟨h1, h2⟩
          exact ⟨h1, h2.trans hmem⟩
      · rw [ends_ite_neg hi, ends_pure]
        exact ⟨rfl, rfl⟩

/-- **The search for a size without a class finds nothing** when no word leads to a node that is
large enough. -/
theorem findFit_barren (hsz : sz % 4 = 0) (h31 : 2 ^ 31 < sz) (hlt : sz < 2 ^ 32)
    (hlo : s.memStartBrk + 128 + 4 ≤ 2 ^ 32) (h : s.Barren sz) :
    Ends (findFit (sz / WSIZE)) s (fun r t => r = 0 ∧ t.mem = s.mem) := by
  have hb := findBucket_run s sz hsz hlt
  rw [if_neg (by omega)] at hb
  unfold findFit
  rw [ends_bind, ends_of_run hb]
  refine ends_findFitBuckets_barren (i := 0) (m := 2 ^ 30) hsz hlt hlo ?_ (by omega) h
  show 2 ^ 30 < 2 ^ 32
  decide

end
end SegList

import SegList.Driver.Rounds

/-!
# What the verdict of eval_mm_valid is worth

`add_range` looks whether an end of the new payload lies in an old one.  A new payload around an old
one, with both ends outside, is not noticed, nor is one that runs over the end of the address space.

* `Books`               the range list has a record of every allocated payload, and these are sound;
* `Books.store`         a payload that is admitted and not around another one keeps this;
* `verdict_sound_iff`   so the verdict is sound exactly when no payload is around another one.
-/

set_option linter.unusedSectionVars false

open Bytes Prog

namespace SegList

/-- the heap did not shrink -/
structure Extends {σ : Type} (P : Package σ) (s t : σ) : Prop where
  lo : P.memHeapLo t = P.memHeapLo s
  hi : P.memHeapHi s ≤ P.memHeapHi t

/-- the calls between the checks do not shrink the heap -/
structure Steady {σ : Type} (P : Package σ) : Prop where
  malloc : ∀ n s r t, P.mmMalloc n s = some (r, t) → Extends P s t
  realloc : ∀ p n s r t, P.mmRealloc p n s = some (r, t) → Extends P s t
  free : ∀ p s r t, P.mmFree p s = some (r, t) → Extends P s t
  memset : ∀ p v n s, Extends P s (P.memset p v n s)

/-- the payloads of the ids are aligned, inside the heap and pairwise disjoint -/
structure SoundAt {σ : Type} (P : Package σ) (ids : List Nat) (d : Driver σ) : Prop where
  aligned : ∀ id ∈ ids, d.blocks id % 8 = 0
  inHeap : ∀ id ∈ ids, P.memHeapLo d.heap ≤ d.blocks id ∧
    d.blocks id + d.blockSizes id ≤ P.memHeapHi d.heap + 1
  disjoint : ∀ id ∈ ids, ∀ id' ∈ ids, id ≠ id' →
    d.blocks id + d.blockSizes id ≤ d.blocks id' ∨ d.blocks id' + d.blockSizes id' ≤ d.blocks id

/-- **The verdict is sound**: at every moment of the run the payloads of the allocated ids are. -/
def VerdictSound {σ : Type} (P : Package σ) (trace : Trace) (tn : Nat) (d : Driver σ) : Prop :=
  ∀ pre c, Moment P trace tn d pre c → SoundAt P (allocated pre) c

/-- the package returns `p` for the request -/
def TraceOp.Returns {σ : Type} (P : Package σ) (op : TraceOp) (d : Driver σ) (p : Nat) : Prop :=
  match op.type with
  | .alloc => ∃ t, P.mmMalloc (toSize op.size) d.heap = some (p, t)
  | .realloc => ∃ t, P.mmRealloc (d.blocks op.index) (toSize op.size) d.heap = some (p, t)
  | .free => False

/-- a payload at `p` does not run over the end of the address space, and is not strictly around the
payload of another id -/
structure Noticed {σ : Type} (ids : List Nat) (d : Driver σ) (op : TraceOp) (p : Nat) : Prop where
  nowrap : p + toSize op.size ≤ 2 ^ 32
  around : ∀ id ∈ ids, id ≠ op.index →
    ¬ (p < d.blocks id ∧ d.blocks id + d.blockSizes id < p + toSize op.size)

/-- all pointers that the package returns in the run are such -/
def AllNoticed {σ : Type} (P : Package σ) (trace : Trace) (tn : Nat) (d : Driver σ) : Prop :=
  ∀ pre op c p, pre ++ [op] <+: trace.ops → Moment P trace tn d pre c → op.Returns P c p →
    Noticed (allocated pre) c op p

/-- the books of the driver are in order, and what they say is sound -/
structure Books {σ : Type} (P : Package σ) (ids : List Nat) (d : Driver σ) : Prop where
  sound : SoundAt P ids d
  starts : (d.ranges.map Range.lo).Nodup
  nowrap : ∀ r ∈ d.ranges, r.lo ≤ r.hi
  recorded : ∀ id ∈ ids, 0 < d.blockSizes id ∧
    ⟨d.blocks id, d.blocks id + d.blockSizes id - 1⟩ ∈ d.ranges
  distinct : ∀ id ∈ ids, ∀ id' ∈ ids, id ≠ id' → d.blocks id ≠ d.blocks id'

section
variable {σ : Type} {P : Package σ} {d c e : Driver σ} {ids ids' : List Nat} {index p tn : Nat}
  {size : Int} {op : TraceOp} {trace : Trace} {pre : List TraceOp} {s t : σ}

/-- what is remembered of an id after the store: the new payload, or what was -/
lemma Driver.store_cases (P : Package σ) (d : Driver σ) (p : Nat) (size : Int)
    (hids : ∀ id ∈ ids', id = index ∨ id ∈ ids ∧ id ≠ index) {id : Nat} (hid : id ∈ ids') :
    id = index ∧ (Driver.store P d index p size).blocks id = p ∧
        (Driver.store P d index p size).blockSizes id = toSize size ∨
      id ∈ ids ∧ (Driver.store P d index p size).blocks id = d.blocks id ∧
        (Driver.store P d index p size).blockSizes id = d.blockSizes id := by
  by_cases hi : id = index
  · rw [hi]
    exact Or.inl ⟨rfl, Function.update_self .., Function.update_self ..⟩
  · exact Or.inr ⟨((hids id hid).resolve_left hi).1, Function.update_of_ne hi ..,
      Function.update_of_ne hi ..⟩

lemma Driver.store_pairs {R : Nat → Nat → Nat → Nat → Prop}
    (hsymm : ∀ p m q n, R p m q n → R q n p m)
    (hids : ∀ id ∈ ids', id = index ∨ id ∈ ids ∧ id ≠ index)
    (hnew : ∀ id ∈ ids, R p (toSize size) (d.blocks id) (d.blockSizes id))
    (hold : ∀ id ∈ ids, ∀ id' ∈ ids, id ≠ id' →
      R (d.blocks id) (d.blockSizes id) (d.blocks id') (d.blockSizes id'))
    {id id' : Nat} (hid : id ∈ ids') (hid' : id' ∈ ids') (hne : id ≠ id') :
    R ((Driver.store P d index p size).blocks id) ((Driver.store P d index p size).blockSizes id)
      ((Driver.store P d index p size).blocks id')
      ((Driver.store P d index p size).blockSizes id') := by
  rcases Driver.store_cases P d p size hids hid with ⟨hi, e, e'⟩ | ⟨hm, e, e'⟩ <;>
    rcases Driver.store_cases P d p size hids hid' with ⟨hi', f, f'⟩ | ⟨hm', f, f'⟩
  · exact absurd (hi.trans hi'.symm) hne
  · rw [e, e', f, f']
    exact hnew id' hm'
  · rw [e, e', f, f']
    exact hsymm _ _ _ _ (hnew id hm)
  · rw [e, e', f, f']
    exact hold id hm id' hm' hne

namespace Books

lemma mono (h : Books P ids d) (hsub : ∀ id ∈ ids', id ∈ ids) : Books P ids' d :=
  ⟨⟨fun id hid => h.sound.aligned id (hsub id hid), fun id hid => h.sound.inHeap id (hsub id hid),
      fun id hid id' hid' => h.sound.disjoint id (hsub id hid) id' (hsub id' hid')⟩,
    h.starts, h.nowrap, fun id hid => h.recorded id (hsub id hid),
    fun id hid id' hid' => h.distinct id (hsub id hid) id' (hsub id' hid')⟩

lemma extend (h : Books P ids d) (he : Extends P d.heap t) : Books P ids { d with heap := t } := by
  refine ⟨⟨h.sound.aligned, fun id hid => ?_, h.sound.disjoint⟩, h.starts, h.nowrap, h.recorded,
    h.distinct⟩
  obtain ⟨h1, h2⟩ := h.sound.inHeap id hid
  have h3 := he.lo
  have h4 := he.hi
  show P.memHeapLo t ≤ d.blocks id ∧ d.blocks id + d.blockSizes id ≤ P.memHeapHi t + 1
  omega

lemma drop (h : Books P ids d) (hi : index ∈ ids) :
    Books P (ids.filter (fun id => id ≠ index)) (d.drop (d.blocks index)) := by
  have hmem : ∀ id ∈ ids.filter (fun id => id ≠ index), id ∈ ids ∧ id ≠ index := by
    intro id hid
    simpa using hid
  have h1 : Books P (ids.filter (fun id => id ≠ index)) d := h.mono fun id hid => (hmem id hid).1
  refine ⟨⟨h1.sound.aligned, h1.sound.inHeap, h1.sound.disjoint⟩,
    h.starts.sublist (List.Sublist.map _ List.eraseP_sublist),
    fun r hr => h.nowrap r (List.mem_of_mem_eraseP hr), fun id hid => ?_, h1.distinct⟩
  obtain ⟨h2, h3⟩ := h1.recorded id hid
  refine ⟨h2, (List.mem_eraseP_of_neg ?_).mpr h3⟩
  have hne : d.blocks id ≠ d.blocks index := h.distinct id (hmem id hid).1 index hi (hmem id hid).2
  exact fun he => hne (of_decide_eq_true he)

/-- an admitted payload that is not around an old one is apart from it -/
lemma apart (h : Books P ids d) (ha : Admits P d.heap d.ranges p size) (h1 : size ≤ INT_MAX)
    (hw : p + toSize size ≤ 2 ^ 32)
    (har : ∀ id ∈ ids, ¬ (p < d.blocks id ∧ d.blocks id + d.blockSizes id < p + toSize size)) :
    ∀ id ∈ ids, p ≠ d.blocks id ∧
      (p + toSize size ≤ d.blocks id ∨ d.blocks id + d.blockSizes id ≤ p) := by
  intro id hid
  obtain ⟨h2, h3, h4⟩ := toSize_eq ha.pos h1
  obtain ⟨h5, h6⟩ := h.recorded id hid
  have h7 := ha.apart _ h6
  rw [lastByte_eq ha.pos h1 hw] at h7
  have h8 := har id hid
  unfold Range.meets at h7
  simp only at h7
  omega

lemma start_fresh (h : Books P ids d) (ha : Admits P d.heap d.ranges p size) :
    p ∉ d.ranges.map Range.lo := by
  intro hm
  obtain ⟨r, hr, e⟩ := List.mem_map.mp hm
  have h1 := h.nowrap r hr
  have h2 := ha.apart r hr
  unfold Range.meets at h2
  omega

/-- **A payload that is admitted and noticed keeps the books in order.** -/
lemma store (h : Books P ids d) (hP : Steady P) (ha : Admits P d.heap d.ranges p size)
    (h1 : size ≤ INT_MAX) (hw : p + toSize size ≤ 2 ^ 32)
    (har : ∀ id ∈ ids, ¬ (p < d.blocks id ∧ d.blocks id + d.blockSizes id < p + toSize size))
    (hids : ∀ id ∈ ids', id = index ∨ id ∈ ids ∧ id ≠ index) :
    Books P ids' (Driver.store P d index p size) := by
  obtain ⟨h2, h3, h4⟩ := toSize_eq ha.pos h1
  have hlast := lastByte_eq ha.pos h1 hw
  have hin := ha.inHeap
  rw [hlast] at hin
  have hext := hP.memset p (UInt8.ofNat (lowByte index)) (toSize size) d.heap
  have hlo : P.memHeapLo (Driver.store P d index p size).heap = P.memHeapLo d.heap := hext.lo
  have hhi : P.memHeapHi d.heap ≤ P.memHeapHi (Driver.store P d index p size).heap := hext.hi
  have hranges : (Driver.store P d index p size).ranges = ⟨p, p + toSize size - 1⟩ :: d.ranges := by
    rw [← hlast]
    rfl
  have hnew := h.apart ha h1 hw har
  refine ⟨⟨fun id hid => ?_, fun id hid => ?_, fun id hid id' hid' hne => ?_⟩, ?_, ?_,
    fun id hid => ?_, fun id hid id' hid' hne => ?_⟩
  · rcases Driver.store_cases P d p size hids hid with ⟨-, e, -⟩ | ⟨hm, e, -⟩
    · rw [e]
      exact ha.aligned
    · rw [e]
      exact h.sound.aligned id hm
  · rcases Driver.store_cases P d p size hids hid with ⟨-, e, e'⟩ | ⟨hm, e, e'⟩
    · omega
    · have h5 := h.sound.inHeap id hm
      omega
  · exact Driver.store_pairs (R := fun p m q n => p + m ≤ q ∨ q + n ≤ p)
      (fun p m q n => Or.symm) hids (fun id hid => (hnew id hid).2) h.sound.disjoint hid hid' hne
  · rw [hranges, List.map_cons, List.nodup_cons]
    exact ⟨h.start_fresh ha, h.starts⟩
  · intro r hr
    rw [hranges] at hr
    rcases List.mem_cons.mp hr with rfl | hr
    · show p ≤ p + toSize size - 1
      omega
    · exact h.nowrap r hr
  · rw [hranges]
    rcases Driver.store_cases P d p size hids hid with ⟨-, e, e'⟩ | ⟨hm, e, e'⟩
    · rw [e, e']
      exact ⟨h2, List.mem_cons_self⟩
    · rw [e, e']
      exact ⟨(h.recorded id hm).1, List.mem_cons_of_mem _ (h.recorded id hm).2⟩
  · exact Driver.store_pairs (R := fun p _ q _ => p ≠ q) (fun p m q n => Ne.symm) hids
      (fun id hid => (hnew id hid).1) h.distinct hid hid' hne

/-- **One round** keeps the books in order when the package's answer is noticed. -/
lemma step (h : Books P ids d) (hP : Steady P) {numIds : Nat} (hl : op.Legal numIds INT_MAX ids)
    (hn : ∀ p, op.Returns P d p → Noticed ids d op p) (hs : Passed P d op c) :
    Books P (op.after ids) c := by
  cases hs with
  | @alloc index p size t hm hp ha =>
    obtain ⟨h1, h2⟩ := hn p ⟨t, hm⟩
    have h3 : Books P (ids.filter (fun id => id ≠ index)) { d with heap := t } :=
      (h.extend (hP.malloc _ _ _ _ hm)).mono fun id hid => (List.mem_filter.mp hid).1
    refine h3.store hP ha (hl.size (by simp)).2 h1 (fun id hid => ?_) fun id hid => ?_
    · have h4 : id ∈ ids ∧ id ≠ index := by simpa using hid
      exact h2 id h4.1 h4.2
    · by_cases hi : id = index
      · exact Or.inl hi
      · have h4 : id ∈ ids := (mem_after_alloc.mp hid).resolve_left hi
        exact Or.inr ⟨by simpa using ⟨h4, hi⟩, hi⟩
  | @realloc index p size t hm hp ha hdata =>
    obtain ⟨h1, h2⟩ := hn p ⟨t, hm⟩
    have h3 := (h.drop (hl.named (by simp))).extend (t := t) (hP.realloc _ _ _ _ _ hm)
    refine h3.store hP ha (hl.size (by simp)).2 h1 (fun id hid => ?_) fun id hid => ?_
    · have h4 : id ∈ ids ∧ id ≠ index := by simpa using hid
      exact h2 id h4.1 h4.2
    · by_cases hi : id = index
      · exact Or.inl hi
      · have h4 : id ∈ ids := mem_after_realloc.mp hid
        exact Or.inr ⟨by simpa using ⟨h4, hi⟩, hi⟩
  | @free index size t hm =>
    exact (h.drop (hl.named (by simp))).extend (t := t) (hP.free _ _ _ _ hm)

end Books

lemma Moment.eq (h : Moment P trace tn d pre c) (h' : Moment P trace tn d pre e) : c = e :=
  (Prod.mk.inj (Option.some.inj (h.2.symm.trans h'.2))).2

lemma Passed.stored (h : Passed P d op c) (hr : op.Returns P d p) :
    c.blocks = Function.update d.blocks op.index p ∧
      c.blockSizes = Function.update d.blockSizes op.index (toSize op.size) := by
  cases h with
  | alloc hm =>
    obtain ⟨t, ht⟩ := hr
    obtain ⟨rfl, rfl⟩ := Prod.mk.inj (Option.some.inj (hm.symm.trans ht))
    exact ⟨rfl, rfl⟩
  | realloc hm =>
    obtain ⟨t, ht⟩ := hr
    obtain ⟨rfl, rfl⟩ := Prod.mk.inj (Option.some.inj (hm.symm.trans ht))
    exact ⟨rfl, rfl⟩
  | free hm => exact absurd hr id

lemma TraceOp.Returns.mem_after (hr : op.Returns P d p) {numIds : Nat} {m : Int}
    (hl : op.Legal numIds m ids) :
    op.index ∈ op.after ids ∧ ∀ id ∈ ids, id ∈ op.after ids := by
  obtain ⟨type, index, size⟩ := op
  cases type with
  | alloc => exact ⟨List.mem_cons_self, fun id hid => List.mem_cons_of_mem _ hid⟩
  | realloc => exact ⟨hl.named (by simp), fun id hid => hid⟩
  | free => exact absurd hr id

lemma SoundAt.noticed (h : SoundAt P (op.after ids) c) (hs : Passed P d op c)
    (hr : op.Returns P d p) {numIds : Nat} {m : Int} (hl : op.Legal numIds m ids) :
    Noticed ids d op p := by
  obtain ⟨e, e'⟩ := hs.stored hr
  obtain ⟨hi, hsub⟩ := hr.mem_after hl
  have hp : c.blocks op.index = p := by
    rw [e]
    exact Function.update_self ..
  have hsz : c.blockSizes op.index = toSize op.size := by
    rw [e']
    exact Function.update_self ..
  refine ⟨?_, fun id hid hne => ?_⟩
  · have h1 := (h.inHeap _ hi).2
    have h2 := P.memHeapHi_lt c.heap
    omega
  · have h1 := h.disjoint _ hi id (hsub id hid) (Ne.symm hne)
    have h2 : c.blocks id = d.blocks id := by
      rw [e]
      exact Function.update_of_ne hne ..
    have h3 : c.blockSizes id = d.blockSizes id := by
      rw [e']
      exact Function.update_of_ne hne ..
    omega

/-- **The verdict is sound exactly when every payload is noticed**: whatever the package returns for
a legal trace, if `eval_mm_valid` returns `1`, then the allocated payloads are aligned, inside the
heap and disjoint at every moment iff no payload was strictly around that of another id, or ran over
the end of the address space, when it was handed out. -/
theorem verdict_sound_iff (hP : Steady P) (hl : trace.Legal INT_MAX)
    (hv : evalMmValid P trace tn d = some (1, e)) :
    VerdictSound P trace tn d ↔ AllNoticed P trace tn d := by
  constructor
  · intro hsound pre op b p hpre hb hr
    obtain ⟨c, hc⟩ := exists_moment hv hpre
    obtain ⟨-, b', hb', hs⟩ := moment_snoc.mp hc
    obtain rfl := hb.eq hb'
    have h1 := hsound _ _ hc
    rw [allocated_snoc] at h1
    exact h1.noticed hs hr (hl.request hpre)
  · intro hall pre c hc
    refine (hc.induct (I := fun pre c => Books P (allocated pre) c) ?_ ?_).sound
    · intro d' hd'
      obtain ⟨r, t, -, -, rfl⟩ := hd'
      have hno : ∀ id, id ∉ allocated [] := fun id => List.not_mem_nil
      exact ⟨⟨fun id hid => absurd hid (hno id), fun id hid => absurd hid (hno id),
        fun id hid => absurd hid (hno id)⟩, List.nodup_nil, fun r hr => absurd hr List.not_mem_nil,
        fun id hid => absurd hid (hno id), fun id hid => absurd hid (hno id)⟩
    · intro pre op b c hpre hb h1 hs
      rw [allocated_snoc]
      exact h1.step hP (hl.request hpre) (fun p hr => hall pre op b p hpre hb hr) hs

end

/-! ## two traces

A package that returns the pointers of a list, one after the other, in a heap of 4096 bytes. -/

namespace Sample

/-- the next pointer of the list -/
def next : Prog (List Nat) Nat
  | [] => some (0, [])
  | p :: ps => some (p, ps)

def scripted : Package (List Nat) where
  memResetBrk s := some ((), s)
  memHeapLo _ := 0
  memHeapHi _ := 4095
  memHeapsize _ := 4096
  mmInit s := some (0, s)
  mmMalloc _ := next
  mmRealloc _ _ := next
  mmFree _ s := some ((), s)
  load _ _ := 0
  memset _ _ _ s := s
  memHeapHi_lt _ := by omega

lemma scripted_steady : Steady scripted :=
  ⟨fun _ _ _ _ _ => ⟨rfl, le_refl _⟩, fun _ _ _ _ _ _ => ⟨rfl, le_refl _⟩,
    fun _ _ _ _ _ => ⟨rfl, le_refl _⟩, fun _ _ _ _ => ⟨rfl, le_refl _⟩⟩

/-- the driver at its start, the package about to return `ps` -/
def scene (ps : List Nat) : Driver (List Nat) := ⟨ps, [], fun _ => 0, fun _ => 0, 0, []⟩

def twoAllocs : Trace := ⟨2, [⟨.alloc, 0, 8⟩, ⟨.alloc, 1, 24⟩]⟩

/-- what the driver notes: its verdict, and pointer and size of the two ids -/
def noted (ps : List Nat) : Option (Int × List (Nat × Nat)) :=
  (evalMmValid scripted twoAllocs 0 (scene ps)).map fun x =>
    (x.1, [0, 1].map fun id => (x.2.blocks id, x.2.blockSizes id))

lemma noted_eq_some {ps : List Nat} {l : List (Nat × Nat)} (h : noted ps = some (1, l)) :
    ∃ e, evalMmValid scripted twoAllocs 0 (scene ps) = some (1, e) ∧
      [0, 1].map (fun id => (e.blocks id, e.blockSizes id)) = l := by
  obtain ⟨⟨v, e⟩, h1, h2⟩ := Option.map_eq_some_iff.mp h
  obtain ⟨rfl, h3⟩ := Prod.mk.inj h2
  exact ⟨e, h1, h3⟩

end Sample

/-- the second payload behind the first one -/
theorem verdict_sound_iff_sample :
    VerdictSound Sample.scripted Sample.twoAllocs 0 (Sample.scene [16, 24]) ↔
      AllNoticed Sample.scripted Sample.twoAllocs 0 (Sample.scene [16, 24]) := by
  have hrun : Sample.noted [16, 24] = some (1, [(16, 8), (24, 24)]) := by decide +kernel
  obtain ⟨e, he, -⟩ := Sample.noted_eq_some hrun
  exact verdict_sound_iff Sample.scripted_steady (by decide) he

/-- the second payload, at 8, around the first one, at 16: the verdict is `1` -/
theorem enclosing_payload_accepted : Steady Sample.scripted ∧ Sample.twoAllocs.Legal INT_MAX ∧
    (∃ e, evalMmValid Sample.scripted Sample.twoAllocs 0 (Sample.scene [16, 8]) = some (1, e)) ∧
    ¬ VerdictSound Sample.scripted Sample.twoAllocs 0 (Sample.scene [16, 8]) := by
  have hrun : Sample.noted [16, 8] = some (1, [(16, 8), (8, 24)]) := by decide +kernel
  obtain ⟨e, he, hl⟩ := Sample.noted_eq_some hrun
  refine ⟨Sample.scripted_steady, by decide, ⟨e, he⟩, fun h => ?_⟩
  have h1 := (h _ _ ⟨List.prefix_refl _, he⟩).disjoint 0 (by decide) 1 (by decide) (by decide)
  simp only [List.map_cons, List.cons.injEq, Prod.mk.injEq] at hl
  omega

end SegList

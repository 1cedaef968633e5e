import SegList.Refine.Readout

/-!
# The overhead of a block, for its whole life

* `gives_or_spares`    a pointer is live after a step because the step returned it, or because it was
                       live and the step is no call on it;
* `step_header`        such a step keeps its header;
* `overhead_bounded`   the block of a live pointer is as large as its request needs up to 24 bytes,
                       and has been so large since the pointer was returned.
-/

set_option linter.unusedSectionVars false

open Bytes Prog

namespace SegList
open Pool

def Heap.headerSize (s : Heap) (p : Nat) : Nat := s.getSize (hdrp (subW p DSIZE))

/-- the call requests `n` bytes -/
def Call.Asks (n : Nat) : Call → Prop
  | .malloc m => m = n
  | .free _ => False
  | .realloc _ m => m = n

/-- the step is a call that returned `p` for a request of `n` bytes -/
def Label.Gives (p n : Nat) : Label → Prop
  | .call k r => k.Asks n ∧ r = p
  | .write _ _ => False

/-- the step is no call on the pointer `p` -/
def Label.Spares (p : Nat) : Label → Prop
  | .call k _ => k.subject ≠ p
  | .write _ _ => True

lemma mem_gain {L : Live} {p n q m : Nat} (h : (p, n) ∈ gain L q m) :
    q = p ∧ m = n ∨ (p, n) ∈ L := by
  unfold gain at h
  split at h
  · exact Or.inr h
  · rcases List.mem_cons.mp h with h | h
    · exact Or.inl ⟨(Prod.mk.inj h).1.symm, (Prod.mk.inj h).2.symm⟩
    · exact Or.inr h

section
variable {A : Arena} {c c' : Client} {a : SoundPool A.base A.limit} {l : Label} {p n : Nat}

lemma gives_or_spares (h0 : p ≠ 0) (hs : c.Step l c') (hp : (p, n) ∈ c'.live) :
    l.Gives p n ∨ (p, n) ∈ c.live ∧ l.Spares p := by
  cases hs with
  | @call k r t hk hz hrun hf =>
    cases k with
    | malloc m =>
      rcases mem_gain hp with ⟨hr, hm⟩ | hp
      · exact Or.inl ⟨hm, hr⟩
      · exact Or.inr ⟨hp, h0.symm⟩
    | free q =>
      obtain ⟨h1, h2⟩ := mem_lose.mp hp
      exact Or.inr ⟨h1, Ne.symm h2⟩
    | realloc q m =>
      rcases mem_gain hp with ⟨hr, hm⟩ | hp
      · exact Or.inl ⟨hm, hr⟩
      · obtain ⟨h1, h2⟩ := mem_lose.mp hp
        exact Or.inr ⟨h1, Ne.symm h2⟩
  | write hm h1 h2 => exact Or.inr ⟨hp, trivial⟩

lemma live_of_spares (hs : c.Step l c') (hl : l.Spares p) (hp : (p, n) ∈ c.live) :
    (p, n) ∈ c'.live := by
  have hgain : ∀ (L : Live) q m, (p, n) ∈ L → (p, n) ∈ gain L q m := by
    intro L q m h
    unfold gain
    split
    · exact h
    · exact List.mem_cons_of_mem _ h
  cases hs with
  | @call k r t hk hz hrun hf =>
    cases k with
    | malloc m => exact hgain _ _ _ hp
    | free q => exact mem_lose.mpr ⟨hp, Ne.symm hl⟩
    | realloc q m => exact hgain _ _ _ (mem_lose.mpr ⟨hp, Ne.symm hl⟩)
  | write hm h1 h2 => exact hp

lemma Tracks.headerSize_eq (h : Tracks A c a) {b : Block} (hb : b ∈ a.blocks) :
    c.heap.headerSize (b.addr + 8) = b.size := h.rep.size_of_payload hb

/-- **A step that spares a live pointer keeps its header.** -/
lemma step_header (h : Tracks A c a) (hs : c.Step l c') (hl : l.Spares p) (hp : (p, n) ∈ c.live) :
    ∃ a' : SoundPool A.base A.limit, Tracks A c' a' ∧
      c'.heap.headerSize p = c.heap.headerSize p := by
  obtain ⟨a', ha, hT⟩ := step_follows h hs
  obtain ⟨b, hb, hu, rfl, -⟩ := h.owns.backed p n hp
  have hb' : b ∈ a'.blocks := by
    cases hs with
    | @call k r t hk hz hrun hf =>
      have e : a.call k = (r, a') := ha
      have h1 := h.owns.mem_call hk hb hu hl
      rwa [e] at h1
    | write hm h1 h2 =>
      have e : a' = a := ha
      rwa [e]
  exact ⟨a', hT, (hT.headerSize_eq hb').trans (h.headerSize_eq hb).symm⟩

lemma Tracks.run_header (h : Tracks A c a) {ls : List Label} (hrun : Lts.Run Client.Step c ls c')
    (hls : ∀ l ∈ ls, l.Spares p) (hp : (p, n) ∈ c.live) :
    (p, n) ∈ c'.live ∧ c'.heap.headerSize p = c.heap.headerSize p := by
  have hI := hrun.keeps (K := Label.Spares p) (I := fun d => (∃ a' : SoundPool A.base A.limit,
    Tracks A d a') ∧ (p, n) ∈ d.live ∧ d.heap.headerSize p = c.heap.headerSize p)
    (fun d l d' hd hl hs => ?_) ⟨⟨a, h⟩, hp, rfl⟩ hls
  · exact hI.2
  · obtain ⟨⟨b, hb⟩, hpd, e⟩ := hd
    obtain ⟨b', hb', e'⟩ := step_header hb hs hl hpd
    exact ⟨⟨b', hb'⟩, live_of_spares hs hl hpd, e'.trans e⟩

/-- the block of a live pointer is as large as its request needs, up to 24 bytes -/
lemma Tracks.headerSize_bounds (h : Tracks A c a) (hp : (p, n) ∈ c.live) :
    align (addW n OVERHEAD) ≤ c.heap.headerSize p ∧
      c.heap.headerSize p ≤ align (addW n OVERHEAD) + 24 := by
  obtain ⟨b, hb, hu, rfl, hge, hle⟩ := h.owns.backed p n hp
  have h1 := h.rep.laid.arena
  have h2 := h.rep.laid.block hb
  have h3 := le_fitSize n
  rw [h.headerSize_eq hb, align_eq (by omega)]
  exact ⟨hge, hle⟩

end

section
variable {lo p n : Nat} {m : Mem} {ls : List Label} {c : Client}

/-- **Bounded internal fragmentation**: in every ordinary run the block of a live pointer, requested
with `n` bytes, has a size from `ALIGN(n + 32)` to 24 bytes more; and since the call that returned the
pointer, on which no call was about it, the header has had this size. -/
theorem overhead_bounded (h : Trail lo m ls c) (hp : (p, n) ∈ c.live) :
    (align (addW n OVERHEAD) ≤ c.heap.headerSize p ∧
      c.heap.headerSize p ≤ align (addW n OVERHEAD) + 24) ∧
    ∃ pre l post u, ls = pre ++ l :: post ∧ l.Gives p n ∧ Trail lo m (pre ++ [l]) u ∧
      Lts.Run Client.Step u post c ∧ (∀ k ∈ post, k.Spares p) ∧
      ∀ mid d, mid <+: post → Lts.Run Client.Step u mid d →
        (p, n) ∈ d.live ∧ d.heap.headerSize p = c.heap.headerSize p := by
  obtain ⟨A, -, a, -, hT⟩ := h.follows
  have h0 : p ≠ 0 := hT.owns.ne_zero hp
  refine ⟨hT.headerSize_bounds hp, ?_⟩
  obtain ⟨hb, r, s, h1, h2⟩ := h
  obtain ⟨pre, l, post, u, e, hl, hpre, hpu, hpost, hK⟩ :=
    h2.origin (P := fun d => (p, n) ∈ d.live) (fun d l d' => gives_or_spares h0)
      List.not_mem_nil hp
  have hu : Trail lo m (pre ++ [l]) u := ⟨hb, r, s, h1, hpre⟩
  obtain ⟨B, -, b, -, hTu⟩ := hu.follows
  refine ⟨pre, l, post, u, e, hl, hu, hpost, hK, fun mid d hmid hrun => ?_⟩
  obtain ⟨h3, h4⟩ := hTu.run_header hrun (fun k hk => hK k (hmid.subset hk)) hpu
  exact ⟨h3, h4.trans (hTu.run_header hpost hK hpu).2.symm⟩

/-- the block at 160, after another one was requested behind it -/
theorem overhead_bounded_sample : (align (addW 40 OVERHEAD) ≤ Sample.pair.heap.headerSize 160 ∧
      Sample.pair.heap.headerSize 160 ≤ align (addW 40 OVERHEAD) + 24) ∧
    ∃ pre l post u, [.call (.malloc 40) 160, .call (.malloc 8) 232] = pre ++ l :: post ∧
      l.Gives 160 40 ∧ Trail 8 (fun _ => 0) (pre ++ [l]) u ∧
      Lts.Run Client.Step u post Sample.pair ∧ (∀ k ∈ post, k.Spares 160) ∧
      ∀ mid d, mid <+: post → Lts.Run Client.Step u mid d →
        (160, 40) ∈ d.live ∧ d.heap.headerSize 160 = Sample.pair.heap.headerSize 160 :=
  overhead_bounded Sample.pair_trail (List.mem_cons_of_mem _ (List.mem_singleton.mpr rfl))

end
end SegList

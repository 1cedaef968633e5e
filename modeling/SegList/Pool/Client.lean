import SegList.Pool.Sound

/-!
# The client of a pool

A client keeps the pointers it was given, each with the size it asked for.  `Owns a L`: the live
pointers `L` are exactly the payloads of the blocks in use of the pool `a`, and every such block
is as large as its request needs, up to 24 bytes.

* `Owns.call`         every call keeps this, whatever it returns;
* `Owns.mem_call`     and every block in use that it is not about;
* `SoundPool.Steps`   the pool as a labelled transition system, the label showing what the call
                      returned.
-/

set_option linter.unusedSectionVars false

namespace SegList
open Pool

/-- live pointers with the sizes they were requested with -/
abbrev Live := List (Nat × Nat)

def gain (L : Live) (p n : Nat) : Live := if p = 0 then L else (p, n) :: L

def lose (L : Live) (p : Nat) : Live := L.filter (fun e => e.1 ≠ p)

lemma mem_lose {L : Live} {p : Nat} {e : Nat × Nat} : e ∈ lose L p ↔ e ∈ L ∧ e.1 ≠ p := by
  unfold lose
  rw [List.mem_filter, decide_eq_true_iff]

lemma lose_eq_self {L : Live} {p : Nat} (h : ∀ e ∈ L, e.1 ≠ p) : lose L p = L :=
  List.filter_eq_self.mpr fun e he => decide_eq_true (h e he)

namespace Call

/-- the pointer a call is about, `0` when there is none -/
def subject : Call → Nat
  | .malloc _ => 0
  | .free p => p
  | .realloc p _ => p

/-- the pointers in the arguments are live -/
def Names (L : Live) : Call → Prop
  | .malloc _ => True
  | .free p => ∃ m, (p, m) ∈ L
  | .realloc p _ => p = 0 ∨ ∃ m, (p, m) ∈ L

def SizeLe (k : Nat) : Call → Prop
  | .malloc n => n ≤ k
  | .free _ => True
  | .realloc _ n => n ≤ k

/-- a `realloc` to some size found memory -/
def Found : Call → Nat → Prop
  | .realloc _ n, r => 0 < n → r ≠ 0
  | _, _ => True

/-- the live pointers after the call returned `r` -/
def live (L : Live) : Call → Nat → Live
  | .malloc n, r => gain L r n
  | .free p, _ => lose L p
  | .realloc p n, r => gain (lose L p) r n

end Call

/-- the live pointers are the payloads of the blocks in use -/
structure Owns (a : Pool) (L : Live) : Prop where
  nodup : (L.map Prod.fst).Nodup
  owned : ∀ b ∈ a.blocks, b.alloc = true → ∃ m, (b.addr + 8, m) ∈ L
  backed : ∀ p m, (p, m) ∈ L → ∃ b ∈ a.blocks, b.alloc = true ∧ p = b.addr + 8 ∧
    fitSize m ≤ b.size ∧ b.size ≤ fitSize m + 24

namespace Owns
variable {base limit : Nat} {a a' : Pool} {L : Live} {b : Block} {n p m : Nat}

lemma ne_zero (h : Owns a L) {e : Nat × Nat} (he : e ∈ L) : e.1 ≠ 0 := by
  obtain ⟨b, -, -, h1, -⟩ := h.backed e.1 e.2 he
  omega

lemma initial (base : Nat) : Owns (Pool.initial base) [] := by
  refine ⟨List.nodup_nil, fun b hb hu => ?_, fun p m hm => absurd hm (List.not_mem_nil)⟩
  rw [List.mem_singleton.mp hb] at hu
  exact absurd hu (by simp)

lemma taken (h : Owns a L) (hT : Taken a a' n b) : Owns a' ((b.addr + 8, n) :: L) := by
  refine ⟨?_, fun c hc hu => ?_, fun p m hm => ?_⟩
  · rw [List.map_cons, List.nodup_cons]
    refine ⟨fun hm => ?_, h.nodup⟩
    obtain ⟨e, he, h1⟩ := List.mem_map.mp hm
    obtain ⟨c, hc, hu, h2, -⟩ := h.backed e.1 e.2 he
    have h3 : e.1 = b.addr + 8 := h1
    exact hT.fresh c hc hu (by omega)
  · rcases (hT.mem_alloc c).mp ⟨hc, hu⟩ with rfl | ⟨hc, -⟩
    · exact ⟨n, List.mem_cons_self⟩
    · obtain ⟨m, hm⟩ := h.owned c hc hu
      exact ⟨m, List.mem_cons_of_mem _ hm⟩
  · rcases List.mem_cons.mp hm with h1 | hm
    · obtain ⟨rfl, rfl⟩ := Prod.mk.inj h1
      exact ⟨b, hT.mem, hT.alloc, rfl, hT.size_ge, hT.size_le⟩
    · obtain ⟨c, hc, hu, h2⟩ := h.backed p m hm
      exact ⟨c, hT.keeps hc hu, hu, h2⟩

lemma malloc (h : Owns a L) (hw : WF base a) (limit n : Nat) :
    Owns (a.malloc limit n).2 (gain L (a.malloc limit n).1 n) := by
  by_cases hp : (a.malloc limit n).1 = 0
  · unfold gain
    rw [if_pos hp]
    rwa [malloc_null hp]
  · obtain ⟨b, hb, hT⟩ := malloc_spec hw hp
    unfold gain
    rw [if_neg hp, hb]
    exact h.taken hT

lemma free (h : Owns a L) (hw : WF base a) (hm : (p, m) ∈ L) : Owns (a.free p) (lose L p) := by
  obtain ⟨b, hb, hu, rfl, -⟩ := h.backed p m hm
  refine ⟨?_, fun c hc hcu => ?_, fun q k hq => ?_⟩
  · exact h.nodup.sublist (List.Sublist.map _ List.filter_sublist)
  · obtain ⟨h1, h2, -⟩ := (mem_free_alloc hw hb hu).mp ⟨hc, hcu⟩
    obtain ⟨k, hk⟩ := h.owned c h2 hcu
    refine ⟨k, mem_lose.mpr ⟨hk, fun e => h1 (hw.tiled.eq_of_addr h2 hb ?_)⟩⟩
    have e' : c.addr + 8 = b.addr + 8 := e
    omega
  · obtain ⟨hqL, hne⟩ := mem_lose.mp hq
    obtain ⟨c, hc, hcu, h1, h2⟩ := h.backed q k hqL
    have hne' : q ≠ b.addr + 8 := hne
    have hcb : c ≠ b := by
      rintro rfl
      exact hne' h1
    exact ⟨c, mem_free hw hb hu hc hcu hcb, hcu, h1, h2⟩

lemma realloc (h : Owns a L) (hw : WF base a) (limit n : Nat) (hp : p = 0 ∨ ∃ m, (p, m) ∈ L) :
    Owns (a.realloc limit p n).2 (gain (lose L p) (a.realloc limit p n).1 n) := by
  unfold Pool.realloc
  by_cases h0 : p = 0
  · rw [if_pos h0, h0, lose_eq_self (fun e he => h.ne_zero he)]
    exact h.malloc hw limit n
  obtain ⟨m, hm⟩ := hp.resolve_left h0
  rw [if_neg h0]
  by_cases hn : n = 0
  · rw [if_pos hn]
    exact h.free hw hm
  rw [if_neg hn]
  have h1 := h.malloc hw limit n
  have h2 := malloc_wf hw limit n
  show Owns ((a.malloc limit n).2.free p) (gain (lose L p) (a.malloc limit n).1 n)
  unfold gain at h1 ⊢
  by_cases hr : (a.malloc limit n).1 = 0
  · rw [if_pos hr] at h1 ⊢
    exact h1.free h2 hm
  · rw [if_neg hr] at h1 ⊢
    have h3 := h1.free h2 (List.mem_cons_of_mem _ hm)
    have hne : (a.malloc limit n).1 ≠ p := by
      intro e
      have h4 := (List.nodup_cons.mp h1.nodup).1
      rw [e] at h4
      exact h4 (List.mem_map.mpr ⟨(p, m), hm, rfl⟩)
    unfold lose at h3 ⊢
    rwa [List.filter_cons_of_pos (by simpa using hne)] at h3

end Owns

/-! ## the pool as a transition system -/

/-- what can be seen of a step: a call and what it returned, or a byte the client wrote -/
inductive Label where
  | call (k : Call) (r : Nat)
  | write (x : Nat) (v : UInt8)

namespace SoundPool
variable {base limit : Nat}

/-- a call leads where it leads; writing payloads is no matter of the pool -/
def Steps (a : SoundPool base limit) : Label → SoundPool base limit → Prop
  | .call k r, a' => a.call k = (r, a')
  | .write _ _, a' => a' = a

lemma realloc_toPool (a : SoundPool base limit) (p n : Nat) :
    ((a.realloc p n).1, (a.realloc p n).2.toPool) = a.toPool.realloc limit p n := by
  unfold SoundPool.realloc Pool.realloc
  by_cases h0 : p = 0
  · rw [if_pos h0, if_pos h0]
    rfl
  · rw [if_neg h0, if_neg h0]
    by_cases hn : n = 0
    · rw [if_pos hn, if_pos hn]
      rfl
    · rw [if_neg hn, if_neg hn]
      rfl

end SoundPool

/-- **Every call keeps the client's view true.** -/
theorem Owns.call {base limit : Nat} {a : SoundPool base limit} {L : Live} {k : Call}
    (h : Owns a.toPool L) (hk : k.Names L) :
    Owns (a.call k).2.toPool (k.live L (a.call k).1) := by
  cases k with
  | malloc n => exact h.malloc a.wf limit n
  | free p =>
    obtain ⟨m, hm⟩ := hk
    exact h.free a.wf hm
  | realloc p n =>
    have h1 := h.realloc a.wf limit n hk
    rw [← a.realloc_toPool] at h1
    exact h1

/-- **A block in use stays as it is** in every call that is not about it. -/
theorem Owns.mem_call {base limit : Nat} {a : SoundPool base limit} {L : Live} {k : Call}
    {b : Block} (h : Owns a.toPool L) (hk : k.Names L) (hb : b ∈ a.blocks) (hu : b.alloc = true)
    (hne : k.subject ≠ b.addr + 8) : b ∈ (a.call k).2.blocks := by
  -- another block given back, here or after the request of a `realloc`
  have hfree : ∀ (a' : SoundPool base limit) p m, (p, m) ∈ L → p ≠ b.addr + 8 →
      (∀ c ∈ a.blocks, c.alloc = true → c ∈ a'.blocks) → b ∈ (a'.free p).blocks := by
    intro a' p m hp hpb hsub
    obtain ⟨d, hd, hdu, rfl, -⟩ := h.backed p m hp
    have hbd : b ≠ d := by
      rintro rfl
      exact hpb rfl
    exact mem_free a'.wf (hsub d hd hdu) hdu (hsub b hb hu) hu hbd
  have hmalloc : ∀ n, ∀ c ∈ a.blocks, c.alloc = true → c ∈ (a.malloc n).2.blocks :=
    fun n c hc hcu => mem_malloc a.wf hc hcu
  cases k with
  | malloc n => exact hmalloc n b hb hu
  | free p =>
    obtain ⟨m, hm⟩ := hk
    exact hfree a p m hm hne fun c hc _ => hc
  | realloc p n =>
    show b ∈ (a.realloc p n).2.blocks
    rcases a.realloc_cases p n with ⟨-, e⟩ | ⟨h0, -, e⟩ | ⟨h0, -, e⟩
    · rw [e]
      exact hmalloc n b hb hu
    · obtain ⟨m, hm⟩ := hk.resolve_left h0
      rw [e]
      exact hfree a p m hm hne fun c hc _ => hc
    · obtain ⟨m, hm⟩ := hk.resolve_left h0
      rw [e]
      exact hfree (a.malloc n).2 p m hm hne (hmalloc n)

end SegList

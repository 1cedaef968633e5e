import SegList.Model.Mm

/-!
# What the macros read, and what a step touches

The macros of `mm.c` read the heap without changing it; `Heap.getSize`, `Heap.ftrp`, ... are the
values they read, and one `Ends` rule for each macro lets a proof step over it.

* `getSize_of_tag`, `getAlloc_of_tag`   the two fields of a header or footer word;
* `Touches C s t`   from `s` to `t` only words at addresses in `C` were accessed: all other bytes
                    and the static variables are the same, and the log grew by accesses in `C`.
-/

set_option linter.unusedSectionVars false

open Bytes Prog

namespace SegList

/-! ## the values the macros read -/

namespace Heap
variable (s : Heap)

def getSize (p : Nat) : Nat := s.word p &&& notW 0x7
def getAlloc (p : Nat) : Nat := s.word p &&& 0x1
def ftrp (bp : Nat) : Nat := subW (addW bp (s.getSize (hdrp bp))) DSIZE
def nextBlkp (bp : Nat) : Nat := addW bp (s.getSize (subW bp WSIZE))
def prevBlkp (bp : Nat) : Nat := subW bp (s.getSize (subW bp DSIZE))

variable {s} {e : Event} {p sz bit : Nat}

@[simp] theorem log_getSize : (s.log e).getSize p = s.getSize p := rfl
@[simp] theorem log_getAlloc : (s.log e).getAlloc p = s.getAlloc p := rfl
@[simp] theorem log_ftrp : (s.log e).ftrp p = s.ftrp p := rfl
@[simp] theorem log_nextBlkp : (s.log e).nextBlkp p = s.nextBlkp p := rfl
@[simp] theorem log_prevBlkp : (s.log e).prevBlkp p = s.prevBlkp p := rfl

theorem getSize_eq : s.getSize p = s.word p / 8 * 8 := land_notW_seven (s.word_lt p)

theorem getAlloc_eq : s.getAlloc p = s.word p % 2 := land_one _

theorem getSize_of_tag (h : s.word p = sz + bit) (hsz : sz % 8 = 0) (hb : bit < 2) :
    s.getSize p = sz := by
  rw [getSize_eq, h]
  omega

theorem getAlloc_of_tag (h : s.word p = sz + bit) (hsz : sz % 8 = 0) (hb : bit < 2) :
    s.getAlloc p = bit := by
  rw [getAlloc_eq, h]
  omega

end Heap

theorem pack_eq {sz bit : Nat} (hsz : sz % 8 = 0) (hb : bit < 2) : pack sz bit = sz + bit :=
  lor_bit hsz hb

theorem hdrp_eq {bp : Nat} (h : 4 ≤ bp) (hb : bp < 2 ^ 32) : hdrp bp = bp - 4 := subW_eq h hb

theorem mulW_words {sz : Nat} (h : sz % 4 = 0) (hlt : sz < 2 ^ 32) : mulW (sz / WSIZE) WSIZE = sz := by
  show mulW (sz / 4) 4 = sz
  rw [mulW_eq (by omega)]
  omega

/-- `extend_heap` rounds up to an even number of words -/
theorem even_words {sz : Nat} (h : sz % 8 = 0) (hlt : sz < 2 ^ 32) :
    (if sz / WSIZE % 2 ≠ 0 then mulW (addW (sz / WSIZE) 1) WSIZE else mulW (sz / WSIZE) WSIZE)
      = sz := by
  have he : ¬ sz / WSIZE % 2 ≠ 0 := by
    show ¬ sz / 4 % 2 ≠ 0
    omega
  rw [if_neg he, mulW_words (by omega) hlt]

theorem subW_payload {bp : Nat} (h : bp + 8 < 2 ^ 32) : subW (bp + 8) DSIZE = bp := by
  show subW (bp + 8) 8 = bp
  rw [subW_eq (by omega) h]
  omega

/-! ## stepping over the macros -/

section
variable {s : Heap} {p : Nat} {Q : Nat → Heap → Prop}

@[simp] theorem ends_getSize :
    Ends (getSize p) s Q ↔ Q (s.getSize p) (s.log (.load p s.memBrk)) := ends_of_run rfl

@[simp] theorem ends_getAlloc :
    Ends (getAlloc p) s Q ↔ Q (s.getAlloc p) (s.log (.load p s.memBrk)) := ends_of_run rfl

@[simp] theorem ends_ftrp :
    Ends (ftrp p) s Q ↔ Q (s.ftrp p) (s.log (.load (hdrp p) s.memBrk)) := ends_of_run rfl

@[simp] theorem ends_nextBlkp :
    Ends (nextBlkp p) s Q ↔ Q (s.nextBlkp p) (s.log (.load (subW p WSIZE) s.memBrk)) :=
  ends_of_run rfl

@[simp] theorem ends_prevBlkp :
    Ends (prevBlkp p) s Q ↔ Q (s.prevBlkp p) (s.log (.load (subW p DSIZE) s.memBrk)) :=
  ends_of_run rfl

/-- the address is read twice -/
@[simp] theorem ends_ftrpOf_next : Ends (ftrpOf (nextBlkp p)) s Q ↔
    Q (s.ftrp (s.nextBlkp p)) (((s.log (.load (subW p WSIZE) s.memBrk)).log
      (.load (subW p WSIZE) s.memBrk)).log (.load (hdrp (s.nextBlkp p)) s.memBrk)) :=
  ends_of_run rfl

@[simp] theorem ends_ftrpOf_prev : Ends (ftrpOf (prevBlkp p)) s Q ↔
    Q (s.ftrp (s.prevBlkp p)) (((s.log (.load (subW p DSIZE) s.memBrk)).log
      (.load (subW p DSIZE) s.memBrk)).log (.load (hdrp (s.prevBlkp p)) s.memBrk)) :=
  ends_of_run rfl

@[simp] theorem ends_memHeapLo : Ends memHeapLo s Q ↔ Q s.memStartBrk s := ends_of_run rfl

@[simp] theorem ends_memHeapHi : Ends memHeapHi s Q ↔ Q s.heapHi s := ends_of_run rfl

@[simp] theorem ends_heapListp : Ends heapListp s Q ↔ Q s.heapListp s := ends_of_run rfl

@[simp] theorem ends_setHeapListp {Q : Unit → Heap → Prop} :
    Ends (setHeapListp p) s Q ↔ Q () { s with heapListp := p } := ends_of_run rfl

end

/-! ## the words a step touches -/

/-- an aligned word inside the heap -/
def Heap.InHeap (s : Heap) (p : Nat) : Prop := p % 4 = 0 ∧ s.memStartBrk ≤ p ∧ p + 4 ≤ s.memBrk

/-- a word access is aligned and inside the heap as it was at that moment -/
def Event.Ok (lo : Nat) : Event → Prop
  | .load p brk => p % 4 = 0 ∧ lo ≤ p ∧ p + 4 ≤ brk
  | .store p brk => p % 4 = 0 ∧ lo ≤ p ∧ p + 4 ≤ brk
  | _ => True

/-- every word access so far was inside the heap -/
def Heap.Clean (s : Heap) : Prop := ∀ e ∈ s.trace, e.Ok s.memStartBrk

/-- the static variables are the same -/
structure Fixed (s t : Heap) : Prop where
  start : t.memStartBrk = s.memStartBrk
  brk : t.memBrk = s.memBrk
  maxAddr : t.memMaxAddr = s.memMaxAddr
  listp : t.heapListp = s.heapListp

/-- from `s` to `t` only words at addresses in `C` were accessed -/
structure Touches (C : Nat → Prop) (s t : Heap) : Prop where
  fixed : Fixed s t
  mem : ∀ x, (∀ p, C p → x < p ∨ p + 4 ≤ x) → t.mem x = s.mem x
  trace : ∃ evs, t.trace = evs ++ s.trace ∧
    ∀ e ∈ evs, ∃ p, C p ∧ (e = .load p s.memBrk ∨ e = .store p s.memBrk)

namespace Touches
variable {C D : Nat → Prop} {s t u : Heap} {p v : Nat}

theorem refl (C : Nat → Prop) (s : Heap) : Touches C s s :=
  ⟨⟨rfl, rfl, rfl, rfl⟩, fun _ _ => rfl, [], rfl, fun _ he => absurd he (List.not_mem_nil)⟩

theorem trans (h : Touches C s t) (h' : Touches C t u) : Touches C s u := by
  obtain ⟨f, m, evs, e, he⟩ := h
  obtain ⟨f', m', evs', e', he'⟩ := h'
  refine ⟨⟨f'.start.trans f.start, f'.brk.trans f.brk, f'.maxAddr.trans f.maxAddr,
    f'.listp.trans f.listp⟩, fun x hx => (m' x hx).trans (m x hx), evs' ++ evs, ?_, ?_⟩
  · rw [e', e, List.append_assoc]
  · intro ev hev
    rcases List.mem_append.mp hev with hev | hev
    · have h1 := he' ev hev
      rwa [f.brk] at h1
    · exact he ev hev

theorem mono (h : Touches C s t) (hCD : ∀ p, C p → D p) : Touches D s t := by
  obtain ⟨f, m, evs, e, he⟩ := h
  refine ⟨f, fun x hx => m x (fun p hp => hx p (hCD p hp)), evs, e, fun ev hev => ?_⟩
  obtain ⟨p, hp, h1⟩ := he ev hev
  exact ⟨p, hCD p hp, h1⟩

theorem load (h : Touches C s t) (hp : C p) : Touches C s (t.log (.load p t.memBrk)) := by
  refine h.trans ⟨⟨rfl, rfl, rfl, rfl⟩, fun _ _ => rfl, [.load p t.memBrk], rfl, fun e he => ?_⟩
  exact ⟨p, hp, Or.inl (List.mem_singleton.mp he)⟩

theorem store (h : Touches C s t) (hp : C p) : Touches C s (t.store p v) := by
  refine h.trans ⟨⟨rfl, rfl, rfl, rfl⟩, fun x hx => setWord_of_outside t.mem (hx p hp),
    [.store p t.memBrk], rfl, fun e he => ?_⟩
  exact ⟨p, hp, Or.inr (List.mem_singleton.mp he)⟩

theorem word (h : Touches C s t) {q : Nat} (hq : ∀ p, C p → q + 4 ≤ p ∨ p + 4 ≤ q) :
    t.word q = s.word q := by
  refine Heap.word_congr (fun x h1 h2 => h.mem x (fun p hp => ?_))
  have := hq p hp
  omega

theorem clean (h : Touches C s t) (hC : ∀ p, C p → s.InHeap p) (hs : s.Clean) : t.Clean := by
  obtain ⟨f, -, evs, e, he⟩ := h
  intro ev hev
  rw [e] at hev
  rw [f.start]
  rcases List.mem_append.mp hev with hev | hev
  · obtain ⟨p, hp, rfl | rfl⟩ := he ev hev
    · exact hC p hp
    · exact hC p hp
  · exact hs ev hev

end Touches
end SegList

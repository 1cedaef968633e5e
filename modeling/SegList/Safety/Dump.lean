import SegList.Model.Dump
import SegList.Refine.Run

/-!
# What is printed is what is there

`print_heap` and `print_seglist` return on every heap of an ordinary run, change nothing, and print
the address and the content of every word of the heap, or of the bucket table and the word behind it,
in their order (`dump_exact`).
-/

set_option linter.unusedSectionVars false

open Bytes Prog

namespace SegList

/-- the text that an event prints -/
def Event.text? : Event → Option String
  | .message text => some text
  | _ => none

/-- what some events, newest first, print -/
def printed (evs : List Event) : List String := evs.reverse.filterMap Event.text?

/-- the three lines of a word -/
def Heap.wordText (s : Heap) (p : Nat) : List String :=
  [border, pointerText p ++ "  |  " ++ hexText (s.word p) ++ "\n", border]

/-- `m` returns, changes nothing but the log, and prints the words at `ps` -/
def Dumps (m : M Unit) (s : Heap) (ps : List Nat) : Prop :=
  Ends m s (fun _ t => ∃ evs, t = { s with trace := evs ++ s.trace } ∧
    printed evs = ps.flatMap s.wordText)

/-- the `n` words from `p` on -/
def wordsFrom (p n : Nat) : List Nat := (List.range n).map fun i => p + 4 * i

section
variable {s : Heap} {last : M Nat} {b n p fuel : Nat} {evs : List Event}

lemma printed_append (evs evs' : List Event) :
    printed (evs ++ evs') = printed evs' ++ printed evs := by
  unfold printed
  rw [List.reverse_append, List.filterMap_append]

lemma wordsFrom_succ : wordsFrom p (n + 1) = p :: wordsFrom (p + 4) n := by
  unfold wordsFrom
  rw [List.range_succ_eq_map, List.map_cons, List.map_map]
  refine congrArg (List.cons p) (List.map_congr_left fun i _ => ?_)
  show p + 4 * (i + 1) = p + 4 + 4 * i
  omega

lemma printWord_dumps (tr : List Event) : ∃ evs, printed evs = s.wordText p ∧
    printWord p { s with trace := tr } = some ((), { s with trace := evs ++ tr }) :=
  ⟨[.message border, .message (pointerText p ++ "  |  " ++ hexText (s.word p) ++ "\n"),
    .load p s.memBrk, .message border], rfl, rfl⟩

/-- **The loop prints the words up to the last one**; it runs on a heap in which only the log grows. -/
lemma printUpTo_dumps (hlast : ∀ tr, last { s with trace := tr } = some (b, { s with trace := tr }))
    (hfuel : n < fuel) (hin : ∀ i < n, p + 4 * i ≤ b) (hout : b < p + 4 * n)
    (hfit : p + 4 * n < 2 ^ 32) (tr : List Event) : ∃ evs,
      printed evs = (wordsFrom p n).flatMap s.wordText ∧
      printUpTo last fuel p { s with trace := tr } = some ((), { s with trace := evs ++ tr }) := by
  induction n generalizing fuel p tr with
  | zero =>
    cases fuel with
    | zero => exact absurd hfuel (Nat.not_lt_zero _)
    | succ fuel =>
      refine ⟨[], rfl, ?_⟩
      unfold printUpTo
      rw [bind_run, hlast]
      show (if p ≤ b then _ else _ : M Unit) _ = _
      rw [if_neg (by omega)]
      rfl
  | succ n ih =>
    cases fuel with
    | zero => exact absurd hfuel (Nat.not_lt_zero _)
    | succ fuel =>
      have hp := hin 0 (Nat.succ_pos n)
      obtain ⟨evs, h1, h2⟩ := printWord_dumps (s := s) (p := p) tr
      obtain ⟨evs', h3, h4⟩ := ih (p := p + 4) (Nat.lt_of_succ_lt_succ hfuel)
        (fun i hi => by have := hin (i + 1) (by omega); omega) (by omega) (by omega) (evs ++ tr)
      refine ⟨evs' ++ evs, ?_, ?_⟩
      · rw [printed_append, h1, h3, wordsFrom_succ, List.flatMap_cons]
      · unfold printUpTo
        rw [bind_run, hlast]
        show (if p ≤ b then printWord p >>= fun _ => printUpTo last fuel (addW p WSIZE)
          else pure () : M Unit) _ = _
        rw [if_pos (by omega), bind_run, h2]
        have e : addW p WSIZE = p + 4 := addW_eq (show p + 4 < 2 ^ 32 by omega)
        show printUpTo last fuel (addW p WSIZE) _ = _
        rw [e, h4, List.append_assoc]

end

section
variable {lo : Nat} {c : Client}

/-- **`print_heap` prints the whole heap, and `print_seglist` the bucket table and one word more**, in
every state of an ordinary run. -/
theorem dump_exact (h : Ordinary lo c) :
    Dumps printHeap c.heap (wordsFrom lo ((c.heap.memBrk - lo) / 4)) ∧
    Dumps printSeglist c.heap (wordsFrom lo (BUCKETS_COUNT + 1)) := by
  obtain ⟨A, rfl, a, hT⟩ := h.tracks
  have R := hT.rep
  have harena := R.laid.arena
  have hbrk := R.laid.brk
  have hspace : addrSpace = 2 ^ 32 := rfl
  -- both loops start at `mem_heap_lo()`
  have hrun : ∀ (last : M Nat) fuel evs, printUpTo last fuel A.lo c.heap =
      some ((), { c.heap with trace := evs ++ c.heap.trace }) →
      (memHeapLo >>= fun p => printUpTo last fuel p) c.heap =
        some ((), { c.heap with trace := evs ++ c.heap.trace }) := by
    intro last fuel evs hl
    rw [bind_run]
    show printUpTo last fuel c.heap.memStartBrk c.heap = _
    rw [R.laid.start, hl]
  constructor
  · have hlast : ∀ tr, memHeapHi { c.heap with trace := tr } =
        some (c.heap.memBrk - 1, { c.heap with trace := tr }) := by
      intro tr
      have hhi : c.heap.heapHi = c.heap.memBrk - 1 := subW_eq (by omega) (by omega)
      rw [← hhi]
      rfl
    obtain ⟨evs, h1, h2⟩ := printUpTo_dumps (n := (c.heap.memBrk - A.lo) / 4) (p := A.lo) hlast
      (show _ < addrSpace by omega) (fun i hi => by omega) (by omega) (by omega) c.heap.trace
    exact ⟨(), _, hrun _ _ _ h2, evs, rfl, h1⟩
  · have hlast : ∀ tr, (do return addW (← memHeapLo) (WSIZE * BUCKETS_COUNT) : M Nat)
        { c.heap with trace := tr } = some (A.lo + 128, { c.heap with trace := tr }) := by
      intro tr
      have hend : addW c.heap.memStartBrk (WSIZE * BUCKETS_COUNT) = A.lo + 128 := by
        rw [R.laid.start]
        exact addW_eq (show A.lo + 128 < 2 ^ 32 by omega)
      rw [← hend]
      rfl
    obtain ⟨evs, h1, h2⟩ := printUpTo_dumps (n := 33) (p := A.lo) hlast
      (show 33 < addrSpace by omega) (fun i hi => by omega) (by omega) (by omega) c.heap.trace
    exact ⟨(), _, hrun _ _ _ h2, evs, rfl, h1⟩

theorem dump_exact_sample :
    Dumps printHeap Sample.client.heap (wordsFrom 8 ((Sample.client.heap.memBrk - 8) / 4)) ∧
    Dumps printSeglist Sample.client.heap (wordsFrom 8 (BUCKETS_COUNT + 1)) :=
  dump_exact Sample.client_ordinary

end
end SegList

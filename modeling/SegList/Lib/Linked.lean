import Mathlib.Data.List.Basic

/-!
# Doubly linked lists

Nodes are values of a type `α` with a null value `nil`; `next` and `prev` read the links of a
node.  `Linked next prev nil p n l`: the chain that starts at `n` runs through the nodes `l` and
ends in `nil`, and the backward links mirror it, with `p` before the first node.

* `Linked.congr`                     a chain depends on the links of its own nodes only;
* `Linked.relink`                    the first node given another predecessor;
* `Linked.push`                      a node put in front;
* `Linked.pop`, `Linked.unlink`      the first node taken out, a later node taken out.

The edits speak about the links after the edit (`next'`, `prev'`), so they do not depend on how or
in which order a program writes them.
-/

set_option linter.unusedSectionVars false

namespace DList
variable {α : Type} (next prev : α → α) (nil : α)

/-- the chain from `n` runs through `l` and ends in `nil`; `p` is the predecessor of its start -/
def Linked : α → α → List α → Prop
  | _, n, [] => n = nil
  | p, n, x :: xs => n = x ∧ x ≠ nil ∧ prev x = p ∧ Linked x (next x) xs

variable {next prev nil} {next' prev' : α → α}

namespace Linked
variable {p n : α} {l : List α}

theorem start_eq (h : Linked next prev nil p n l) : n = l.headD nil := by
  cases l with
  | nil => exact h
  | cons x xs => exact h.1

/-- a chain depends on the links of its own nodes only -/
theorem congr (h : Linked next prev nil p n l) (hn : ∀ x ∈ l, next' x = next x)
    (hp : ∀ x ∈ l, prev' x = prev x) : Linked next' prev' nil p n l := by
  induction l generalizing p n with
  | nil => exact h
  | cons x xs ih =>
    obtain ⟨h1, h2, h3, h4⟩ := h
    refine ⟨h1, h2, (hp x List.mem_cons_self).trans h3, ?_⟩
    rw [hn x List.mem_cons_self]
    exact ih h4 (fun y hy => hn y (List.mem_cons_of_mem _ hy))
      (fun y hy => hp y (List.mem_cons_of_mem _ hy))

/-- the first node, if there is one, gets the predecessor `q`; all else stays -/
theorem relink (h : Linked next prev nil p n l) {q : α} (hn : ∀ x ∈ l, next' x = next x)
    (hq : ∀ x ∈ l.head?, prev' x = q) (hp : ∀ x ∈ l.tail, prev' x = prev x) :
    Linked next' prev' nil q n l := by
  cases l with
  | nil => exact h
  | cons x xs =>
    obtain ⟨h1, h2, -, h4⟩ := h
    refine ⟨h1, h2, hq x rfl, ?_⟩
    rw [hn x List.mem_cons_self]
    exact h4.congr (fun y hy => hn y (List.mem_cons_of_mem _ hy)) hp

/-- **A node put in front** of a chain. -/
theorem push (h : Linked next prev nil p n l) {q x : α} (hx : x ≠ nil) (hxn : next' x = n)
    (hxp : prev' x = q) (hn : ∀ y ∈ l, next' y = next y) (hq : ∀ y ∈ l.head?, prev' y = x)
    (hp : ∀ y ∈ l.tail, prev' y = prev y) : Linked next' prev' nil q x (x :: l) := by
  refine ⟨rfl, hx, hxp, ?_⟩
  rw [hxn]
  exact h.relink hn hq hp

/-- **The first node taken out.** -/
theorem pop {x : α} (h : Linked next prev nil p n (x :: l)) (hn : ∀ y ∈ l, next' y = next y)
    (hq : ∀ y ∈ l.head?, prev' y = p) (hp : ∀ y ∈ l.tail, prev' y = prev y) :
    Linked next' prev' nil p (next x) l := h.2.2.2.relink hn hq hp

/-- **A later node taken out**: its predecessor `q` is linked to its successor. -/
theorem unlink {pre post : List α} {q x : α}
    (h : Linked next prev nil p n (pre ++ q :: x :: post)) (hqn : next' q = next x)
    (hn : ∀ y ∈ pre ++ post, next' y = next y) (hq : ∀ y ∈ post.head?, prev' y = q)
    (hp : ∀ y ∈ pre ++ q :: post.tail, prev' y = prev y) :
    Linked next' prev' nil p n (pre ++ q :: post) := by
  induction pre generalizing p n with
  | nil =>
    obtain ⟨h1, h2, h3, h4⟩ := h
    refine ⟨h1, h2, (hp q List.mem_cons_self).trans h3, ?_⟩
    rw [hqn]
    exact h4.2.2.2.relink hn hq (fun y hy => hp y (List.mem_cons_of_mem _ hy))
  | cons z pre ih =>
    obtain ⟨h1, h2, h3, h4⟩ := h
    refine ⟨h1, h2, (hp z List.mem_cons_self).trans h3, ?_⟩
    rw [hn z List.mem_cons_self]
    exact ih h4 (fun y hy => hn y (List.mem_cons_of_mem _ hy))
      (fun y hy => hp y (List.mem_cons_of_mem _ hy))

theorem neighbours {pre post : List α} {q x : α}
    (h : Linked next prev nil p n (pre ++ q :: x :: post)) : next q = x ∧ prev x = q := by
  induction pre generalizing p n with
  | nil => exact ⟨h.2.2.2.1, h.2.2.2.2.2.1⟩
  | cons z pre ih => exact ih h.2.2.2

theorem next_eq {pre post : List α} {x : α} (h : Linked next prev nil p n (pre ++ x :: post)) :
    next x = post.headD nil := by
  induction pre generalizing p n with
  | nil => exact h.2.2.2.start_eq
  | cons z pre ih => exact ih h.2.2.2

end Linked
end DList

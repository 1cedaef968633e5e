import Mathlib.Data.List.Basic
import Mathlib.Data.List.Perm.Subperm

/-!
# Walks along a successor function

`walk next stop k a`: the points from `a` on, before the first one where `stop` holds; `none` when
the first `k` points do not stop.  `Path next stop a l` says the same without a bound.

* `walk_eq_some`     a walk that ends is the path, and the bound exceeds its length;
* `Path.unique`      there is one path from a point;
* `Path.nodup`       a path visits no point twice;
* `walk_of_bounded`  in a space of `N` points a path that ends at all is found with the bound `N`:
                     a bound of that size loses nothing.
-/

set_option linter.unusedSectionVars false

namespace Walk
variable {α : Type} (next : α → α) (stop : α → Bool)

/-- the points from `a` on, before the first one where `stop` holds -/
def walk : Nat → α → Option (List α)
  | 0, _ => none
  | k + 1, a => if stop a then some [] else (walk k (next a)).map (a :: ·)

/-- `l` are the points from `a` on, before the first one where `stop` holds -/
def Path : α → List α → Prop
  | a, [] => stop a = true
  | a, x :: xs => a = x ∧ stop x = false ∧ Path (next x) xs

variable {next stop}

theorem walk_eq_some {k : Nat} {a : α} {l : List α} :
    walk next stop k a = some l ↔ Path next stop a l ∧ l.length < k := by
  induction k generalizing a l with
  | zero => simp [walk]
  | succ k ih =>
    rw [walk]
    cases hs : stop a with
    | true =>
      rw [if_pos rfl, Option.some.injEq]
      cases l with
      | nil => simp [Path, hs]
      | cons x xs =>
        refine ⟨fun h => absurd h (by simp), ?_⟩
        rintro ⟨⟨rfl, h2, -⟩, -⟩
        rw [hs] at h2
        exact absurd h2 (by simp)
    | false =>
      rw [if_neg (by simp), Option.map_eq_some_iff]
      cases l with
      | nil => simp [Path, hs]
      | cons x xs =>
        constructor
        · rintro ⟨l', h1, h2⟩
          obtain ⟨rfl, rfl⟩ := List.cons.inj h2
          obtain ⟨h3, h4⟩ := ih.mp h1
          exact ⟨⟨rfl, hs, h3⟩, by rw [List.length_cons]; omega⟩
        · rintro ⟨⟨rfl, -, h3⟩, h4⟩
          rw [List.length_cons] at h4
          exact ⟨xs, ih.mpr ⟨h3, by omega⟩, rfl⟩

namespace Path

theorem unique {a : α} {l l' : List α} (h : Path next stop a l) (h' : Path next stop a l') :
    l = l' := by
  induction l generalizing a l' with
  | nil =>
    cases l' with
    | nil => rfl
    | cons y ys =>
      obtain ⟨rfl, h2, -⟩ := h'
      have h1 : stop a = true := h
      rw [h1] at h2
      exact absurd h2 (by simp)
  | cons x xs ih =>
    obtain ⟨rfl, h2, h3⟩ := h
    cases l' with
    | nil =>
      have h1 : stop a = true := h'
      rw [h1] at h2
      exact absurd h2 (by simp)
    | cons y ys =>
      obtain ⟨rfl, -, h5⟩ := h'
      rw [ih h3 h5]

theorem suffix {a x : α} {u v : List α} (h : Path next stop a (u ++ x :: v)) :
    Path next stop x (x :: v) := by
  induction u generalizing a with
  | nil =>
    obtain ⟨rfl, h2, h3⟩ := h
    exact ⟨rfl, h2, h3⟩
  | cons y u ih => exact ih h.2.2

theorem nodup {a : α} {l : List α} (h : Path next stop a l) : l.Nodup := by
  induction l generalizing a with
  | nil => exact List.nodup_nil
  | cons x xs ih =>
    refine List.nodup_cons.mpr ⟨fun hx => ?_, ih h.2.2⟩
    -- the path from the second visit would be the whole path, and shorter
    obtain ⟨u, v, rfl⟩ := List.append_of_mem hx
    have h1 := Path.suffix (u := x :: u) h
    have ha := h.1
    subst ha
    have h2 := congrArg List.length (h.unique h1)
    rw [List.length_cons, List.length_append, List.length_cons] at h2
    omega

theorem not_stop {a : α} {l : List α} (h : Path next stop a l) {x : α} (hx : x ∈ l) :
    stop x = false := by
  obtain ⟨u, v, rfl⟩ := List.append_of_mem hx
  exact h.suffix.2.1

/-- the point where the path stops -/
def final (next : α → α) : α → List α → α
  | a, [] => a
  | _, x :: xs => final next (next x) xs

theorem stop_final {a : α} {l : List α} (h : Path next stop a l) : stop (final next a l) = true := by
  induction l generalizing a with
  | nil => exact h
  | cons x xs ih => exact ih h.2.2

end Path

theorem Path.lt_of_bounded {next : Nat → Nat} {stop : Nat → Bool} {a N : Nat} {l : List Nat}
    (h : Path next stop a l) (ha : a < N) (hN : ∀ x, next x < N) :
    ∀ x ∈ Path.final next a l :: l, x < N := by
  induction l generalizing a with
  | nil =>
    intro x hx
    rw [List.mem_singleton.mp hx]
    exact ha
  | cons y ys ih =>
    have ih' := ih h.2.2 (hN y)
    intro x hx
    rcases List.mem_cons.mp hx with rfl | hx
    · exact ih' _ List.mem_cons_self
    · rcases List.mem_cons.mp hx with rfl | hx
      · exact h.1 ▸ ha
      · exact ih' x (List.mem_cons_of_mem _ hx)

/-- **In a space of `N` points the bound `N` loses nothing**: a path that stops has fewer than `N`
points, so the walk with the bound `N` finds it. -/
theorem walk_of_bounded {next : Nat → Nat} {stop : Nat → Bool} {a N : Nat} {l : List Nat}
    (h : Path next stop a l) (ha : a < N) (hN : ∀ x, next x < N) :
    walk next stop N a = some l := by
  refine walk_eq_some.mpr ⟨h, ?_⟩
  have hfin : Path.final next a l ∉ l := by
    intro hm
    have h1 := h.not_stop hm
    rw [h.stop_final] at h1
    exact absurd h1 (by simp)
  have hnd : (Path.final next a l :: l).Nodup := List.nodup_cons.mpr ⟨hfin, h.nodup⟩
  have hsub : Path.final next a l :: l ⊆ List.range N := fun x hx =>
    List.mem_range.mpr (h.lt_of_bounded ha hN x hx)
  have hlen := (hnd.subperm hsub).length_le
  rw [List.length_range, List.length_cons] at hlen
  omega

end Walk

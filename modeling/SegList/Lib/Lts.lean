import Mathlib.Data.List.Forall2
import Mathlib.Data.List.Induction

/-!
# Labelled transition systems: runs and simulations

A system is a relation `step : σ → ℓ → σ → Prop`.  `Run step s ls t`: from `s` the steps with the
labels `ls`, in this order, lead to `t`.  `Run.simulate`: a step-by-step simulation by a second
system gives one of whole runs, with the same labels; `Run.follow` and `Run.follow_some` with other
labels, or with some of them left out.  `run_snoc`, `run_cons`: the last and the first step of a run.
`Run.keeps`, `Run.origin`: what a run keeps, and where in a run a property that holds at its end comes
from.
-/

namespace Lts

/-- from `s` the steps labelled `ls` lead to `t` -/
inductive Run {σ ℓ : Type} (step : σ → ℓ → σ → Prop) (s : σ) : List ℓ → σ → Prop where
  | nil : Run step s [] s
  | snoc {ls : List ℓ} {l : ℓ} {t u : σ} : Run step s ls t → step t l u → Run step s (ls ++ [l]) u

section
variable {σ ℓ : Type} {step : σ → ℓ → σ → Prop} {s t u : σ} {l : ℓ} {ls ls' : List ℓ}

theorem run_nil : Run step s [] t ↔ t = s := by
  constructor
  · intro h
    generalize e : ([] : List ℓ) = ls at h
    cases h with
    | nil => rfl
    | snoc h hl => exact absurd e.symm (by simp)
  · rintro rfl
    exact .nil

theorem run_snoc : Run step s (ls ++ [l]) u ↔ ∃ t, Run step s ls t ∧ step t l u := by
  constructor
  · intro h
    generalize e : ls ++ [l] = ls' at h
    cases h with
    | nil => exact absurd e (by simp)
    | snoc h hl =>
      obtain ⟨rfl, e'⟩ := List.append_inj' e rfl
      obtain rfl := List.head_eq_of_cons_eq e'
      exact ⟨_, h, hl⟩
  · rintro ⟨t, h, hl⟩
    exact .snoc h hl

theorem run_append : Run step s (ls ++ ls') u ↔ ∃ t, Run step s ls t ∧ Run step t ls' u := by
  induction ls' using List.reverseRecOn generalizing u with
  | nil => simp [run_nil]
  | append_singleton ls' l ih =>
    rw [← List.append_assoc, run_snoc]
    simp only [ih, run_snoc]
    constructor
    · rintro ⟨v, ⟨t, h1, h2⟩, h3⟩
      exact ⟨t, h1, v, h2, h3⟩
    · rintro ⟨t, h1, v, h2, h3⟩
      exact ⟨v, ⟨t, h1, h2⟩, h3⟩

theorem run_cons : Run step s (l :: ls) u ↔ ∃ t, step s l t ∧ Run step t ls u := by
  have h : Run step s ([] ++ [l] ++ ls) u ↔ _ := run_append
  simp only [run_snoc, run_nil] at h
  simpa using h

end

namespace Run
variable {σ τ ℓ : Type} {step : σ → ℓ → σ → Prop}

theorem single {s t : σ} {l : ℓ} (h : step s l t) : Run step s [l] t := snoc nil h

/-- **Forward simulation**: a relation that every step can follow is followed by every run. -/
theorem simulate (step' : τ → ℓ → τ → Prop) {R : σ → τ → Prop}
    (hstep : ∀ s a l t, R s a → step s l t → ∃ b, step' a l b ∧ R t b)
    {s t : σ} {a : τ} {ls : List ℓ} (h : Run step s ls t) (hs : R s a) :
    ∃ b, Run step' a ls b ∧ R t b := by
  induction h with
  | nil => exact ⟨a, nil, hs⟩
  | snoc _ hl ih =>
    obtain ⟨b, hb, hR⟩ := ih
    obtain ⟨c, hc, hR'⟩ := hstep _ _ _ _ hR hl
    exact ⟨c, snoc hb hc, hR'⟩

/-- **Simulation with other labels**: every step can be followed by one whose label goes with it. -/
theorem follow {κ : Type} {E : ℓ → κ → Prop} (step' : τ → κ → τ → Prop) {R : σ → τ → Prop}
    (hstep : ∀ s a l t, R s a → step s l t → ∃ k b, E l k ∧ step' a k b ∧ R t b)
    {s t : σ} {a : τ} {ls : List ℓ} (h : Run step s ls t) (hs : R s a) :
    ∃ ks b, List.Forall₂ E ls ks ∧ Run step' a ks b ∧ R t b := by
  induction h with
  | nil => exact ⟨[], a, .nil, nil, hs⟩
  | snoc _ hl ih =>
    obtain ⟨ks, b, hE, hb, hR⟩ := ih
    obtain ⟨k, c, hk, hc, hR'⟩ := hstep _ _ _ _ hR hl
    exact ⟨ks ++ [k], c, List.rel_append hE (.cons hk .nil), snoc hb hc, hR'⟩

/-- **Simulation of some of the steps**: those with labels in `K` are followed, and the others keep the
relation. -/
theorem follow_some {K : ℓ → Prop} [DecidablePred K] (step' : τ → ℓ → τ → Prop) {R : σ → τ → Prop}
    (hstep : ∀ s a l t, R s a → K l → step s l t → ∃ b, step' a l b ∧ R t b)
    (hstill : ∀ s a l t, R s a → ¬ K l → step s l t → R t a)
    {s t : σ} {a : τ} {ls : List ℓ} (h : Run step s ls t) (hs : R s a) :
    ∃ b, Run step' a (ls.filter K) b ∧ R t b := by
  induction h with
  | nil => exact ⟨a, nil, hs⟩
  | @snoc ls l t u _ hl ih =>
    obtain ⟨b, hb, hR⟩ := ih
    rw [List.filter_append]
    by_cases hK : K l
    · obtain ⟨c, hc, hR'⟩ := hstep _ _ _ _ hR hK hl
      have e : [l].filter (fun k => K k) = [l] := by simp [hK]
      rw [e]
      exact ⟨c, snoc hb hc, hR'⟩
    · have e : [l].filter (fun k => K k) = [] := by simp [hK]
      rw [e, List.append_nil]
      exact ⟨b, hb, hstill _ _ _ _ hR hK hl⟩

/-- **What the steps with labels in `K` keep** is kept by a run of such steps. -/
theorem keeps {I : σ → Prop} {K : ℓ → Prop} (hstep : ∀ s l t, I s → K l → step s l t → I t)
    {s t : σ} {ls : List ℓ} (h : Run step s ls t) (hs : I s) (hK : ∀ l ∈ ls, K l) : I t := by
  induction h with
  | nil => exact hs
  | @snoc ls l t u _ hl ih =>
    have h1 := ih fun k hk => hK k (List.mem_append_left _ hk)
    exact hstep _ _ _ h1 (hK l (by simp)) hl

/-- **Where a property comes from**: when a step to a state with `P` has a label in `B`, or has one in
`K` and starts with `P`, then a run from a state without `P` to one with `P` has a last step with a
label in `B`, and only labels in `K` after it. -/
theorem origin {P : σ → Prop} {B K : ℓ → Prop}
    (hstep : ∀ s l t, step s l t → P t → B l ∨ P s ∧ K l) {s t : σ} {ls : List ℓ}
    (h : Run step s ls t) (hs : ¬ P s) (ht : P t) : ∃ pre l post u, ls = pre ++ l :: post ∧
      B l ∧ Run step s (pre ++ [l]) u ∧ P u ∧ Run step u post t ∧ ∀ k ∈ post, K k := by
  induction h with
  | nil => exact absurd ht hs
  | @snoc ls l v t hv hl ih =>
    rcases hstep _ _ _ hl ht with hB | ⟨hP, hK⟩
    · exact ⟨ls, l, [], t, rfl, hB, snoc hv hl, ht, nil, fun k hk => absurd hk List.not_mem_nil⟩
    · obtain ⟨pre, k, post, u, e, hB, h1, hu, h2, h3⟩ := ih hP
      refine ⟨pre, k, post ++ [l], u, by rw [e]; simp, hB, h1, hu, snoc h2 hl, fun j hj => ?_⟩
      rcases List.mem_append.mp hj with hj | hj
      · exact h3 j hj
      · rwa [List.mem_singleton.mp hj]

end Run
end Lts

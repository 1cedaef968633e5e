import SegList.Lib.Prog

/-!
# What a program costs

A state with a counter `μ`.  `Costs μ n m`: a run of `m` that returns adds at most `n` to it, in
whatever state it starts.  The cost of a sequence is the sum (`Costs.bind`), where the continuation is
charged first, so that the cost of a function can be given as a number.
-/

set_option linter.unusedSectionVars false

namespace Prog
variable {σ α β : Type} {μ : σ → Nat} {n k : Nat}

/-- a run of `m` that returns adds at most `n` to the counter -/
def Costs (μ : σ → Nat) (n : Nat) (m : Prog σ α) : Prop :=
  ∀ s r t, m s = some (r, t) → μ t ≤ μ s + n

namespace Costs

theorem le {m : Prog σ α} (h : Costs μ n m) (hn : n ≤ k) : Costs μ k m := by
  intro s r t hr
  have := h s r t hr
  omega

theorem pure (r : α) : Costs μ n (Pure.pure r : Prog σ α) := by
  intro s r' t h
  obtain ⟨-, rfl⟩ := Prod.mk.inj (Option.some.inj h)
  exact Nat.le_add_right _ _

/-- **The cost of a sequence.** -/
theorem bind {m : Prog σ α} {f : α → Prog σ β} (hm : Costs μ n m) (hf : ∀ a, Costs μ k (f a)) :
    Costs μ (k + n) (m >>= f) := by
  intro s r u h
  obtain ⟨a, t, h1, h2⟩ := bind_eq_some.mp h
  have h3 := hm s a t h1
  have h4 := hf a t r u h2
  omega

theorem ite {c : Prop} [Decidable c] {m m' : Prog σ α} (hm : Costs μ n m) (hm' : Costs μ n m') :
    Costs μ n (if c then m else m') := by
  split
  · exact hm
  · exact hm'

theorem ends {m : Prog σ α} {s : σ} {Q : α → σ → Prop} (h : Costs μ n m) (he : Ends m s Q) :
    Ends m s (fun _ t => μ t ≤ μ s + n) := by
  obtain ⟨r, t, hr, -⟩ := he
  exact ⟨r, t, hr, h s r t hr⟩

end Costs
end Prog

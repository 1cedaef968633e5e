import SegList.Lib.Prog

/-!
# Two programs in lockstep

`Lockstep R V m m'`: from states related by `R` either both programs return, with results related by
`V` and in states related by `R`, or neither does.  One rule for each program former; a program that
`R` does not see (`Unseen`) may be added on the right.
-/

namespace Prog
variable {σ τ α α' β β' : Type}

/-- `m` and `m'` keep step with each other -/
def Lockstep (R : σ → τ → Prop) (V : α → β → Prop) (m : Prog σ α) (m' : Prog τ β) : Prop :=
  ∀ s s', R s s' → Option.Rel (fun x y => V x.1 y.1 ∧ R x.2 y.2) (m s) (m' s')

/-- `m` returns, and no state it leads to is seen to differ -/
def Unseen (R : σ → τ → Prop) (m : Prog τ β) : Prop :=
  ∀ s', ∃ y t', m s' = some (y, t') ∧ ∀ s, R s s' → R s t'

namespace Lockstep
variable {R : σ → τ → Prop} {V : α → β → Prop} {W : α' → β' → Prop}
variable {m n : Prog σ α} {m' n' : Prog τ β}

theorem pure {x : α} {y : β} (h : V x y) :
    Lockstep R V (Pure.pure x : Prog σ α) (Pure.pure y : Prog τ β) :=
  fun _ _ hR => .some ⟨h, hR⟩

theorem never (h : ∀ s, m s = none) (h' : ∀ s, m' s = none) : Lockstep R V m m' := by
  intro s s' _
  rw [h, h']
  exact .none

theorem bind {f : α → Prog σ α'} {f' : β → Prog τ β'} (hm : Lockstep R V m m')
    (hf : ∀ x y, V x y → Lockstep R W (f x) (f' y)) : Lockstep R W (m >>= f) (m' >>= f') := by
  intro s s' hR
  have h := hm s s' hR
  rw [bind_run, bind_run]
  generalize m s = o, m' s' = o' at h ⊢
  cases h with
  | none => exact .none
  | some h => exact hf _ _ h.1 _ _ h.2

theorem ite {c c' : Prop} [Decidable c] [Decidable c'] (hc : c ↔ c') (hm : Lockstep R V m m')
    (hn : Lockstep R V n n') : Lockstep R V (if c then m else n) (if c' then m' else n') := by
  by_cases h : c
  · rwa [if_pos h, if_pos (hc.mp h)]
  · rwa [if_neg h, if_neg (mt hc.mpr h)]

theorem front {k : Prog τ β'} {f' : β' → Prog τ β} (hk : Unseen R k)
    (hf : ∀ y, Lockstep R V m (f' y)) : Lockstep R V m (k >>= f') := by
  intro s s' hR
  obtain ⟨y, t', h, hR'⟩ := hk s'
  rw [bind_run, h]
  exact hf y s t' (hR' s hR)

theorem behind {f' : β → Prog τ β'} {W : α → β' → Prop} (hm : Lockstep R V m m')
    (hf : ∀ x y, V x y → Lockstep R W (Pure.pure x : Prog σ α) (f' y)) :
    Lockstep R W m (m' >>= f') := by
  have h := hm.bind hf
  rwa [bind_pure] at h

end Lockstep
end Prog

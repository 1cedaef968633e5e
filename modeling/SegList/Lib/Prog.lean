import Mathlib.Order.Defs.Unbundled

/-!
# Programs over a state that may fail to return

`Prog σ α` is a program on the state `σ` with result `α`; `none` means that it does not return
(a loop that never ends, an exit).  Two notions, each with one rule per program former:

* `Ends m s Q`    total correctness: `m` started in `s` returns, with a result and a final state
                  that satisfy `Q`;
* `Moves R m`     every run of `m` that returns moves the state along `R` (frame conditions: a
                  field that is never written, a log that only grows).

`Built P m`: the program `m` is made of statements in `P`.  Said once of a program, it gives every
frame condition of these statements, an end when each of them has one, and every relation between
states that they respect (`Respects R m`).
-/

set_option linter.unusedSectionVars false

abbrev Prog (σ α : Type) := StateT σ Option α

namespace Prog
variable {σ α β : Type}

/-- `m` started in `s` returns, and its result and its final state satisfy `Q` -/
def Ends (m : Prog σ α) (s : σ) (Q : α → σ → Prop) : Prop :=
  ∃ r t, m s = some (r, t) ∧ Q r t

/-! ## total correctness -/

@[simp] theorem ends_pure (r : α) (s : σ) (Q : α → σ → Prop) :
    Ends (pure r : Prog σ α) s Q ↔ Q r s := by
  constructor
  · rintro ⟨r', t, h, hQ⟩
    have e : (r, s) = (r', t) := Option.some.inj h
    obtain ⟨rfl, rfl⟩ := Prod.mk.inj e
    exact hQ
  · intro hQ
    exact ⟨r, s, rfl, hQ⟩

theorem bind_run (m : Prog σ α) (f : α → Prog σ β) (s : σ) :
    (m >>= f) s = (m s).bind (fun x => f x.1 x.2) := rfl

theorem bind_eq_some {m : Prog σ α} {f : α → Prog σ β} {s u : σ} {r : β} :
    (m >>= f) s = some (r, u) ↔ ∃ a t, m s = some (a, t) ∧ f a t = some (r, u) := by
  rw [bind_run, Option.bind_eq_some_iff]
  constructor
  · rintro ⟨⟨a, t⟩, h1, h2⟩
    exact ⟨a, t, h1, h2⟩
  · rintro ⟨a, t, h1, h2⟩
    exact ⟨(a, t), h1, h2⟩

@[simp] theorem ends_bind (m : Prog σ α) (f : α → Prog σ β) (s : σ) (Q : β → σ → Prop) :
    Ends (m >>= f) s Q ↔ Ends m s (fun r t => Ends (f r) t Q) := by
  constructor
  · rintro ⟨r, u, h, hQ⟩
    obtain ⟨a, t, h1, h2⟩ := bind_eq_some.mp h
    exact ⟨a, t, h1, r, u, h2, hQ⟩
  · rintro ⟨a, t, h1, r, u, h2, hQ⟩
    exact ⟨r, u, bind_eq_some.mpr ⟨a, t, h1, h2⟩, hQ⟩

theorem Ends.mono {m : Prog σ α} {s : σ} {Q Q' : α → σ → Prop} (h : Ends m s Q)
    (hQ : ∀ r t, Q r t → Q' r t) : Ends m s Q' := by
  obtain ⟨r, t, e, hr⟩ := h
  exact ⟨r, t, e, hQ r t hr⟩

theorem ends_of_run {m : Prog σ α} {s t : σ} {r : α} {Q : α → σ → Prop}
    (h : m s = some (r, t)) : Ends m s Q ↔ Q r t := by
  constructor
  · rintro ⟨r', t', h', hQ⟩
    rw [h] at h'
    obtain ⟨rfl, rfl⟩ := Prod.mk.inj (Option.some.inj h')
    exact hQ
  · intro hQ
    exact ⟨r, t, h, hQ⟩

theorem Ends.of_run {m : Prog σ α} {s t : σ} {r : α} {Q : α → σ → Prop}
    (h : Ends m s Q) (hr : m s = some (r, t)) : Q r t := (ends_of_run hr).mp h

/-- a program that returns, run; `d` stands where it would not -/
theorem Ends.run_eq {m : Prog σ α} {s d : σ} {r : α} {Q : σ → Prop}
    (h : Ends m s (fun x t => x = r ∧ Q t)) :
    m s = some (r, (m s).elim d Prod.snd) ∧ Q ((m s).elim d Prod.snd) := by
  obtain ⟨x, t, e, rfl, hQ⟩ := h
  rw [e]
  exact ⟨rfl, hQ⟩

theorem ends_ite_pos {c : Prop} [Decidable c] {m n : Prog σ α} {s : σ} {Q : α → σ → Prop}
    (hc : c) : Ends (if c then m else n) s Q ↔ Ends m s Q := by
  rw [if_pos hc]

theorem ends_ite_neg {c : Prop} [Decidable c] {m n : Prog σ α} {s : σ} {Q : α → σ → Prop}
    (hc : ¬ c) : Ends (if c then m else n) s Q ↔ Ends n s Q := by
  rw [if_neg hc]

theorem ends_ite {c : Prop} [Decidable c] {m n : Prog σ α} {s : σ} {Q : α → σ → Prop} :
    Ends (if c then m else n) s Q ↔ (c → Ends m s Q) ∧ (¬ c → Ends n s Q) := by
  by_cases hc : c
  · simp [hc]
  · simp [hc]

/-! ## frame conditions -/

/-- every run of `m` that returns moves the state along `R` -/
def Moves (R : σ → σ → Prop) (m : Prog σ α) : Prop :=
  ∀ s r t, m s = some (r, t) → R s t

namespace Moves
variable {R : σ → σ → Prop}

theorem pure [Std.Refl R] (r : α) : Moves R (Pure.pure r : Prog σ α) := by
  intro s r' t h
  have e : (r, s) = (r', t) := Option.some.inj h
  obtain ⟨-, rfl⟩ := Prod.mk.inj e
  exact Std.Refl.refl s

theorem bind [IsTrans σ R] {m : Prog σ α} {f : α → Prog σ β} (hm : Moves R m)
    (hf : ∀ a, Moves R (f a)) : Moves R (m >>= f) := by
  intro s r u h
  obtain ⟨a, t, h1, h2⟩ := bind_eq_some.mp h
  exact IsTrans.trans _ _ _ (hm s a t h1) (hf a t r u h2)

theorem ite {c : Prop} [Decidable c] {m n : Prog σ α} (hm : Moves R m) (hn : Moves R n) :
    Moves R (if c then m else n) := by
  split
  · exact hm
  · exact hn

/-- a program that never returns satisfies every frame condition -/
theorem never {m : Prog σ α} (h : ∀ s, m s = none) : Moves R m := by
  intro s r t hr
  rw [h s] at hr
  exact absurd hr (by simp)

end Moves

theorem Ends.with_moves {m : Prog σ α} {s : σ} {Q : α → σ → Prop} {R : σ → σ → Prop}
    (h : Ends m s Q) (hR : Moves R m) : Ends m s (fun r t => Q r t ∧ R s t) := by
  obtain ⟨r, t, e, hQ⟩ := h
  exact ⟨r, t, e, hQ, hR s r t e⟩

/-! ## programs made of given statements -/

/-- `m` is a sequence of statements in `P`, each of which may depend on the results before it -/
inductive Built (P : (α : Type) → Prog σ α → Prop) : {α : Type} → Prog σ α → Prop where
  | stmt {α : Type} {m : Prog σ α} : P α m → Built P m
  | pure {α : Type} (r : α) : Built P (Pure.pure r)
  | bind {α β : Type} {m : Prog σ α} {f : α → Prog σ β} :
      Built P m → (∀ a, Built P (f a)) → Built P (m >>= f)

namespace Built
variable {P P' : (α : Type) → Prog σ α → Prop} {R : σ → σ → Prop}

theorem ite {c : Prop} [Decidable c] {m n : Prog σ α} (hm : Built P m) (hn : Built P n) :
    Built P (if c then m else n) := by
  split
  · exact hm
  · exact hn

theorem mono {m : Prog σ α} (h : Built P m) (hP : ∀ α m, P α m → P' α m) : Built P' m := by
  induction h with
  | stmt hs => exact .stmt (hP _ _ hs)
  | pure r => exact .pure r
  | bind _ _ ihm ihf => exact .bind ihm ihf

/-- **A frame condition of the statements is one of the program.** -/
theorem moves [Std.Refl R] [IsTrans σ R] {m : Prog σ α} (h : Built P m)
    (hP : ∀ α m, P α m → Moves R m) : Moves R m := by
  induction h with
  | stmt hs => exact hP _ _ hs
  | pure r => exact .pure r
  | bind _ _ ihm ihf => exact .bind ihm ihf

/-- **A program returns when its statements do.** -/
theorem ends {m : Prog σ α} (h : Built P m)
    (hP : ∀ α m, P α m → ∀ s, Ends m s (fun _ _ => True)) (s : σ) :
    Ends m s (fun _ _ => True) := by
  induction h generalizing s with
  | stmt hs => exact hP _ _ hs s
  | pure r => exact ⟨r, s, rfl, trivial⟩
  | bind _ _ ihm ihf => exact (ends_bind _ _ _ _).mpr ((ihm s).mono fun a t _ => ihf a t)

end Built

/-! ## the same program from related states -/

/-- `m`, run from states related by `R`, gives the same result and states related by `R` -/
def Respects (R : σ → σ → Prop) (m : Prog σ α) : Prop :=
  ∀ s s', R s s' → ∀ r t, m s = some (r, t) → ∃ t', m s' = some (r, t') ∧ R t t'

/-- **A relation that the statements respect is respected by the program.** -/
theorem Built.respects {P : (α : Type) → Prog σ α → Prop} {R : σ → σ → Prop} {m : Prog σ α}
    (h : Built P m) (hP : ∀ α m, P α m → Respects R m) : Respects R m := by
  induction h with
  | stmt hs => exact hP _ _ hs
  | pure r =>
    intro s s' hR r' t hr
    obtain ⟨rfl, rfl⟩ := Prod.mk.inj (Option.some.inj hr)
    exact ⟨s', rfl, hR⟩
  | bind _ _ ihm ihf =>
    intro s s' hR r u hr
    obtain ⟨a, t, h1, h2⟩ := bind_eq_some.mp hr
    obtain ⟨t', h3, hR'⟩ := ihm s s' hR a t h1
    obtain ⟨u', h4, hR''⟩ := ihf a t t' hR' r u h2
    exact ⟨u', bind_eq_some.mpr ⟨a, t', h3, h4⟩, hR''⟩

theorem Respects.ends {R : σ → σ → Prop} {m : Prog σ α} (h : Respects R m) {s s' : σ}
    (hR : R s s') {Q Q' : α → σ → Prop} (hQ : ∀ r t t', Q r t → R t t' → Q' r t')
    (he : Ends m s Q) : Ends m s' Q' := by
  obtain ⟨r, t, h1, h2⟩ := he
  obtain ⟨t', h3, hR'⟩ := h s s' hR r t h1
  exact ⟨r, t', h3, hQ r t t' h2 hR'⟩

end Prog

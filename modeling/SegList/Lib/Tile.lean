import Mathlib.Algebra.GroupWithZero.Nat
import Mathlib.Algebra.BigOperators.Group.List.Basic

/-!
# Tilings of an interval by consecutive pieces

A piece `b : β` covers `[addr b, addr b + size b)`.  `Tiled addr size a bs e`: the pieces `bs`, in
this order, cover `[a, e)` without gap or overlap.

* `tiled_append`                cutting a tiling in two;
* `Tiled.bounds`, `Tiled.apart` where the pieces lie, two pieces never overlap;
* `Tiled.eq_of_addr`            a piece is determined by its address;
* `Tiled.sum`                   the sizes add up to the length of the interval;
* `Tiled.replace`               pieces in the middle exchanged for others that cover the same part;
* `Tiled.canonical`             a tiling without loose neighbours is determined by its fixed pieces;
* `sum_le_gaps`                 and is not much longer than these, when its loose pieces are short;
* `focus`                       a list cut at the piece with a given address.
-/

set_option linter.unusedSectionVars false

namespace Tile
variable {β : Type} (addr size : β → Nat)

/-- the pieces `bs` cover `[a, e)` in this order -/
def Tiled : Nat → List β → Nat → Prop
  | a, [], e => a = e
  | a, b :: bs, e => addr b = a ∧ 0 < size b ∧ Tiled (a + size b) bs e

variable {addr size}

theorem tiled_nil {a e : Nat} : Tiled addr size a [] e ↔ a = e := Iff.rfl

theorem tiled_cons {a e : Nat} {b : β} {bs : List β} :
    Tiled addr size a (b :: bs) e ↔ addr b = a ∧ 0 < size b ∧ Tiled addr size (a + size b) bs e :=
  Iff.rfl

theorem tiled_append {a e : Nat} {l r : List β} :
    Tiled addr size a (l ++ r) e ↔ ∃ m, Tiled addr size a l m ∧ Tiled addr size m r e := by
  induction l generalizing a with
  | nil =>
    constructor
    · intro h
      exact ⟨a, rfl, h⟩
    · rintro ⟨m, rfl, h⟩
      exact h
  | cons b l ih =>
    rw [List.cons_append, tiled_cons, ih]
    constructor
    · rintro ⟨h1, h2, m, h3, h4⟩
      exact ⟨m, ⟨h1, h2, h3⟩, h4⟩
    · rintro ⟨m, ⟨h1, h2, h3⟩, h4⟩
      exact ⟨h1, h2, m, h3, h4⟩

theorem tiled_single {a e : Nat} {b : β} :
    Tiled addr size a [b] e ↔ addr b = a ∧ 0 < size b ∧ a + size b = e := Iff.rfl

namespace Tiled
variable {a e : Nat} {bs : List β}

theorem le (h : Tiled addr size a bs e) : a ≤ e := by
  induction bs generalizing a with
  | nil => exact Nat.le_of_eq h
  | cons b bs ih =>
    have h1 := ih h.2.2
    omega

theorem bounds (h : Tiled addr size a bs e) {b : β} (hb : b ∈ bs) :
    a ≤ addr b ∧ 0 < size b ∧ addr b + size b ≤ e := by
  induction bs generalizing a with
  | nil => exact absurd hb (List.not_mem_nil)
  | cons c bs ih =>
    obtain ⟨h1, h2, h3⟩ := h
    rcases List.mem_cons.mp hb with rfl | hb
    · have := le h3
      omega
    · have := ih h3 hb
      omega

theorem apart (h : Tiled addr size a bs e) {x y : β} (hx : x ∈ bs) (hy : y ∈ bs) (hne : x ≠ y) :
    addr x + size x ≤ addr y ∨ addr y + size y ≤ addr x := by
  induction bs generalizing a with
  | nil => exact absurd hx (List.not_mem_nil)
  | cons b bs ih =>
    obtain ⟨h1, h2, h3⟩ := h
    rcases List.mem_cons.mp hx with rfl | hx' <;> rcases List.mem_cons.mp hy with hyb | hy'
    · exact absurd hyb.symm hne
    · have := h3.bounds hy'
      omega
    · have := h3.bounds hx'
      rw [hyb]
      omega
    · exact ih h3 hx' hy'

theorem eq_of_addr (h : Tiled addr size a bs e) {x y : β} (hx : x ∈ bs) (hy : y ∈ bs)
    (hxy : addr x = addr y) : x = y := by
  by_contra hne
  have h1 := h.apart hx hy hne
  have h2 := h.bounds hx
  have h3 := h.bounds hy
  omega

theorem nodup (h : Tiled addr size a bs e) : bs.Nodup := by
  induction bs generalizing a with
  | nil => exact List.nodup_nil
  | cons b bs ih =>
    obtain ⟨h1, h2, h3⟩ := h
    refine List.nodup_cons.mpr ⟨fun hb => ?_, ih h3⟩
    have := h3.bounds hb
    omega

theorem sum (h : Tiled addr size a bs e) : a + (bs.map size).sum = e := by
  induction bs generalizing a with
  | nil => exact h
  | cons b bs ih =>
    have h1 := ih h.2.2
    rw [List.map_cons, List.sum_cons]
    omega

theorem length_mul_le (h : Tiled addr size a bs e) {k : Nat} (hk : ∀ b ∈ bs, k ≤ size b) :
    a + k * bs.length ≤ e := by
  induction bs generalizing a with
  | nil => exact Nat.le_of_eq h
  | cons b bs ih =>
    have h1 := ih h.2.2 (fun c hc => hk c (List.mem_cons_of_mem _ hc))
    have h2 := hk b List.mem_cons_self
    rw [List.length_cons, Nat.mul_succ]
    omega

theorem dvd_addr (h : Tiled addr size a bs e) {d : Nat} (ha : d ∣ a) (hd : ∀ b ∈ bs, d ∣ size b) :
    d ∣ e ∧ ∀ b ∈ bs, d ∣ addr b := by
  induction bs generalizing a with
  | nil =>
    have h1 : a = e := h
    exact ⟨h1 ▸ ha, fun b hb => absurd hb (List.not_mem_nil)⟩
  | cons c bs ih =>
    obtain ⟨h1, -, h3⟩ := h
    have hc := hd c List.mem_cons_self
    obtain ⟨h4, h5⟩ := ih h3 ((Nat.dvd_add_right ha).mpr hc)
      (fun b hb => hd b (List.mem_cons_of_mem _ hb))
    refine ⟨h4, fun b hb => ?_⟩
    rcases List.mem_cons.mp hb with rfl | hb
    · exact h1 ▸ ha
    · exact h5 b hb

theorem split {pre post : List β} {b : β} (h : Tiled addr size a (pre ++ b :: post) e) :
    Tiled addr size a pre (addr b) ∧ 0 < size b ∧ Tiled addr size (addr b + size b) post e := by
  obtain ⟨m, h1, h2, h3, h4⟩ := tiled_append.mp h
  subst h2
  exact ⟨h1, h3, h4⟩

/-- two tilings of the same pieces, not none, from and to somewhere, are from and to the same -/
theorem ends_eq (h : Tiled addr size a bs e) {a' e' : Nat} (h' : Tiled addr size a' bs e')
    (hne : bs ≠ []) : a = a' ∧ e = e' := by
  cases bs with
  | nil => exact absurd rfl hne
  | cons b bs =>
    have h1 : a = a' := h.1.symm.trans h'.1
    have h2 := h.sum
    have h3 := h'.sum
    omega

/-- **Pieces in the middle are exchanged** for others that cover the same part. -/
theorem replace {pre mid mid' post : List β} {u v : Nat}
    (h : Tiled addr size a (pre ++ mid ++ post) e) (hne : mid ≠ [])
    (hm : Tiled addr size u mid v) (hm' : Tiled addr size u mid' v) :
    Tiled addr size a (pre ++ mid' ++ post) e := by
  obtain ⟨n, hn, hpost⟩ := tiled_append.mp h
  obtain ⟨m, hpre, hmid⟩ := tiled_append.mp hn
  obtain ⟨rfl, rfl⟩ := hmid.ends_eq hm hne
  exact tiled_append.mpr ⟨n, tiled_append.mpr ⟨m, hpre, hm'⟩, hpost⟩

/-! ### a canonical form

Some pieces are fixed, the others are loose.  When no two neighbours are loose, each loose piece
fills a gap between fixed ones, so the fixed pieces determine the tiling. -/

/-- after a loose piece comes the end or a fixed piece -/
theorem loose_head {F : β → Prop} {b : β} (h : Tiled addr size a (b :: bs) e)
    (hc : (b :: bs).IsChain (fun x y => F x ∨ F y)) (hb : ¬ F b) :
    a + size b = e ∨ ∃ c ∈ bs, F c ∧ addr c = a + size b := by
  cases bs with
  | nil => exact Or.inl h.2.2
  | cons c bs =>
    have hfix : F c := (List.isChain_cons_cons.mp hc).1.resolve_left hb
    exact Or.inr ⟨c, List.mem_cons_self, hfix, h.2.2.1⟩

/-- a loose piece is not shorter than a loose piece of another tiling with the same fixed ones -/
theorem loose_le {F : β → Prop} {x y : β} {xs ys : List β}
    (hl : Tiled addr size a (x :: xs) e) (hr : Tiled addr size a (y :: ys) e)
    (hc : (x :: xs).IsChain (fun x y => F x ∨ F y)) (hx : ¬ F x) (hy : ¬ F y)
    (hk : ∀ c, F c → c ∈ x :: xs → c ∈ y :: ys) : size y ≤ size x := by
  have hend := hr.2.2.le
  rcases hl.loose_head hc hx with he | ⟨c, hcx, hfix, hca⟩
  · omega
  · have hcy : c ∈ y :: ys := hk c hfix (List.mem_cons_of_mem _ hcx)
    have hne : c ≠ y := by
      rintro rfl
      exact hy hfix
    have h1 := hr.1
    have h2 := hl.2.1
    have h3 := hr.apart hcy List.mem_cons_self hne
    have h4 := hr.bounds hcy
    omega

theorem head_eq {F : β → Prop} (hext : ∀ x y, ¬ F x → ¬ F y → addr x = addr y →
      size x = size y → x = y) {x y : β} {xs ys : List β}
    (hl : Tiled addr size a (x :: xs) e) (hr : Tiled addr size a (y :: ys) e)
    (hcl : (x :: xs).IsChain (fun x y => F x ∨ F y))
    (hcr : (y :: ys).IsChain (fun x y => F x ∨ F y))
    (hk : ∀ c, F c → (c ∈ x :: xs ↔ c ∈ y :: ys)) : x = y := by
  have hxy : addr x = addr y := hl.1.trans hr.1.symm
  by_cases hx : F x
  · exact hr.eq_of_addr ((hk x hx).mp List.mem_cons_self) List.mem_cons_self hxy
  by_cases hy : F y
  · exact hl.eq_of_addr List.mem_cons_self ((hk y hy).mpr List.mem_cons_self) hxy
  refine hext x y hx hy hxy (Nat.le_antisymm ?_ ?_)
  · exact loose_le hr hl hcr hy hx fun c hc => (hk c hc).mpr
  · exact loose_le hl hr hcl hx hy fun c hc => (hk c hc).mp

/-- **Canonical form**: two tilings of an interval with the same fixed pieces and without loose
neighbours are equal. -/
theorem canonical {F : β → Prop} (hext : ∀ x y, ¬ F x → ¬ F y → addr x = addr y →
      size x = size y → x = y) {l r : List β} (hl : Tiled addr size a l e)
    (hr : Tiled addr size a r e) (hcl : l.IsChain (fun x y => F x ∨ F y))
    (hcr : r.IsChain (fun x y => F x ∨ F y)) (hk : ∀ c, F c → (c ∈ l ↔ c ∈ r)) : l = r := by
  induction l generalizing a r with
  | nil =>
    have he : a = e := hl
    cases r with
    | nil => rfl
    | cons y ys =>
      have h1 := hr.2.1
      have h2 := hr.2.2.le
      omega
  | cons x xs ih =>
    cases r with
    | nil =>
      have he : a = e := hr
      have h1 := hl.2.1
      have h2 := hl.2.2.le
      omega
    | cons y ys =>
      obtain rfl := head_eq hext hl hr hcl hcr hk
      have hnl := (List.nodup_cons.mp hl.nodup).1
      have hnr := (List.nodup_cons.mp hr.nodup).1
      refine congrArg (x :: ·) (ih hl.2.2 hr.2.2 hcl.of_cons hcr.of_cons fun c hc => ?_)
      constructor
      · intro h
        refine (List.mem_cons.mp ((hk c hc).mp (List.mem_cons_of_mem _ h))).resolve_left ?_
        rintro rfl
        exact hnl h
      · intro h
        refine (List.mem_cons.mp ((hk c hc).mpr (List.mem_cons_of_mem _ h))).resolve_left ?_
        rintro rfl
        exact hnr h

end Tiled

/-- **How long a tiling without loose neighbours is** when its loose pieces have size at most `k`: each
of them has a fixed piece to its left, but for the one at the start, if there is one. -/
theorem sum_le_gaps {F : β → Prop} [DecidablePred F] {bs : List β} {k : Nat}
    (hc : bs.IsChain (fun x y => F x ∨ F y)) (hk : ∀ b ∈ bs, ¬ F b → size b ≤ k) :
    (bs.map size).sum ≤ ((bs.filter F).map size).sum + ((bs.filter F).length + 1) * k ∧
    ((∀ b ∈ bs.head?, F b) →
      (bs.map size).sum ≤ ((bs.filter F).map size).sum + (bs.filter F).length * k) := by
  induction bs with
  | nil => exact ⟨Nat.zero_le _, fun _ => Nat.zero_le _⟩
  | cons b bs ih =>
    obtain ⟨hany, hfix⟩ := ih hc.of_cons fun c h => hk c (List.mem_cons_of_mem _ h)
    rw [List.map_cons, List.sum_cons]
    by_cases hb : F b
    · have e : (b :: bs).filter F = b :: bs.filter F := List.filter_cons_of_pos (by simpa using hb)
      rw [e, List.map_cons, List.sum_cons, List.length_cons, Nat.succ_mul _ k]
      exact ⟨by omega, fun _ => by omega⟩
    · have e : (b :: bs).filter F = bs.filter F := List.filter_cons_of_neg (by simpa using hb)
      have hhead : ∀ c ∈ bs.head?, F c := by
        intro c h
        cases bs with
        | nil => exact absurd h (by simp)
        | cons d bs =>
          obtain rfl := Option.some.inj h
          exact (List.isChain_cons_cons.mp hc).1.resolve_left hb
      have h1 := hfix hhead
      have h2 := hk b List.mem_cons_self hb
      rw [e, Nat.succ_mul]
      exact ⟨by omega, fun h => absurd (h b rfl) hb⟩

/-! ## cutting a list at an address -/

variable (addr)

/-- the part before the first piece at `x`, that piece, and the part after it -/
def focus (x : Nat) : List β → Option (List β × β × List β)
  | [] => none
  | b :: bs =>
    if addr b = x then some ([], b, bs)
    else (focus x bs).map (fun (l, c, r) => (b :: l, c, r))

variable {addr}

theorem focus_eq_some {x : Nat} {bs pre post : List β} {b : β}
    (h : focus addr x bs = some (pre, b, post)) : bs = pre ++ b :: post ∧ addr b = x := by
  induction bs generalizing pre with
  | nil => exact absurd h (by simp [focus])
  | cons c bs ih =>
    rw [focus] at h
    by_cases hc : addr c = x
    · rw [if_pos hc] at h
      obtain ⟨rfl, h2⟩ := Prod.mk.inj (Option.some.inj h)
      obtain ⟨rfl, rfl⟩ := Prod.mk.inj h2
      exact ⟨rfl, hc⟩
    · rw [if_neg hc] at h
      obtain ⟨⟨l, d, r⟩, h1, h2⟩ := Option.map_eq_some_iff.mp h
      obtain ⟨rfl, h3⟩ := Prod.mk.inj h2
      obtain ⟨rfl, rfl⟩ := Prod.mk.inj h3
      obtain ⟨rfl, h4⟩ := ih h1
      exact ⟨rfl, h4⟩

theorem focus_append {x : Nat} {pre post : List β} {b : β} (hpre : ∀ c ∈ pre, addr c ≠ x)
    (hb : addr b = x) : focus addr x (pre ++ b :: post) = some (pre, b, post) := by
  induction pre with
  | nil => rw [List.nil_append, focus, if_pos hb]
  | cons c pre ih =>
    rw [List.cons_append, focus, if_neg (hpre c List.mem_cons_self),
      ih (fun d hd => hpre d (List.mem_cons_of_mem _ hd))]
    rfl

theorem Tiled.focus_eq {a e : Nat} {pre post : List β} {b : β}
    (h : Tiled addr size a (pre ++ b :: post) e) :
    focus addr (addr b) (pre ++ b :: post) = some (pre, b, post) := by
  refine focus_append (fun c hc hcb => ?_) rfl
  have h1 := h.split.1.bounds hc
  omega

theorem focus_eq_none {x : Nat} {bs : List β} (h : ∀ b ∈ bs, addr b ≠ x) :
    focus addr x bs = none := by
  induction bs with
  | nil => rfl
  | cons b bs ih =>
    rw [focus, if_neg (h b List.mem_cons_self), ih (fun c hc => h c (List.mem_cons_of_mem _ hc))]
    rfl

theorem focus_map {f : β → β} {x y : Nat} {bs : List β} (h : ∀ b ∈ bs, addr (f b) = y ↔ addr b = x) :
    focus addr y (bs.map f) = (focus addr x bs).map (fun (l, b, r) => (l.map f, f b, r.map f)) := by
  induction bs with
  | nil => rfl
  | cons b bs ih =>
    have hb := h b List.mem_cons_self
    rw [List.map_cons, focus, focus]
    by_cases hx : addr b = x
    · rw [if_pos hx, if_pos (hb.mpr hx)]
      rfl
    · rw [if_neg hx, if_neg (mt hb.mp hx), ih fun c hc => h c (List.mem_cons_of_mem _ hc),
        Option.map_map, Option.map_map]
      rfl

end Tile

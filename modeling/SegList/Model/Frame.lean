import SegList.Model.View

/-!
# What no function undoes

Which statements a function is made of says what it can change, on any heap whatever and without
an invariant.  `Access` is a word access or a look at a static variable, `Search` may also fail to
end, `Stmt` may also move the break and set `heap_listp`.  One lemma for each function says of what
it is made (`place_built`, ...), and `Built.moves` turns that into frame conditions:

* `Grows s t`         the log of `t` extends that of `s`;
* `Rests s t`         and the break is the same;
* `Adds P s t`        the events that were added are all in `P`;
* `Bounded s t`       the arena is the same, and the break is still at or below its end;
* `Covered s t`        every byte that changed is in a word that was written.

`access_respects`: two heaps that differ in the log only are changed alike.
-/

set_option linter.unusedSectionVars false

open Bytes Prog

namespace SegList

/-! ## statements -/

/-- a word access, or `mem_heap_lo()` -/
inductive Access : (α : Type) → M α → Prop where
  | get (p : Nat) : Access Nat (get p)
  | put (p v : Nat) : Access Unit (put p v)
  | lo : Access Nat memHeapLo

/-- an access, or no end -/
inductive Search : (α : Type) → M α → Prop where
  | access {α : Type} {m : M α} : Access α m → Search α m
  | never {α : Type} : Search α diverge

/-- a statement of `mm.c` other than `memcpy` -/
inductive Stmt : (α : Type) → M α → Prop where
  | search {α : Type} {m : M α} : Search α m → Stmt α m
  | sbrk (incr : Int) : Stmt Nat (memSbrk incr)
  | listp : Stmt Nat heapListp
  | setListp (p : Nat) : Stmt Unit (setHeapListp p)

section
variable {α : Type} {m : M α}

lemma Access.ends (h : Access α m) (s : Heap) : Ends m s (fun _ _ => True) := by
  cases h with
  | get p => exact ⟨_, _, rfl, trivial⟩
  | put p v => exact ⟨_, _, rfl, trivial⟩
  | lo => exact ⟨_, _, rfl, trivial⟩

lemma built_search (h : Built Access m) : Built Search m := h.mono fun _ _ h => .access h

lemma built_stmt (h : Built Search m) : Built Stmt m := h.mono fun _ _ h => .search h

end

/-! ## macros -/

section
variable (p v : Nat)

lemma get_built : Built Access (get p) := .stmt (.get p)

lemma put_built : Built Access (put p v) := .stmt (.put p v)

lemma memHeapLo_built : Built Access memHeapLo := .stmt .lo

lemma getSize_built : Built Access (getSize p) := (get_built p).bind fun _ => .pure _

lemma getAlloc_built : Built Access (getAlloc p) := (get_built p).bind fun _ => .pure _

lemma ftrp_built : Built Access (ftrp p) := (getSize_built _).bind fun _ => .pure _

lemma nextBlkp_built : Built Access (nextBlkp p) := (getSize_built _).bind fun _ => .pure _

lemma prevBlkp_built : Built Access (prevBlkp p) := (getSize_built _).bind fun _ => .pure _

lemma ftrpOf_built {m : M Nat} (h : Built Access m) : Built Access (ftrpOf m) :=
  h.bind fun _ => h.bind fun _ => (getSize_built _).bind fun _ => .pure _

lemma put_ftrp_built : Built Access (ftrp p >>= fun q => put q v) :=
  (ftrp_built p).bind fun q => put_built q v

end

/-! ## lists -/

section
variable (p q n : Nat)

lemma findBucketFrom_built (rounds k : Nat) : Built Access (findBucketFrom n rounds k) := by
  induction rounds generalizing k with
  | zero => exact .pure _
  | succ rounds ih => exact .ite (memHeapLo_built.bind fun _ => .pure _) (ih (k + 1))

lemma findBucket_built : Built Access (findBucket n) := findBucketFrom_built n _ _

lemma findFitNodes_built (fuel node : Nat) : Built Search (findFitNodes n fuel node) := by
  induction fuel generalizing node with
  | zero => exact .stmt .never
  | succ fuel ih =>
    refine .ite ((built_search (getSize_built _)).bind fun _ => .ite (.pure _) ?_) (.pure _)
    exact (built_search (get_built node)).bind fun next => ih next

lemma findFitBuckets_built (fuel bucket : Nat) : Built Search (findFitBuckets n fuel bucket) := by
  induction fuel generalizing bucket with
  | zero => exact .stmt .never
  | succ fuel ih =>
    refine (built_search memHeapLo_built).bind fun lo => .ite ?_ (.pure _)
    refine (built_search (get_built bucket)).bind fun node => ?_
    refine (findFitNodes_built n _ node).bind fun o => ?_
    cases o with
    | none => exact ih _
    | some b => exact .pure b

lemma findFit_built : Built Search (findFit n) :=
  (built_search (findBucket_built n)).bind fun b => findFitBuckets_built n _ b

lemma addToBucket_head : ∃ f, addToBucket p q = get q >>= f ∧ ∀ node, Built Access (f node) := by
  refine ⟨_, rfl, fun node => (put_built _ _).bind fun _ => (put_built _ _).bind fun _ => ?_⟩
  exact .ite (put_built _ _) ((put_built _ _).bind fun _ => (put_built _ _).bind fun _ =>
    put_built _ _)

lemma addToBucket_built : Built Access (addToBucket p q) := by
  obtain ⟨f, e, hf⟩ := addToBucket_head p q
  rw [e]
  exact (get_built q).bind hf

lemma addToSeglist_built : Built Access (addToSeglist p) :=
  (getSize_built _).bind fun _ => (findBucket_built _).bind fun b => addToBucket_built p b

lemma removeFromBucket_head :
    ∃ f, removeFromBucket p q = get q >>= f ∧ ∀ node, Built Access (f node) := by
  refine ⟨_, rfl, fun node => .ite ?_ ?_⟩
  · exact (get_built p).bind fun _ => (put_built _ _).bind fun _ => (get_built p).bind fun _ =>
      .ite (put_built _ _) (.pure _)
  · refine (get_built _).bind fun node => ?_
    refine .bind (.ite ((get_built p).bind fun _ => put_built _ _) (.pure _)) fun _ => ?_
    exact (get_built _).bind fun _ => .ite (put_built _ _) (.pure _)

lemma removeFromBucket_built : Built Access (removeFromBucket p q) := by
  obtain ⟨f, e, hf⟩ := removeFromBucket_head p q
  rw [e]
  exact (get_built q).bind hf

lemma removeFromSeglist_built : Built Access (removeFromSeglist p) :=
  (getSize_built _).bind fun _ => (findBucket_built _).bind fun b => removeFromBucket_built p b

end

/-! ## blocks -/

section
variable (bp n : Nat)

lemma place_built : Built Access (place bp n) := by
  refine (getSize_built _).bind fun csize => .ite ?_ ?_
  · refine (removeFromSeglist_built bp).bind fun _ => (put_built _ _).bind fun _ => ?_
    refine (ftrp_built bp).bind fun _ => (put_built _ _).bind fun _ => ?_
    refine (nextBlkp_built bp).bind fun next => (put_built _ _).bind fun _ => ?_
    exact (ftrp_built next).bind fun _ => (put_built _ _).bind fun _ => addToSeglist_built next
  · refine (removeFromSeglist_built bp).bind fun _ => (put_built _ _).bind fun _ => ?_
    exact put_ftrp_built bp _

lemma coalesce_built : Built Access (coalesce bp) := by
  have hend : ∀ q, Built Access (addToSeglist q >>= fun _ => (pure q : M Nat)) := fun q =>
    (addToSeglist_built q).bind fun _ => .pure q
  refine (ftrpOf_built (prevBlkp_built bp)).bind fun _ => ?_
  refine (getAlloc_built _).bind fun prevAlloc => (nextBlkp_built bp).bind fun next => ?_
  refine (getAlloc_built _).bind fun nextAlloc => (getSize_built _).bind fun size => ?_
  refine .ite (hend bp) (.ite ?_ (.ite ?_ ?_))
  · refine (nextBlkp_built bp).bind fun _ => (getSize_built _).bind fun _ => ?_
    refine (nextBlkp_built bp).bind fun q => (removeFromSeglist_built q).bind fun _ => ?_
    refine (put_built _ _).bind fun _ => (ftrp_built bp).bind fun _ => ?_
    exact (put_built _ _).bind fun _ => hend bp
  · refine (prevBlkp_built bp).bind fun _ => (getSize_built _).bind fun _ => ?_
    refine (prevBlkp_built bp).bind fun q => (removeFromSeglist_built q).bind fun _ => ?_
    refine (ftrp_built bp).bind fun _ => (put_built _ _).bind fun _ => ?_
    refine (prevBlkp_built bp).bind fun _ => (put_built _ _).bind fun _ => ?_
    exact (prevBlkp_built bp).bind hend
  · refine (prevBlkp_built bp).bind fun _ => (getSize_built _).bind fun _ => ?_
    refine (ftrpOf_built (nextBlkp_built bp)).bind fun _ => ?_
    refine (getSize_built _).bind fun _ => (nextBlkp_built bp).bind fun q => ?_
    refine (removeFromSeglist_built q).bind fun _ => (prevBlkp_built bp).bind fun q => ?_
    refine (removeFromSeglist_built q).bind fun _ => (prevBlkp_built bp).bind fun _ => ?_
    refine (put_built _ _).bind fun _ => (ftrpOf_built (nextBlkp_built bp)).bind fun _ => ?_
    exact (put_built _ _).bind fun _ => (prevBlkp_built bp).bind hend

/-- what `extend_heap` does after `mem_sbrk` -/
lemma newBlock_built (size : Nat) : Built Access (do
    put (hdrp bp) (pack size 0)
    put (← ftrp bp) (pack size 0)
    put (hdrp (← nextBlkp bp)) (pack 0 1)
    coalesce bp) := by
  refine (put_built _ _).bind fun _ => (ftrp_built bp).bind fun _ => (put_built _ _).bind fun _ => ?_
  exact (nextBlkp_built bp).bind fun _ => (put_built _ _).bind fun _ => coalesce_built bp

lemma extendHeap_built : Built Stmt (extendHeap n) :=
  .bind (.stmt (.sbrk _)) fun bp => .ite (.pure _) (built_stmt (built_search (newBlock_built bp _)))

lemma mmFree_built (p : Nat) : Built Access (mmFree p) := by
  refine (getSize_built _).bind fun _ => (put_built _ _).bind fun _ => ?_
  refine (ftrp_built _).bind fun _ => (put_built _ _).bind fun _ => ?_
  exact (coalesce_built _).bind fun _ => .pure _

end

/-! ## the package -/

lemma clearBuckets_built (count bucket : Nat) : Built Access (clearBuckets count bucket) := by
  induction count generalizing bucket with
  | zero => exact .pure _
  | succ count ih => exact (put_built _ _).bind fun _ => ih _

lemma mmInit_built : Built Stmt mmInit := by
  have hp : ∀ p v, Built Stmt (put p v) := fun p v => built_stmt (built_search (put_built p v))
  refine .bind (.stmt (.sbrk _)) fun p => .bind (.stmt (.setListp p)) fun _ => .ite (.pure _) ?_
  refine .bind (.bind (.stmt (.sbrk _)) fun _ => built_stmt (built_search (clearBuckets_built _ _)))
    fun _ => ?_
  refine .bind (.stmt (.setListp _)) fun _ => (hp _ _).bind fun _ => (hp _ _).bind fun _ => ?_
  refine (hp _ _).bind fun _ => (hp _ _).bind fun _ => .bind (.stmt (.setListp _)) fun _ => ?_
  exact (extendHeap_built _).bind fun _ => .ite (.pure _) (.pure _)

lemma mmMalloc_built (n : Nat) : Built Stmt (mmMalloc n) := by
  have hplace : ∀ bp size, Built Stmt (place bp size >>= fun _ =>
      (pure (addW bp DSIZE) : M Nat)) := fun bp size =>
    (built_stmt (built_search (place_built bp size))).bind fun _ => .pure _
  refine .bind (.stmt .listp) fun _ => .bind (.ite (mmInit_built.bind fun _ => .pure _) (.pure _))
    fun _ => ?_
  refine .ite (.pure _) ((built_stmt (findFit_built _)).bind fun bp => .ite (hplace bp _) ?_)
  exact (extendHeap_built _).bind fun bp => .ite (.pure _) (hplace bp _)

/-! ## frame conditions -/

/-- the log grew -/
def Grows (s t : Heap) : Prop := s.trace <:+ t.trace

/-- the log grew and the break did not move -/
def Rests (s t : Heap) : Prop := Grows s t ∧ t.memBrk = s.memBrk

/-- the log grew by events in `P` -/
def Adds (P : Event → Prop) (s t : Heap) : Prop := ∃ evs, t.trace = evs ++ s.trace ∧ ∀ e ∈ evs, P e

/-- the arena is the same, and the break did not get above its end -/
structure Bounded (s t : Heap) : Prop where
  start : t.memStartBrk = s.memStartBrk
  maxAddr : t.memMaxAddr = s.memMaxAddr
  brk : s.memBrk ≤ s.memMaxAddr → t.memBrk ≤ t.memMaxAddr

/-- a byte that changed is in a word whose write is in the log -/
def Covered (s t : Heap) : Prop :=
  Grows s t ∧ ∀ x, t.mem x ≠ s.mem x → ∃ p brk, .store p brk ∈ t.trace ∧ p ≤ x ∧ x < p + 4

/-- a frame condition of every word access -/
class Quiet (R : Heap → Heap → Prop) : Prop extends Std.Refl R, IsTrans Heap R where
  load (s : Heap) (p : Nat) : R s (s.log (.load p s.memBrk))
  store (s : Heap) (p v : Nat) : R s (s.store p v)

/-- a word is read or written -/
def Event.IsAccess : Event → Prop
  | .load _ _ => True
  | .store _ _ => True
  | _ => False

/-- no bytes are copied -/
def Event.NotCopy : Event → Prop
  | .memcpy _ _ _ => False
  | _ => True

instance : Quiet Grows where
  refl s := List.suffix_refl s.trace
  trans _ _ _ h1 h2 := List.IsSuffix.trans h1 h2
  load _ _ := List.suffix_cons _ _
  store _ _ _ := List.suffix_cons _ _

instance : Quiet Rests where
  refl s := ⟨Std.Refl.refl (r := Grows) s, rfl⟩
  trans _ _ _ h1 h2 := ⟨IsTrans.trans _ _ _ h1.1 h2.1, h2.2.trans h1.2⟩
  load s p := ⟨Quiet.load s p, rfl⟩
  store s p v := ⟨Quiet.store s p v, rfl⟩

section
variable {α : Type} {m : M α} {P : Event → Prop} {R : Heap → Heap → Prop} {s t u : Heap}

lemma Adds.refl (P : Event → Prop) (s : Heap) : Adds P s s :=
  ⟨[], rfl, fun _ h => absurd h (List.not_mem_nil)⟩

lemma Adds.single {e : Event} (ht : t.trace = e :: s.trace) (he : P e) : Adds P s t :=
  ⟨[e], ht, fun _ h => List.mem_singleton.mp h ▸ he⟩

lemma Adds.trans (h : Adds P s t) (h' : Adds P t u) : Adds P s u := by
  obtain ⟨evs, e, he⟩ := h
  obtain ⟨evs', e', he'⟩ := h'
  refine ⟨evs' ++ evs, by rw [e', e, List.append_assoc], fun ev hev => ?_⟩
  rcases List.mem_append.mp hev with hev | hev
  · exact he' ev hev
  · exact he ev hev

lemma Adds.filterMap {β : Type} {f : Event → Option β} (h : Adds P s t)
    (hf : ∀ e, P e → f e = none) : ∃ evs, t.trace = evs ++ s.trace ∧ evs.filterMap f = [] := by
  obtain ⟨evs, e, he⟩ := h
  exact ⟨evs, e, List.filterMap_eq_nil_iff.mpr fun ev hev => hf ev (he ev hev)⟩

instance : Quiet (Adds Event.IsAccess) where
  refl s := Adds.refl _ s
  trans _ _ _ h1 h2 := h1.trans h2
  load _ _ := .single rfl trivial
  store _ _ _ := .single rfl trivial

instance : Quiet (Adds Event.NotCopy) where
  refl s := Adds.refl _ s
  trans _ _ _ h1 h2 := h1.trans h2
  load _ _ := .single rfl trivial
  store _ _ _ := .single rfl trivial

instance : Quiet Bounded where
  refl _ := ⟨rfl, rfl, id⟩
  trans _ _ _ h1 h2 := ⟨h2.start.trans h1.start, h2.maxAddr.trans h1.maxAddr, h2.brk ∘ h1.brk⟩
  load _ _ := ⟨rfl, rfl, id⟩
  store _ _ _ := ⟨rfl, rfl, id⟩

instance : Quiet Covered where
  refl s := ⟨Std.Refl.refl (r := Grows) s, fun _ hx => absurd rfl hx⟩
  trans s t u h1 h2 := by
    refine ⟨IsTrans.trans _ _ _ h1.1 h2.1, fun x hx => ?_⟩
    by_cases ht : t.mem x = s.mem x
    · exact h2.2 x (by rwa [ht])
    · obtain ⟨p, brk, hp, hle, hlt⟩ := h1.2 x ht
      exact ⟨p, brk, h2.1.subset hp, hle, hlt⟩
  load s p := ⟨Quiet.load s p, fun _ hx => absurd rfl hx⟩
  store s p v := by
    refine ⟨Quiet.store s p v, fun x hx => ⟨p, s.memBrk, List.mem_cons_self, ?_⟩⟩
    by_contra hout
    exact hx (setWord_of_outside s.mem (by omega))

lemma Covered.below (h : Covered s t) (hc : t.Clean) {x : Nat} (hx : x < t.memStartBrk) :
    t.mem x = s.mem x := by
  by_contra hne
  obtain ⟨p, brk, hp, hle, -⟩ := h.2 x hne
  have := (hc _ hp).2.1
  omega

/-- programs that only access words, or never end, keep every such condition -/
lemma built_moves [Quiet R] (h : Built Search m) : Moves R m := by
  refine h.moves fun β m hm => ?_
  cases hm with
  | never => exact .never fun _ => rfl
  | access ha =>
    intro s r t hr
    cases ha with
    | get p =>
      obtain ⟨-, rfl⟩ := Prod.mk.inj (Option.some.inj hr)
      exact Quiet.load s p
    | put p v =>
      obtain ⟨-, rfl⟩ := Prod.mk.inj (Option.some.inj hr)
      exact Quiet.store s p v
    | lo =>
      obtain ⟨-, rfl⟩ := Prod.mk.inj (Option.some.inj hr)
      exact Std.Refl.refl s

lemma access_moves [Quiet R] (h : Built Access m) : Moves R m := built_moves (built_search h)

lemma access_ends (h : Built Access m) (s : Heap) : Ends m s (fun _ _ => True) :=
  h.ends (fun _ _ ha => ha.ends) s

/-- the statements that are left: the break moved, `heap_listp` read or set -/
lemma stmt_moves [Quiet R] (h : Built Stmt m) (hb : ∀ incr, Moves R (memSbrk incr))
    (hl : ∀ s p, R s { s with heapListp := p }) : Moves R m := by
  refine h.moves fun β m hm => ?_
  cases hm with
  | search hs => exact built_moves (.stmt hs)
  | sbrk incr => exact hb incr
  | listp =>
    intro s r t hr
    obtain ⟨-, rfl⟩ := Prod.mk.inj (Option.some.inj hr)
    exact Std.Refl.refl s
  | setListp p =>
    intro s r t hr
    obtain ⟨-, rfl⟩ := Prod.mk.inj (Option.some.inj hr)
    exact hl s p

end

lemma memSbrk_grows (incr : Int) : Moves Grows (memSbrk incr) := by
  intro s r t h
  unfold memSbrk at h
  split at h
  · obtain ⟨-, rfl⟩ := Prod.mk.inj (Option.some.inj h)
    exact (List.suffix_cons _ _).trans (List.suffix_cons _ _)
  · obtain ⟨-, rfl⟩ := Prod.mk.inj (Option.some.inj h)
    exact List.suffix_cons _ _

lemma memSbrk_notCopy (incr : Int) : Moves (Adds Event.NotCopy) (memSbrk incr) := by
  intro s r t h
  unfold memSbrk at h
  split at h
  · obtain ⟨-, rfl⟩ := Prod.mk.inj (Option.some.inj h)
    exact (Adds.single rfl trivial).trans (Adds.single rfl trivial)
  · obtain ⟨-, rfl⟩ := Prod.mk.inj (Option.some.inj h)
    exact .single rfl trivial

lemma memSbrk_bounded (incr : Int) : Moves Bounded (memSbrk incr) := by
  intro s r t h
  unfold memSbrk at h
  split at h
  · obtain ⟨-, rfl⟩ := Prod.mk.inj (Option.some.inj h)
    exact ⟨rfl, rfl, id⟩
  · next hc =>
    obtain ⟨-, rfl⟩ := Prod.mk.inj (Option.some.inj h)
    exact ⟨rfl, rfl, fun _ => Nat.le_of_not_lt fun hlt => hc (Or.inr hlt)⟩

lemma memSbrk_covered (incr : Int) : Moves Covered (memSbrk incr) := by
  intro s r t h
  refine ⟨memSbrk_grows incr s r t h, fun x hx => ?_⟩
  unfold memSbrk at h
  split at h
  · obtain ⟨-, rfl⟩ := Prod.mk.inj (Option.some.inj h)
    exact absurd rfl hx
  · obtain ⟨-, rfl⟩ := Prod.mk.inj (Option.some.inj h)
    exact absurd rfl hx

lemma stmt_grows {α : Type} {m : M α} (h : Built Stmt m) : Moves Grows m :=
  stmt_moves h memSbrk_grows fun s _ => Std.Refl.refl (r := Grows) s

lemma stmt_notCopy {α : Type} {m : M α} (h : Built Stmt m) : Moves (Adds Event.NotCopy) m :=
  stmt_moves h memSbrk_notCopy fun s _ => Adds.refl _ s

lemma stmt_bounded {α : Type} {m : M α} (h : Built Stmt m) : Moves Bounded m :=
  stmt_moves h memSbrk_bounded fun _ _ => ⟨rfl, rfl, id⟩

lemma stmt_covered {α : Type} {m : M α} (h : Built Stmt m) : Moves Covered m :=
  stmt_moves h memSbrk_covered fun s _ => Std.Refl.refl (r := Covered) s

/-! ## the parts of a request -/

section
variable {s t : Heap} {n r : Nat}

lemma extendHeap_parts {R : Heap → Heap → Prop} [Quiet R] {w : Nat}
    (h : extendHeap w s = some (r, t)) : ∃ bp u,
    memSbrk (toInt (if w % 2 ≠ 0 then mulW (addW w 1) WSIZE else mulW w WSIZE)) s = some (bp, u) ∧
      R u t := by
  obtain ⟨bp, u, h1, h2⟩ := bind_eq_some.mp h
  have hM : Moves R (if bp = minusOne then pure 0 else do
      put (hdrp bp) (pack (if w % 2 ≠ 0 then mulW (addW w 1) WSIZE else mulW w WSIZE) 0)
      put (← ftrp bp) (pack (if w % 2 ≠ 0 then mulW (addW w 1) WSIZE else mulW w WSIZE) 0)
      put (hdrp (← nextBlkp bp)) (pack 0 1)
      coalesce bp) := .ite (.pure _) (access_moves (newBlock_built bp _))
  exact ⟨bp, u, h1, hM u r t h2⟩

lemma mmMalloc_parts {R : Heap → Heap → Prop} [Quiet R] (hl : s.heapListp ≠ 0) (h0 : n ≠ 0)
    (h : mmMalloc n s = some (r, t)) :
    ∃ bp u, findFit (align (addW n OVERHEAD) / WSIZE) s = some (bp, u) ∧ (bp ≠ 0 ∧ R u t ∨
      bp = 0 ∧ ∃ q v, extendHeap (max (align (addW n OVERHEAD)) CHUNKSIZE / WSIZE) u = some (q, v) ∧
        R v t) := by
  have hplace : ∀ bp, Moves R (place bp (align (addW n OVERHEAD)) >>= fun _ =>
      (pure (addW bp DSIZE) : M Nat)) := fun bp =>
    (access_moves (place_built bp _)).bind fun _ => .pure _
  unfold mmMalloc at h
  obtain ⟨l, s1, h1, h⟩ := bind_eq_some.mp h
  obtain ⟨rfl, rfl⟩ := Prod.mk.inj (Option.some.inj h1)
  rw [if_neg hl, pure_bind, if_neg h0] at h
  obtain ⟨bp, u, h2, h⟩ := bind_eq_some.mp h
  refine ⟨bp, u, h2, ?_⟩
  by_cases hbp : bp = 0
  · rw [if_neg (not_not.mpr hbp)] at h
    obtain ⟨q, v, h3, h⟩ := bind_eq_some.mp h
    exact Or.inr ⟨hbp, q, v, h3, Moves.ite (.pure _) (hplace q) v r t h⟩
  · rw [if_pos hbp] at h
    exact Or.inl ⟨hbp, hplace bp u r t h⟩

/-- a request once `mm_init` has run: the search, then the block found or new space -/
lemma mmMalloc_ends (hl : s.heapListp ≠ 0) (h0 : n ≠ 0) {Q : Nat → Heap → Prop} :
    Ends (mmMalloc n) s Q ↔ Ends (findFit (align (addW n OVERHEAD) / WSIZE)) s (fun bp u =>
      (bp ≠ 0 → Ends (place bp (align (addW n OVERHEAD))) u (fun _ v => Q (addW bp DSIZE) v)) ∧
      (bp = 0 → Ends (extendHeap (max (align (addW n OVERHEAD)) CHUNKSIZE / WSIZE)) u (fun q v =>
        (q = 0 → Q 0 v) ∧
        (q ≠ 0 → Ends (place q (align (addW n OVERHEAD))) v (fun _ w => Q (addW q DSIZE) w))))) := by
  unfold mmMalloc
  simp only [ends_bind]
  rw [ends_heapListp, ends_ite_neg hl, ends_pure, ends_ite_neg h0]
  simp only [ends_bind, ends_ite, ends_pure, ne_eq, not_not]

end
/-! ## the log is not read -/

/-- the same bytes and static variables; the logs may differ -/
structure SameButLog (s t : Heap) : Prop where
  fixed : Fixed s t
  mem : t.mem = s.mem

/-- **What a program does to the heap does not depend on the log.** -/
lemma access_respects {α : Type} {m : M α} (h : Built Access m) : Respects SameButLog m := by
  refine h.respects fun β m hm => ?_
  intro s s' hR r t hr
  obtain ⟨⟨h1, h2, h3, h4⟩, h5⟩ := hR
  cases hm with
  | get p =>
    obtain ⟨rfl, rfl⟩ := Prod.mk.inj (Option.some.inj hr)
    refine ⟨s'.log (.load p s'.memBrk), ?_, ⟨h1, h2, h3, h4⟩, h5⟩
    show some (word s'.mem p, _) = some (word s.mem p, _)
    rw [h5]
  | put p v =>
    obtain ⟨rfl, rfl⟩ := Prod.mk.inj (Option.some.inj hr)
    exact ⟨s'.store p v, rfl, ⟨h1, h2, h3, h4⟩, congrArg (fun m => setWord m p v) h5⟩
  | lo =>
    obtain ⟨rfl, rfl⟩ := Prod.mk.inj (Option.some.inj hr)
    refine ⟨s', ?_, ⟨h1, h2, h3, h4⟩, h5⟩
    show some (s'.memStartBrk, _) = some (s.memStartBrk, _)
    rw [h1]

end SegList

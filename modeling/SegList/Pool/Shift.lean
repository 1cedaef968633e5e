import SegList.Pool.Client

/-!
# A pool somewhere else

`Pool.shift d`: the pool with all its blocks `d` bytes further up.  Addresses are compared and
subtracted only, never looked at, so every operation commutes with it: with pointers shifted too,
`0` excepted.

* `Pool.malloc_shift`, `Pool.free_shift`   the operations;
* `SoundPool.call_shift`                   a call, with what it returns.
-/

set_option linter.unusedSectionVars false

namespace SegList

/-- a pointer `d` bytes further up; `0` stays `0` -/
def shiftPtr (d p : Nat) : Nat := if p = 0 then 0 else p + d

namespace Block
variable {d : Nat} {b c : Block}

def shift (d : Nat) (b : Block) : Block := { b with addr := b.addr + d }

@[simp] lemma shift_addr : (b.shift d).addr = b.addr + d := rfl
@[simp] lemma shift_size : (b.shift d).size = b.size := rfl
@[simp] lemma shift_alloc : (b.shift d).alloc = b.alloc := rfl

lemma shift_injective (d : Nat) : Function.Injective (shift d) := by
  intro b c h
  obtain ⟨haddr, hsize, halloc⟩ := Block.mk.inj h
  cases b
  cases c
  exact Block.mk.injEq .. ▸ ⟨Nat.add_right_cancel haddr, hsize, halloc⟩

end Block

/-- the sequences of free blocks, shifted -/
def shiftLists (d : Nat) (L : Nat → List Block) : Nat → List Block := fun k => (L k).map (Block.shift d)

section
variable {L : Nat → List Block} {b : Block} {d : Nat}

lemma push_shift : push (shiftLists d L) (b.shift d) = shiftLists d (push L b) := by
  funext k
  unfold push shiftLists
  by_cases hk : k = cls b.size
  · subst hk
    rw [Block.shift_size, Function.update_self, Function.update_self, List.map_cons]
  · rw [Block.shift_size, Function.update_of_ne hk, Function.update_of_ne hk]

lemma drop_shift : drop (shiftLists d L) (b.shift d) = shiftLists d (drop L b) := by
  funext k
  unfold drop shiftLists
  by_cases hk : k = cls b.size
  · subst hk
    rw [Block.shift_size, Function.update_self, Function.update_self,
      List.map_erase (Block.shift_injective d)]
  · rw [Block.shift_size, Function.update_of_ne hk, Function.update_of_ne hk]

lemma dropOpt_shift (o : Option Block) :
    dropOpt (shiftLists d L) (o.map (Block.shift d)) = shiftLists d (dropOpt L o) := by
  cases o with
  | none => rfl
  | some b => exact drop_shift

lemma popFree_shift (bs : List Block) : popFree (bs.map (Block.shift d)) =
    ((popFree bs).1.map (Block.shift d), (popFree bs).2.map (Block.shift d)) := by
  cases bs with
  | nil => rfl
  | cons b bs =>
    rw [List.map_cons, popFree, popFree, Block.shift_alloc]
    split
    · rfl
    · rfl

lemma merged_shift (p n : Option Block) :
    merged (p.map (Block.shift d)) (b.shift d) (n.map (Block.shift d)) = (merged p b n).shift d := by
  cases p <;> cases n <;> rfl

end

namespace Pool

def shift (d : Nat) (a : Pool) : Pool :=
  ⟨a.blocks.map (Block.shift d), shiftLists d a.lists, a.brk + d⟩

section
variable {a : Pool} {b : Block} {d s n p base limit : Nat}

lemma initial_shift (base d : Nat) : (initial base).shift d = initial (base + d) := by
  have h := push_shift (L := fun _ => []) (b := ⟨base, 4096, false⟩) (d := d)
  have hnil : shiftLists d (fun _ => []) = fun _ => [] := rfl
  rw [hnil] at h
  unfold shift initial
  rw [← h, Nat.add_right_comm]
  rfl

lemma join_shift (pre post : List Block) (L : Nat → List Block) (brk : Nat) :
    join (pre.map (Block.shift d)) (b.shift d) (post.map (Block.shift d)) (shiftLists d L) (brk + d) =
      ((join pre b post L brk).1.shift d, (join pre b post L brk).2.shift d) := by
  unfold join shift
  simp only [← List.map_reverse, popFree_shift, merged_shift, dropOpt_shift, push_shift,
    List.map_append, List.map_cons]

lemma grow_shift (a : Pool) (e : Nat) :
    (a.shift d).grow e = ((a.grow e).1.shift d, (a.grow e).2.shift d) := by
  have h := join_shift (d := d) (b := ⟨a.brk, e, false⟩) a.blocks [] a.lists (a.brk + e)
  unfold grow
  rw [← h]
  show join _ ⟨a.brk + d, e, false⟩ [] _ (a.brk + d + e) = _
  rw [Nat.add_right_comm]
  rfl

lemma fit_shift (a : Pool) (s : Nat) : (a.shift d).fit s = (a.fit s).map (Block.shift d) := by
  unfold fit
  have h : List.flatMap (a.shift d).lists (List.range' (cls s) (classes - cls s)) =
      (List.flatMap a.lists (List.range' (cls s) (classes - cls s))).map (Block.shift d) :=
    (List.map_flatMap ..).symm
  rw [h, List.find?_map]
  rfl

lemma focus_shift {x y : Nat} (h : ∀ b ∈ a.blocks, b.addr + d = y ↔ b.addr = x) :
    Tile.focus Block.addr y (a.shift d).blocks = (Tile.focus Block.addr x a.blocks).map
      (fun (l, b, r) => (l.map (Block.shift d), b.shift d, r.map (Block.shift d))) :=
  Tile.focus_map h

lemma place_shift (a : Pool) (b : Block) (s : Nat) :
    (a.shift d).place (b.shift d) s = (a.place b s).shift d := by
  unfold place
  rw [focus_shift (x := b.addr) fun c _ => by rw [Block.shift_addr, Nat.add_right_cancel_iff]]
  cases Tile.focus Block.addr b.addr a.blocks with
  | none => rfl
  | some t =>
    obtain ⟨pre, c, post⟩ := t
    have hrest : (⟨b.addr + d + s, b.size - s, false⟩ : Block)
        = Block.shift d ⟨b.addr + s, b.size - s, false⟩ := by
      rw [Nat.add_right_comm]
      rfl
    have hlists : (a.shift d).lists = shiftLists d a.lists := rfl
    simp only [Option.map_some, Block.shift_size, Block.shift_addr, hlists, drop_shift]
    by_cases hs : 32 ≤ b.size - s
    · rw [if_pos hs, if_pos hs, hrest, push_shift]
      unfold shift
      rw [List.map_append, List.map_cons, List.map_cons]
      rfl
    · rw [if_neg hs, if_neg hs]
      unfold shift
      rw [List.map_append, List.map_cons]
      rfl

/-- **A request in the shifted pool** gets the shifted pointer. -/
theorem malloc_shift (a : Pool) (limit n : Nat) : (a.shift d).malloc (limit + d) n =
    (shiftPtr d (a.malloc limit n).1, (a.malloc limit n).2.shift d) := by
  have hptr : ∀ b : Block, b.addr + d + 8 = shiftPtr d (b.addr + 8) := by
    intro b
    unfold shiftPtr
    rw [if_neg (Nat.succ_ne_zero _), Nat.add_right_comm]
  by_cases hn : n = 0
  · rw [hn, malloc_zero, malloc_zero]
    rfl
  rcases malloc_cases limit a hn with ⟨b, hf, e⟩ | ⟨hf, hl, e⟩ | ⟨hf, hl, e⟩
  · have hf' : (a.shift d).fit (fitSize n) = some (b.shift d) := by
      rw [fit_shift, hf]
      rfl
    rw [malloc_of_fit _ hn hf', e, place_shift, Block.shift_addr, hptr]
  · have hf' : (a.shift d).fit (fitSize n) = none := by
      rw [fit_shift, hf]
      rfl
    have hl' : (a.shift d).brk + max (fitSize n) 4096 ≤ limit + d := by
      show a.brk + d + _ ≤ _
      omega
    rw [malloc_of_room hn hf' hl', e, grow_shift, place_shift, Block.shift_addr, hptr]
  · have hf' : (a.shift d).fit (fitSize n) = none := by
      rw [fit_shift, hf]
      rfl
    have hl' : limit + d < (a.shift d).brk + max (fitSize n) 4096 := by
      show _ < a.brk + d + _
      omega
    rw [malloc_of_full hn hf' hl', e]
    rfl

/-- **A block of the shifted pool given back.**  No block starts below address 8, so `p - 8` is the
address of one in both pools or in none. -/
theorem free_shift (h : WF base a) (hb : 8 ≤ base) (p : Nat) :
    (a.shift d).free (shiftPtr d p) = (a.free p).shift d := by
  have hfocus := focus_shift (a := a) (d := d) (x := p - 8) (y := shiftPtr d p - 8) (by
    intro b hbm
    have h1 := (h.tiled.bounds hbm).1
    unfold shiftPtr
    split
    · omega
    · omega)
  unfold free
  rw [hfocus]
  cases Tile.focus Block.addr (p - 8) a.blocks with
  | none => rfl
  | some t =>
    obtain ⟨pre, b, post⟩ := t
    have hjoin := join_shift (d := d) (b := { b with alloc := false }) pre post a.lists a.brk
    have hbit : (b.shift d).alloc = b.alloc := rfl
    simp only [Option.map_some]
    by_cases hu : b.alloc = true
    · rw [if_pos hu, if_pos (hbit.trans hu)]
      exact congrArg Prod.snd hjoin
    · rw [if_neg hu, if_neg (hbit ▸ hu)]

end
end Pool

/-! ## calls -/

def Call.shift (d : Nat) : Call → Call
  | .malloc n => .malloc n
  | .free p => .free (shiftPtr d p)
  | .realloc p n => .realloc (shiftPtr d p) n

lemma shiftPtr_eq_zero {d p : Nat} : shiftPtr d p = 0 ↔ p = 0 := by
  unfold shiftPtr
  split
  · tauto
  · omega

lemma shiftPtr_injective (d : Nat) : Function.Injective (shiftPtr d) := by
  intro p q h
  unfold shiftPtr at h
  split at h <;> split at h <;> omega

section
variable {base base' limit limit' d : Nat} {a : SoundPool base limit} {b : SoundPool base' limit'}

/-- **Every call in the shifted pool** returns the shifted pointer and leaves the shifted pool. -/
theorem SoundPool.call_shift (hb : 8 ≤ base) (hl : limit' = limit + d) (h : b.toPool = a.toPool.shift d) (k : Call) :
    (b.call (k.shift d)).1 = shiftPtr d (a.call k).1 ∧
      (b.call (k.shift d)).2.toPool = (a.call k).2.toPool.shift d := by
  have hm : ∀ n, (b.malloc n).1 = shiftPtr d (a.malloc n).1 ∧
      (b.malloc n).2.toPool = (a.malloc n).2.toPool.shift d := by
    intro n
    have e := Pool.malloc_shift (d := d) a.toPool limit n
    rw [← h, ← hl] at e
    exact Prod.mk.inj e
  have hf : ∀ (a' : SoundPool base limit) (b' : SoundPool base' limit') p,
      b'.toPool = a'.toPool.shift d → (b'.free (shiftPtr d p)).toPool = (a'.free p).toPool.shift d := by
    intro a' b' p h'
    show Pool.free _ _ = _
    rw [h']
    exact Pool.free_shift a'.wf hb p
  cases k with
  | malloc n => exact hm n
  | free p => exact ⟨rfl, hf a b p h⟩
  | realloc p n =>
    show (b.realloc (shiftPtr d p) n).1 = shiftPtr d (a.realloc p n).1 ∧
      (b.realloc (shiftPtr d p) n).2.toPool = (a.realloc p n).2.toPool.shift d
    rcases a.realloc_cases p n with ⟨rfl, e⟩ | ⟨h0, rfl, e⟩ | ⟨h0, hn, e⟩
    · rw [e]
      exact hm n
    · have e' : b.realloc (shiftPtr d p) 0 = (0, b.free (shiftPtr d p)) := by
        unfold SoundPool.realloc
        rw [if_neg (mt shiftPtr_eq_zero.mp h0), if_pos rfl]
      rw [e, e']
      exact ⟨rfl, hf a b p h⟩
    · rw [e, b.realloc_of_ne (mt shiftPtr_eq_zero.mp h0) hn]
      exact ⟨(hm n).1, hf _ _ p (hm n).2⟩

end
end SegList

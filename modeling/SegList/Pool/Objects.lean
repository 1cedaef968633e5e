import SegList.Pool.Client

/-!
# Objects: what `malloc`, `free` and `realloc` mean to a client

A client sees no blocks.  It has objects: a pointer, a size, and of some of the bytes it knows what
they are, because it wrote them.  `Objects.step` is the meaning of one step of the client,
`Objects.after ls` the objects after the steps labelled `ls`:

* `malloc`    makes an object of which nothing is known, unless it returned `NULL`;
* `free`      ends one;
* `realloc`   ends one and makes another, which knows what the old one knew of its first bytes;
* a write     makes one byte known, in the object it falls into.
-/

namespace SegList

/-- an object of the client -/
structure Obj where
  ptr : Nat
  size : Nat
  /-- what is known of the bytes, by their distance from `ptr` -/
  bytes : Nat → Option UInt8
  inside : ∀ i, size ≤ i → bytes i = none

namespace Obj

/-- the address lies in the object -/
def Covers (o : Obj) (x : Nat) : Prop := o.ptr ≤ x ∧ x < o.ptr + o.size

instance (o : Obj) (x : Nat) : Decidable (o.Covers x) := inferInstanceAs (Decidable (_ ∧ _))

/-- `n` bytes at `p`, the first ones known as `bytes` says -/
def make (p n : Nat) (bytes : Nat → Option UInt8) : Obj where
  ptr := p
  size := n
  bytes i := if i < n then bytes i else none
  inside _ hi := if_neg (Nat.not_lt.mpr hi)

def write (o : Obj) (x : Nat) (v : UInt8) : Obj where
  ptr := o.ptr
  size := o.size
  bytes := if o.Covers x then Function.update o.bytes (x - o.ptr) (some v) else o.bytes
  inside i hi := by
    split
    · rename_i hx
      unfold Covers at hx
      rw [Function.update_of_ne (by omega)]
      exact o.inside i hi
    · exact o.inside i hi

lemma lt_of_known {o : Obj} {i : Nat} {v : UInt8} (h : o.bytes i = some v) : i < o.size := by
  by_contra hi
  rw [o.inside i (Nat.not_lt.mp hi)] at h
  exact absurd h (by simp)

end Obj

abbrev Objects := List Obj

namespace Objects

def live (S : Objects) : Live := S.map fun o => (o.ptr, o.size)

/-- what is known of the bytes from `p` on: nothing when no object is there -/
def known (S : Objects) (p : Nat) : Nat → Option UInt8 :=
  (S.find? fun o => o.ptr = p).elim (fun _ => none) Obj.bytes

def drop (S : Objects) (p : Nat) : Objects := S.filter fun o => o.ptr ≠ p

def add (S : Objects) (o : Obj) : Objects := if o.ptr = 0 then S else o :: S

def step (S : Objects) : Label → Objects
  | .call (.malloc n) r => S.add (.make r n fun _ => none)
  | .call (.free p) _ => S.drop p
  | .call (.realloc p n) r => (S.drop p).add (.make r n (S.known p))
  | .write x v => S.map fun o => o.write x v

/-- the objects after the steps `ls`, from none -/
def after (ls : List Label) : Objects := ls.foldl step []

section
variable {S : Objects} {o o' : Obj} {p x i : Nat} {v : UInt8} {k : Call} {r : Nat}
  {ls : List Label} {l : Label}

lemma after_snoc : after (ls ++ [l]) = (after ls).step l := by
  unfold after
  rw [List.foldl_append]
  rfl

lemma mem_drop : o ∈ S.drop p ↔ o ∈ S ∧ o.ptr ≠ p := by
  unfold drop
  rw [List.mem_filter, decide_eq_true_iff]

lemma mem_add (h : o' ∈ S.add o) : o' = o ∧ o.ptr ≠ 0 ∨ o' ∈ S := by
  unfold add at h
  split at h
  · exact Or.inr h
  · rename_i hp
    exact (List.mem_cons.mp h).imp_left fun e => ⟨e, hp⟩

lemma mem_live (ho : o ∈ S) : (o.ptr, o.size) ∈ S.live := List.mem_map.mpr ⟨o, ho, rfl⟩

lemma known_eq_some (h : S.known p i = some v) : ∃ o ∈ S, o.ptr = p ∧ o.bytes i = some v := by
  unfold known at h
  cases hf : S.find? fun o => o.ptr = p with
  | none =>
    rw [hf] at h
    exact absurd h (by simp)
  | some o =>
    rw [hf] at h
    have hp := List.find?_some hf
    exact ⟨o, List.mem_of_find?_eq_some hf, of_decide_eq_true hp, h⟩

/-! ## the live pointers are those of the client -/

lemma live_drop : (S.drop p).live = lose S.live p := by
  unfold drop live lose
  rw [List.filter_map]
  rfl

lemma live_add : (S.add o).live = gain S.live o.ptr o.size := by
  unfold add gain
  split
  · rfl
  · rfl

lemma live_write : live (S.map fun o => o.write x v) = S.live := by
  unfold live
  rw [List.map_map]
  rfl

/-- **A call changes the pointers as it does for the client.** -/
lemma live_call : (S.step (.call k r)).live = k.live S.live r := by
  cases k with
  | malloc n => exact live_add
  | free p => exact live_drop
  | realloc p n =>
    show ((S.drop p).add _).live = gain (lose S.live p) r n
    rw [live_add, live_drop]
    rfl

end

end Objects
end SegList

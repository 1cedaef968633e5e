import Mathlib.Data.Nat.Bitwise

/-!
# Byte memory with little-endian 32-bit words, and 32-bit arithmetic

`Mem` is a total byte memory.  `word m a` reads the four bytes from `a` on, `setWord m a v` writes
them, `copyBytes m dst src len` is the result of a block copy.  Reads after writes:

* `word_setWord_self`, `word_setWord_of_apart`   same word, words that do not overlap;
* `setWord_of_outside`, `copyBytes_of_outside`   single bytes that are not written;
* `word_congr`                                   a word depends on its four bytes only.

`addW`, `subW`, `mulW`, `notW` are the wrapping 32-bit operations; `land_notW_seven` says what
masking the low three bits does.
-/

namespace Bytes

/-- a total byte memory -/
abbrev Mem := Nat → UInt8

/-- the little-endian word at `a` -/
def word (m : Mem) (a : Nat) : Nat :=
  (m a).toNat + 256 * (m (a + 1)).toNat + 65536 * (m (a + 2)).toNat
    + 16777216 * (m (a + 3)).toNat

/-- the memory after the word `v` is stored at `a` -/
def setWord (m : Mem) (a v : Nat) : Mem := fun x =>
  if a ≤ x ∧ x < a + 4 then UInt8.ofNat (v / 256 ^ (x - a)) else m x

/-- the memory after `len` bytes are copied from `src` to `dst` -/
def copyBytes (m : Mem) (dst src len : Nat) : Mem := fun x =>
  if dst ≤ x ∧ x < dst + len then m (src + (x - dst)) else m x

/-! ## words -/

theorem word_lt (m : Mem) (a : Nat) : word m a < 2 ^ 32 := by
  have h0 := (m a).toNat_lt
  have h1 := (m (a + 1)).toNat_lt
  have h2 := (m (a + 2)).toNat_lt
  have h3 := (m (a + 3)).toNat_lt
  unfold word
  omega

theorem word_congr {m m' : Mem} {a : Nat} (h : ∀ x, a ≤ x → x < a + 4 → m' x = m x) :
    word m' a = word m a := by
  unfold word
  rw [h a (by omega) (by omega), h (a + 1) (by omega) (by omega), h (a + 2) (by omega) (by omega),
    h (a + 3) (by omega) (by omega)]

theorem setWord_of_outside (m : Mem) {a v x : Nat} (h : x < a ∨ a + 4 ≤ x) :
    setWord m a v x = m x := by
  unfold setWord
  rw [if_neg (by omega)]

theorem setWord_inside (m : Mem) (a v i : Nat) (hi : i < 4) :
    (setWord m a v (a + i)).toNat = v / 256 ^ i % 256 := by
  unfold setWord
  rw [if_pos (by omega), Nat.add_sub_cancel_left]
  simp

theorem word_setWord_self (m : Mem) (a : Nat) {v : Nat} (hv : v < 2 ^ 32) :
    word (setWord m a v) a = v := by
  have h0 := setWord_inside m a v 0 (by omega)
  rw [Nat.add_zero] at h0
  unfold word
  rw [h0, setWord_inside m a v 1 (by omega), setWord_inside m a v 2 (by omega),
    setWord_inside m a v 3 (by omega)]
  omega

theorem word_setWord_of_apart (m : Mem) {a b v : Nat} (h : a + 4 ≤ b ∨ b + 4 ≤ a) :
    word (setWord m a v) b = word m b :=
  word_congr (fun x h1 h2 => setWord_of_outside m (by omega))

theorem copyBytes_of_outside (m : Mem) {dst src len x : Nat} (h : x < dst ∨ dst + len ≤ x) :
    copyBytes m dst src len x = m x := by
  unfold copyBytes
  rw [if_neg (by omega)]

theorem copyBytes_inside (m : Mem) (dst src : Nat) {len i : Nat} (h : i < len) :
    copyBytes m dst src len (dst + i) = m (src + i) := by
  unfold copyBytes
  rw [if_pos (by omega), Nat.add_sub_cancel_left]

/-! ## 32-bit arithmetic -/

def addW (a b : Nat) : Nat := (a + b) % 2 ^ 32
def subW (a b : Nat) : Nat := (a + 2 ^ 32 - b) % 2 ^ 32
def mulW (a b : Nat) : Nat := (a * b) % 2 ^ 32
def notW (a : Nat) : Nat := 2 ^ 32 - 1 - a

theorem addW_lt (a b : Nat) : addW a b < 2 ^ 32 := Nat.mod_lt _ (Nat.two_pow_pos 32)
theorem addW_eq {a b : Nat} (h : a + b < 2 ^ 32) : addW a b = a + b := Nat.mod_eq_of_lt h

theorem subW_eq {a b : Nat} (h : b ≤ a) (ha : a < 2 ^ 32) : subW a b = a - b := by
  unfold subW
  omega

theorem mulW_eq {a b : Nat} (h : a * b < 2 ^ 32) : mulW a b = a * b := Nat.mod_eq_of_lt h

theorem testBit_notW_seven (i : Nat) : (notW 7).testBit i = (decide (3 ≤ i) && decide (i < 32)) := by
  have e : notW 7 = (2 ^ 29 - 1) <<< 3 := by decide
  rw [e, Nat.testBit_shiftLeft, Nat.testBit_two_pow_sub_one]
  by_cases h : 3 ≤ i
  · have hi : (i - 3 < 29) = (i < 32) := by
      apply propext
      omega
    simp [h, hi]
  · simp [h]

/-- masking with `~7` rounds down to a multiple of eight -/
theorem land_notW_seven {x : Nat} (hx : x < 2 ^ 32) : x &&& notW 7 = x / 8 * 8 := by
  apply Nat.eq_of_testBit_eq
  intro i
  have e : x / 8 * 8 = (x >>> 3) <<< 3 := by
    rw [Nat.shiftLeft_eq, Nat.shiftRight_eq_div_pow]
  rw [Nat.testBit_and, testBit_notW_seven, e, Nat.testBit_shiftLeft, Nat.testBit_shiftRight]
  by_cases h3 : 3 ≤ i
  · have hi : 3 + (i - 3) = i := by omega
    by_cases h32 : i < 32
    · simp [h3, h32, hi]
    · have hz : x.testBit i = false :=
        Nat.testBit_lt_two_pow (lt_of_lt_of_le hx (Nat.pow_le_pow_right Nat.two_pos (by omega)))
      simp [h3, h32, hi, hz]
  · simp [h3]

theorem land_one (x : Nat) : x &&& 1 = x % 2 := Nat.and_one_is_mod x

theorem lor_bit {x b : Nat} (hx : x % 8 = 0) (hb : b < 2) : x ||| b = x + b := by
  have e : x = 2 ^ 3 * (x / 8) := by omega
  rw [e, ← Nat.two_pow_add_eq_or_of_lt (by omega)]

end Bytes

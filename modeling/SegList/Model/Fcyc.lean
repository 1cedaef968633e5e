import SegList.Lib.Prog
import Mathlib.Order.Lattice
import Mathlib.Logic.Function.Basic

/-!
# fcyc.c: the K-best scheme

`fcyc` measures a function again and again, until its `kbest` smallest measurements are close to each
other or there are `maxsamples` of them, and returns the smallest one.

Measurements are elements of a linear order: `double`s that are numbers.  The test whether two of them
are close, `(1 + epsilon)*values[0] >= values[kbest-1]`, is a parameter, as is one measurement, which
is a program: `clear`, `start_counter`, the function, `get_counter`.
-/

open Prog

namespace SegList

/-- `values`, an array of `kbest` entries, and `samplecount` -/
structure Sampler (α : Type) where
  values : Nat → α
  samplecount : Nat

section
variable {σ α : Type} [LinearOrder α]

/-- `init_sampler`; `calloc` clears the array -/
def initSampler (zero : α) : Sampler α := ⟨fun _ => zero, 0⟩

/-- the insertion sort of `add_sample`, from `pos` down -/
def insertSample (values : Nat → α) : Nat → Nat → α
  | 0 => values
  | pos + 1 =>
    if values pos > values (pos + 1) then
      let temp := values pos
      insertSample (Function.update (Function.update values pos (values (pos + 1))) (pos + 1) temp) pos
    else
      values

def addSample (kbest : Nat) (s : Sampler α) (val : α) : Sampler α :=
  let (pos, values) :=
    if s.samplecount < kbest then
      (s.samplecount, Function.update s.values s.samplecount val)
    else if val < s.values (kbest - 1) then
      (kbest - 1, Function.update s.values (kbest - 1) val)
    else
      (0, s.values)
  ⟨insertSample values pos, s.samplecount + 1⟩

def hasConverged (kbest : Nat) (close : α → α → Bool) (s : Sampler α) : Bool :=
  kbest ≤ s.samplecount && close (s.values 0) (s.values (kbest - 1))

/-- the loop of `fcyc`, `fuel` rounds of it -/
def fcycLoop (kbest : Nat) (maxsamples : Int) (close : α → α → Bool) (measure : Prog σ α) :
    Nat → Sampler α → Prog σ (Sampler α)
  | 0, _ => fun _ => none
  | fuel + 1, s => do
    let cyc ← measure
    let s := addSample kbest s cyc
    if ¬ hasConverged kbest close s ∧ s.samplecount < maxsamples then
      fcycLoop kbest maxsamples close measure fuel s
    else
      return s

/-- `fcyc`: every round but the first comes behind a test of `samplecount` -/
def fcyc (kbest : Nat) (maxsamples : Int) (close : α → α → Bool) (zero : α) (measure : Prog σ α) :
    Prog σ α := do
  let s ← fcycLoop kbest maxsamples close measure (maxsamples.toNat + 1) (initSampler zero)
  return s.values 0

end
end SegList

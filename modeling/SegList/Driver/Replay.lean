import SegList.Driver.Accept
import SegList.Safety.Confluence

/-!
# The same calls, the same addresses

Where a block is placed depends on the calls alone: not on the bytes that were in the arena before
`mm_init`, nor on those the client writes into its payloads.

* `SoundPool.replay_of_run`   the pool is a function of the calls, so any two runs that track it
                              agree (`Tracks.samePlacement`);
* `Replays`                   a loop of the driver that makes the call of each request follows the
                              ledger, whatever else it does;
* `placement_independent`     both, for two runs of a client and for the three runs of the driver.
-/

set_option linter.unusedSectionVars false

open Bytes Prog

namespace SegList
open Pool

/-! ## what is seen of a run -/

/-- the call that a step makes -/
def Label.call? : Label → Option Call
  | .call k _ => some k
  | .write _ _ => none

/-- what the call of a step returns -/
def Label.answer? : Label → Option Nat
  | .call _ r => some r
  | .write _ _ => none

def calls (ls : List Label) : List Call := ls.filterMap Label.call?

def answers (ls : List Label) : List Nat := ls.filterMap Label.answer?

/-- `mem_reset_brk` and `mm_init` on the heap `s`, then the steps labelled `ls`, lead to `c` -/
def Reruns (s : Heap) (ls : List Label) (c : Client) : Prop :=
  ∃ r t, restart s = some (r, t) ∧ Lts.Run Client.Step ⟨t, []⟩ ls c

/-- two runs got the same pointers, and end with the same break, blocks and lists -/
structure SamePlacement (ls ls' : List Label) (c c' : Client) : Prop where
  answers : answers ls' = answers ls
  partition : SamePartition c.heap c'.heap
  lists : ∀ k < 32, ∃ l, c.heap.bucket k = some l ∧ c'.heap.bucket k = some l

/-! ## two runs of a client -/

/-- the pool's answers to some calls, and the pool after them -/
def SoundPool.replay {base limit : Nat} :
    SoundPool base limit → List Call → List Nat × SoundPool base limit
  | a, [] => ([], a)
  | a, k :: ks => ((a.call k).1 :: ((a.call k).2.replay ks).1, ((a.call k).2.replay ks).2)

section
variable {base limit : Nat} {a b : SoundPool base limit} {ls ls' : List Label}

/-- **The pool is a function of the calls.** -/
theorem SoundPool.replay_of_run (h : Lts.Run SoundPool.Steps a ls b) :
    a.replay (calls ls) = (answers ls, b) := by
  induction ls generalizing a with
  | nil =>
    rw [Lts.run_nil] at h
    rw [h]
    rfl
  | cons l ls ih =>
    obtain ⟨a', h1, h2⟩ := Lts.run_cons.mp h
    have h3 := ih h2
    cases l with
    | call k r =>
      have h4 : a.call k = (r, a') := h1
      show ((a.call k).1 :: ((a.call k).2.replay (calls ls)).1, ((a.call k).2.replay (calls ls)).2) = _
      rw [h4, h3]
      rfl
    | write x v =>
      obtain rfl : a' = a := h1
      exact h3

end

section
variable {A : Arena} {s s' : Heap} {ls ls' : List Label} {c c' : Client}
  {a : SoundPool A.base A.limit}

lemma Reruns.tracks (hs : Ready A.lo s) (h : Reruns s ls c) :
    ∃ a, (firstPool A.lo).replay (calls ls) = (answers ls, a) ∧ Tracks A c a := by
  obtain ⟨r, t, hrt, hrun⟩ := h
  have hR : Tracks A ⟨t, []⟩ (firstPool A.lo) :=
    ⟨((restart_spec hs).of_run hrt).2, Owns.initial A.base, Nat.le_refl _⟩
  obtain ⟨a, h1, h2⟩ := hrun.simulate SoundPool.Steps (R := Tracks A)
    (fun s a l t hR hl => step_follows hR hl) hR
  exact ⟨a, SoundPool.replay_of_run h1, h2⟩

lemma Tracks.samePlacement (h : Tracks A c a) (h' : Tracks A c' a)
    (ha : answers ls' = answers ls) : SamePlacement ls ls' c c' :=
  ⟨ha, h.rep.samePartition h'.rep rfl rfl, fun _ hk => ⟨_, h.rep.bucket_eq hk, h'.rep.bucket_eq hk⟩⟩

/-- **Two runs of the same calls** place the blocks alike. -/
theorem Reruns.samePlacement (hs : Ready A.lo s) (hs' : Ready A.lo s') (h : Reruns s ls c)
    (h' : Reruns s' ls' c') (hcalls : calls ls' = calls ls) : SamePlacement ls ls' c c' := by
  obtain ⟨a, h1, hT⟩ := h.tracks hs
  obtain ⟨a', h2, hT'⟩ := h'.tracks hs'
  rw [hcalls, h1] at h2
  obtain ⟨ha, rfl⟩ := Prod.mk.inj h2
  exact hT.samePlacement hT' ha.symm

end

/-! ## the runs of the driver -/

/-- the pointers of the allocated ids are the same -/
def SameAddresses (ops : List TraceOp) (c c' : Driver Heap) : Prop :=
  ∀ id ∈ allocated ops, c'.blocks id = c.blocks id

/-- after `eval_mm_valid`, from `d` to `e`, the runs of `eval_mm_util` and `eval_mm_speed` return, and
have the same pointers as `eval_mm_valid` had after as many requests -/
structure Replayed (trace : Trace) (tn : Nat) (d e : Driver Heap) : Prop where
  util : ∀ pre c, Moment mmPackage trace tn d pre c →
    Ends (evalMmUtil mmPackage { trace with ops := pre }) e (fun _ c' => SameAddresses pre c c')
  speed : Ends (evalMmUtil mmPackage trace) e (fun _ e' =>
    ∀ pre c, Moment mmPackage trace tn d pre c →
      Ends (evalMmSpeed mmPackage { trace with ops := pre }) e' (fun _ c' => SameAddresses pre c c'))

section
variable {α β : Type}

/-- the round makes the call of the request, and remembers the pointer -/
def Serves (m : Prog (Driver Heap) α) (op : TraceOp) : Prop :=
  ∀ d r t, (op.call d.blocks).run d.heap = some (r, t) → (op.type ≠ .free → r ≠ 0) →
    Ends m d (fun _ d' => d'.heap = t ∧ d'.blocks = op.note d.blocks r)

/-- **The loop follows the ledger** when the ledger has answers. -/
def Replays (m : Prog (Driver Heap) α) (ops : List TraceOp) : Prop :=
  ∀ (A : Arena) (ids : List Nat) (numIds : Nat) (g : Ledger A.base A.limit) (d : Driver Heap),
    LegalFrom numIds MAX_HEAP ids ops → g.Answers ops → Mirrors A ids d.heap d.blocks g →
      Ends m d (fun _ d' => Mirrors A (ops.foldl TraceOp.after ids) d'.heap d'.blocks
        (ops.foldl Ledger.serve g))

lemma Replays.nil (x : α) : Replays (pure x) [] := by
  intro A ids numIds g d _ _ h
  rw [ends_pure]
  exact h

lemma Replays.cons {m : Prog (Driver Heap) α} {f : α → Prog (Driver Heap) β} {op : TraceOp}
    {ops : List TraceOp} (hm : Serves m op) (hf : ∀ x, Replays (f x) ops) :
    Replays (m >>= f) (op :: ops) := by
  intro A ids numIds g d hl ha h
  obtain ⟨t, hrun⟩ := h.runs hl.1 ha.1
  rw [ends_bind]
  refine (hm d _ t hrun ha.1).mono fun x d' hd' => ?_
  refine hf x A _ numIds _ d' hl.2 ha.2 ?_
  rw [hd'.1, hd'.2]
  exact (h.serve hl.1 hrun ha.1).2.1

variable {op : TraceOp} {total : Int × Int}

lemma free_run {p : Nat} {s t : Heap} {r : Nat} (h : (Call.free p).run s = some (r, t)) :
    mmFree p s = some ((), t) := by
  obtain ⟨_, u, h1, h2⟩ := bind_eq_some.mp h
  obtain ⟨-, rfl⟩ := Prod.mk.inj (Option.some.inj h2)
  exact h1

lemma utilOp_serves : Serves (utilOp mmPackage total op) op := by
  intro d r t hrun hr
  obtain ⟨type, index, size⟩ := op
  unfold utilOp
  cases type with
  | alloc =>
    have h : call (mmPackage.mmMalloc (toSize size)) d = some (r, { d with heap := t }) :=
      call_eq_some.mpr ⟨t, hrun, rfl⟩
    simp only [ends_bind]
    rw [ends_of_run h, ends_ite_neg (hr (by simp))]
    simp only [ends_bind, ends_setBlock, ends_setBlockSize, ends_pure]
    exact ⟨trivial, rfl⟩
  | realloc =>
    have h : call (mmPackage.mmRealloc (d.blocks index) (toSize size)) d
        = some (r, { d with heap := t }) := call_eq_some.mpr ⟨t, hrun, rfl⟩
    simp only [ends_bind, ends_getBlock, ends_getBlockSize]
    rw [ends_of_run h, ends_ite_neg (hr (by simp))]
    simp only [ends_bind, ends_setBlock, ends_setBlockSize, ends_pure]
    exact ⟨trivial, rfl⟩
  | free =>
    have h : call (mmPackage.mmFree (d.blocks index)) d = some ((), { d with heap := t }) :=
      call_eq_some.mpr ⟨t, free_run hrun, rfl⟩
    simp only [ends_bind, ends_getBlock, ends_getBlockSize]
    rw [ends_of_run h, ends_pure]
    exact ⟨rfl, rfl⟩

lemma speedOp_serves : Serves (speedOp mmPackage op) op := by
  intro d r t hrun hr
  obtain ⟨type, index, size⟩ := op
  unfold speedOp
  cases type with
  | alloc =>
    have h : call (mmPackage.mmMalloc (toSize size)) d = some (r, { d with heap := t }) :=
      call_eq_some.mpr ⟨t, hrun, rfl⟩
    simp only [ends_bind]
    rw [ends_of_run h, ends_ite_neg (hr (by simp)), ends_setBlock]
    exact ⟨rfl, rfl⟩
  | realloc =>
    have h : call (mmPackage.mmRealloc (d.blocks index) (toSize size)) d
        = some (r, { d with heap := t }) := call_eq_some.mpr ⟨t, hrun, rfl⟩
    simp only [ends_bind, ends_getBlock]
    rw [ends_of_run h, ends_ite_neg (hr (by simp)), ends_setBlock]
    exact ⟨rfl, rfl⟩
  | free =>
    have h : call (mmPackage.mmFree (d.blocks index)) d = some ((), { d with heap := t }) :=
      call_eq_some.mpr ⟨t, free_run hrun, rfl⟩
    simp only [ends_bind, ends_getBlock]
    rw [ends_of_run h]
    exact ⟨rfl, rfl⟩

lemma utilOps_replays (ops : List TraceOp) : Replays (utilOps mmPackage total ops) ops := by
  induction ops generalizing total with
  | nil => exact .nil total
  | cons op ops ih => exact .cons utilOp_serves fun total => ih

lemma speedOps_replays (ops : List TraceOp) : Replays (speedOps mmPackage ops) ops := by
  induction ops with
  | nil => exact .nil ()
  | cons op ops ih => exact .cons speedOp_serves fun _ => ih

end

section
variable {α : Type} {A : Arena} {d e : Driver Heap} {ops pre : List TraceOp} {trace : Trace}
  {numIds tn : Nat}

/-- a run of the driver that starts with a restart, and its loop -/
lemma ends_restarted (hd : Ready A.lo d.heap) {m : Prog (Driver Heap) α}
    {Q : α → Driver Heap → Prop}
    (hm : ∀ t, Rep A t (Pool.initial A.base) → Ends m { d with heap := t } Q) : Ends (do
      call mmPackage.memResetBrk
      if (← call mmPackage.mmInit) < 0 then quit else m) d Q := by
  obtain ⟨r, t, hrun, rfl, R⟩ := restart_spec hd
  obtain ⟨_, u, h1, h2⟩ := bind_eq_some.mp hrun
  have e1 : call mmPackage.memResetBrk d = some ((), { d with heap := u }) :=
    call_eq_some.mpr ⟨u, h1, rfl⟩
  have e2 : call mmPackage.mmInit { d with heap := u } = some (0, { d with heap := t }) :=
    call_eq_some.mpr ⟨t, h2, rfl⟩
  simp only [ends_bind]
  rw [ends_of_run e1, ends_of_run e2, ends_ite_neg (by omega)]
  exact hm t R

/-- **`eval_mm_util` follows the ledger.** -/
theorem evalMmUtil_mirrors (hd : Ready A.lo d.heap) (hl : LegalFrom numIds MAX_HEAP [] ops)
    (ha : (Ledger.first A).Answers ops) : Ends (evalMmUtil mmPackage ⟨numIds, ops⟩) d
      (fun _ d' => Mirrors A (allocated ops) d'.heap d'.blocks (Ledger.after A ops)) := by
  refine ends_restarted hd fun t R => ?_
  rw [ends_bind]
  refine (utilOps_replays ops A [] numIds (Ledger.first A) _ hl ha (.first R)).mono fun x d' h => ?_
  exact ⟨_, _, rfl, h⟩

/-- **`eval_mm_speed` follows the ledger.** -/
theorem evalMmSpeed_mirrors (hd : Ready A.lo d.heap) (hl : LegalFrom numIds MAX_HEAP [] ops)
    (ha : (Ledger.first A).Answers ops) : Ends (evalMmSpeed mmPackage ⟨numIds, ops⟩) d
      (fun _ d' => Mirrors A (allocated ops) d'.heap d'.blocks (Ledger.after A ops)) :=
  ends_restarted hd fun _ R =>
    speedOps_replays ops A [] numIds (Ledger.first A) _ hl ha (.first R)

lemma Mirrors.sameAddresses {c c' : Driver Heap} {g : Ledger A.base A.limit}
    (h : Mirrors A (allocated ops) c.heap c.blocks g)
    (h' : Mirrors A (allocated ops) c'.heap c'.blocks g) : SameAddresses ops c c' := fun id hid =>
  (h'.same id hid).trans (h.same id hid).symm

/-- **The three runs of the driver** have the same pointers. -/
theorem replayed (hd : Ready A.lo d.heap) (hl : trace.Legal MAX_HEAP)
    (hv : evalMmValid mmPackage trace tn d = some (1, e)) : Replayed trace tn d e := by
  have hpre : ∀ pre c, Moment mmPackage trace tn d pre c →
      LegalFrom trace.numIds MAX_HEAP [] pre ∧ (Ledger.first A).Answers pre ∧
        Mirrors A (allocated pre) c.heap c.blocks (Ledger.after A pre) := by
    intro pre c hc
    obtain ⟨post, hpost⟩ := hc.1
    have hl' : LegalFrom trace.numIds MAX_HEAP [] (pre ++ post) := by
      rw [hpost]
      exact hl
    exact ⟨hl'.of_append, hc.mirrors hd hl⟩
  obtain ⟨h1, h2, h3⟩ := hpre trace.ops e ⟨List.prefix_refl _, hv⟩
  refine ⟨fun pre c hc => ?_, ?_⟩
  · obtain ⟨h4, h5, h6⟩ := hpre pre c hc
    exact (evalMmUtil_mirrors h3.ready h4 h5).mono fun _ c' h' => h6.sameAddresses h'
  · refine (evalMmUtil_mirrors h3.ready h1 h2).mono fun _ e' he pre c hc => ?_
    obtain ⟨h4, h5, h6⟩ := hpre pre c hc
    exact (evalMmSpeed_mirrors he.ready h4 h5).mono fun _ c' h' => h6.sameAddresses h'

end

section
variable {lo : Nat}

/-- **Placement does not depend on data**: two runs that make the same calls on the same arena get
the same pointers, whatever was in memory and whatever the clients write; so do the three runs of
the driver over a trace. -/
theorem placement_independent (hb : GoodBase lo) :
    (∀ s s' ls ls' c c', Ready lo s → Ready lo s' → Reruns s ls c → Reruns s' ls' c' →
      calls ls' = calls ls → SamePlacement ls ls' c c') ∧
    ∀ trace tn d e, Ready lo d.heap → trace.Legal MAX_HEAP →
      evalMmValid mmPackage trace tn d = some (1, e) → Replayed trace tn d e := by
  constructor
  · intro s s' ls ls' c c' hs hs' h h' hk
    obtain ⟨A, rfl⟩ := hs.arena hb
    exact Reruns.samePlacement hs hs' h h' hk
  · intro trace tn d e hd hl hv
    obtain ⟨A, rfl⟩ := hd.arena hb
    exact replayed hd hl hv

namespace Sample

/-- `mm_malloc(40)` after a restart -/
lemma reruns : Reruns opened [.call (.malloc 40) 160] client := by
  obtain ⟨-, r, s, hboot, hrun⟩ := client_trail
  obtain ⟨_, u, h1, h2⟩ := bind_eq_some.mp hboot
  rw [memInit_run (by decide) (by decide)] at h1
  obtain ⟨-, rfl⟩ := Prod.mk.inj (Option.some.inj h1)
  exact ⟨r, s, bind_eq_some.mpr ⟨(), _, rfl, h2⟩, hrun⟩

/-- its first byte written -/
def scribbled : Client := ⟨used.poke 160 7, [(160, 40)]⟩

lemma reruns_scribbled : Reruns opened [.call (.malloc 40) 160, .write 160 7] scribbled := by
  obtain ⟨r, t, hrt, hrun⟩ := reruns
  have hm : (160, 40) ∈ client.live := List.mem_singleton.mpr rfl
  have hs : client.Step (.write 160 7) scribbled := .write hm (le_refl 160) (by decide)
  exact ⟨r, t, hrt, hrun.snoc hs⟩

end Sample

theorem placement_independent_sample :
    SamePlacement [.call (.malloc 40) 160] [.call (.malloc 40) 160, .write 160 7] Sample.client
      Sample.scribbled ∧
    ∃ e, evalMmValid mmPackage (Sample.regrown 0) 0 Sample.bench = some (1, e) ∧
      Replayed (Sample.regrown 0) 0 Sample.bench e := by
  have hb : GoodBase 8 := ⟨by decide, by decide⟩
  have hl : (Sample.regrown 0).Legal MAX_HEAP := by decide
  have hout : NeverOut (Sample.regrown 0) 0 Sample.bench :=
    neverOut_of_answers (A := Sample.arena) Sample.opened_ready hl (by decide +kernel)
  have hacc : Accepts (Sample.regrown 0) 0 Sample.bench :=
    accepts_of_small (A := Sample.arena) Sample.opened_ready hl hout (by decide)
  obtain ⟨e, hv, -⟩ := hacc
  obtain ⟨h1, h2⟩ := placement_independent hb
  exact ⟨h1 _ _ _ _ _ _ Sample.opened_ready Sample.opened_ready Sample.reruns
    Sample.reruns_scribbled rfl, e, hv, h2 _ _ _ _ Sample.opened_ready hl hv⟩

end
end SegList

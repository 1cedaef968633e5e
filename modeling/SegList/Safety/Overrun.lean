import SegList.Safety.Objects
import SegList.Safety.Confluence
import SegList.Safety.Refinement

/-!
# A client that misses its payloads

A block is at least 32 bytes larger than the request, and needs 8 of them for its tags.  In front of
the payload are the two link words, which are used while the block is free only, and 16 bytes behind
it belong to nobody.  A client that writes there does no harm: every call returns what it would have
returned without these writes, and no payload changes (`overruns_harmless`).
-/

set_option linter.unusedSectionVars false

open Bytes Prog

namespace SegList
open Pool

def Label.IsCall : Label → Prop
  | .call _ _ => True
  | .write _ _ => False

instance : DecidablePred Label.IsCall := fun l =>
  match l with
  | .call _ _ => isTrue trivial
  | .write _ _ => isFalse id

/-- one step of a client that may write from 8 bytes in front of a payload to 16 bytes behind it -/
inductive Client.Careless : Client → Label → Client → Prop where
  | call {c : Client} {k : Call} {r : Nat} {c' : Client} : c.Step (.call k r) c' →
      Careless c (.call k r) c'
  | write {c : Client} {p m x : Nat} {v : UInt8} : (p, m) ∈ c.live → p ≤ x + 8 → x < p + m + 16 →
      Careless c (.write x v) ⟨c.heap.poke x v, c.live⟩

def CarelessTrail (lo : Nat) (m : Mem) (ls : List Label) (c : Client) : Prop :=
  GoodBase lo ∧ ∃ r s, boot lo (fresh m) = some (r, s) ∧ Lts.Run Client.Careless ⟨s, []⟩ ls c

/-- two clients with the same live pointers over the same pool -/
structure SamePool (A : Arena) (c c' : Client) : Prop where
  live : c'.live = c.live
  pool : ∃ a : SoundPool A.base A.limit, Tracks A c a ∧ Tracks A c' a

section
variable {A : Arena} {c c' d : Client} {a : SoundPool A.base A.limit} {S : Objects} {l : Label}
  {p m x lo : Nat} {v : UInt8} {mem : Mem} {ls : List Label}

lemma Objects.InMemory.careless (h : S.InMemory c) (hT : Tracks A c a) (hs : c.Careless l c') :
    (∃ a' : SoundPool A.base A.limit, Tracks A c' a') ∧ (S.step l).InMemory c' := by
  cases hs with
  | call hs =>
    obtain ⟨a', -, hT'⟩ := step_follows hT hs
    exact ⟨⟨a', hT'⟩, h.step hT hs⟩
  | write hm h1 h2 =>
    refine ⟨⟨a, hT.poke hm h1 h2⟩, live_write.trans h.live, fun o ho => ?_⟩
    obtain ⟨o', ho', rfl⟩ := List.mem_map.mp ho
    exact (h.bytes o' ho').write _ _

lemma SamePool.call {k : Call} {r : Nat} (h : SamePool A c d) (hs : c.Step (.call k r) c') :
    ∃ d', d.Step (.call k r) d' ∧ SamePool A c' d' := by
  obtain ⟨hlive, a, hT, hT'⟩ := h
  obtain ⟨hk, hd⟩ := hT.does hs
  have hT₁ := hd.tracks hT hk
  cases hs with
  | call _ hz _ hf =>
    have hr := hd.ret
    obtain ⟨d', hs', hl', hT₂⟩ := hT'.call_step (hlive ▸ hk) hz (hr ▸ hf)
    rw [← hr] at hs' hl'
    exact ⟨d', hs', hl'.trans (congrArg (fun L => k.live L r) hlive), _, hT₁, hT₂⟩

/-- a write of the careless client, which the other one leaves out -/
lemma SamePool.still (h : SamePool A c d) (hl : ¬ l.IsCall) (hs : c.Careless l c') :
    SamePool A c' d := by
  obtain ⟨hlive, a, hT, hT'⟩ := h
  cases hs with
  | call _ => exact absurd trivial hl
  | write hm h1 h2 => exact ⟨hlive, a, hT.poke hm h1 h2, hT'⟩

/-- **A client that misses its payloads by a few bytes does no harm**: whatever it writes from 8 bytes
in front of a payload to 16 bytes behind it, memory holds what was written into the payloads, and
its calls alone are an ordinary run, with the same results, the same live pointers, and at the end
the same blocks and lists. -/
theorem overruns_harmless (h : CarelessTrail lo mem ls c) : (Objects.after ls).InMemory c ∧
    ∃ d, Trail lo mem (ls.filter Label.IsCall) d ∧ d.live = c.live ∧
      SamePartition d.heap c.heap ∧
      ∀ k < 32, ∃ bps, d.heap.bucket k = some bps ∧ c.heap.bucket k = some bps := by
  obtain ⟨hb, r, s, hboot, hrun⟩ := h
  obtain ⟨A, -, -, R⟩ := boot_arena hb hboot
  have hT : Tracks A ⟨s, []⟩ (firstPool A.lo) := ⟨R, Owns.initial A.base, Nat.le_refl _⟩
  obtain ⟨d, hd, hlive, a, hc, hd'⟩ := hrun.follow_some (K := Label.IsCall) Client.Step
    (R := SamePool A) (fun c d l c' hR hl hs => by
      cases hs with
      | call hs => exact hR.call hs
      | write _ _ _ => exact absurd hl id)
    (fun c d l c' hR hl hs => hR.still hl hs) ⟨rfl, _, hT, hT⟩
  exact ⟨Objects.inMemory_after (fun _ _ _ _ ⟨a, ha⟩ hS hl => hS.careless ha hl) ⟨_, hT⟩ hrun,
    d, ⟨hb, r, s, hboot, hd⟩, hlive, hd'.rep.samePartition hc.rep rfl rfl,
    fun k hk => ⟨_, hd'.rep.bucket_eq hk, hc.rep.bucket_eq hk⟩⟩

/-- `mm_malloc(40)` returned 160, and the client wrote the byte at 215, the last one in front of the
footer -/
theorem overruns_harmless_sample : (Objects.after [.call (.malloc 40) 160, .write 215 7]).InMemory
      ⟨Sample.used.poke 215 7, [(160, 40)]⟩ ∧
    ∃ d, Trail 8 (fun _ => 0) [.call (.malloc 40) 160] d ∧ d.live = [(160, 40)] ∧
      SamePartition d.heap (Sample.used.poke 215 7) ∧
      ∀ k < 32, ∃ bps, d.heap.bucket k = some bps ∧
        (Sample.used.poke 215 7).bucket k = some bps := by
  obtain ⟨hb, r, s, h1, h2⟩ := Sample.client_trail
  have hcall : Client.Careless Sample.idle (.call (.malloc 40) 160) Sample.client :=
    .call (Sample.request_step (c := Sample.idle) Sample.malloc_run.1 (by decide))
  have hw : Client.Careless Sample.client (.write 215 7) ⟨Sample.used.poke 215 7, [(160, 40)]⟩ :=
    .write (p := 160) (m := 40) (List.mem_singleton.mpr rfl) (by decide) (by decide)
  exact overruns_harmless ⟨hb, 0, Sample.booted, Sample.boot_run.1,
    Lts.run_cons.mpr ⟨_, hcall, .single hw⟩⟩

end
end SegList

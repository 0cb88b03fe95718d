import Linuxity.Logic.Run
import Mathlib.Data.Finset.Card

/-!
# Hvf.Vcpus — the vCPUs that a host signal kicks (`runtime/darwin/signal.hpp`)

The slots in use never become fewer: a vCPU that leaves turns its slot to 0, and 0 is what an empty
slot holds.
-/

namespace Linuxity.Hvf.Vcpus

open Logic List

def kMaxCpus : ℕ := 64

-- `cpus` are the first `cpu_count` slots of the array
def registerCpu (cpus : List UInt64) (v : UInt64) : List UInt64 :=
  if v ∈ cpus then cpus else if cpus.length < kMaxCpus then cpus ++ [v] else cpus

def unregisterCpu (cpus : List UInt64) (v : UInt64) : List UInt64 :=
  cpus.map fun c => if c = v then 0 else c

/-- The handles given to `hv_vcpus_exit`. -/
def kickAll (cpus : List UInt64) : List UInt64 := cpus.filter (· ≠ 0)

inductive Event
  | register (v : UInt64)
  | unregister (v : UInt64)

/-- The slots, and the vCPUs that have joined and not left since. -/
structure State where
  cpus : List UInt64 := []
  live : Finset UInt64 := ∅

def step (s : State) : Event → State
  | .register v => ⟨registerCpu s.cpus v, insert v s.live⟩
  | .unregister v => ⟨unregisterCpu s.cpus v, s.live.erase v⟩

/-- Every live vCPU is kicked, and no other. -/
def Exact (s : State) : Prop := ∀ v, v ∈ kickAll s.cpus ↔ v ∈ s.live

/-- Whoever joins has a handle other than 0, and is there already or gets a slot that was never in
use. -/
def Fits (s : State) : Event → Prop
  | .register v => v ≠ 0 ∧ (v ∈ s.cpus ∨ s.cpus.length < kMaxCpus)
  | .unregister _ => True

theorem mem_kickAll {cpus : List UInt64} {v : UInt64} : v ∈ kickAll cpus ↔ v ∈ cpus ∧ v ≠ 0 := by
  simp [kickAll]

theorem mem_registerCpu {cpus : List UInt64} {u v : UInt64} :
    u ∈ registerCpu cpus v ↔ u ∈ cpus ∨ u = v ∧ (v ∈ cpus ∨ cpus.length < kMaxCpus) := by
  unfold registerCpu
  split_ifs with hv hn
  · exact ⟨.inl, fun h => h.elim id fun h => h.1 ▸ hv⟩
  · simp [hn]
  · simp [hv, hn]

theorem mem_unregisterCpu {cpus : List UInt64} {u v : UInt64} (hu : u ≠ 0) :
    u ∈ unregisterCpu cpus v ↔ u ≠ v ∧ u ∈ cpus := by
  rw [unregisterCpu, mem_map]
  constructor
  · rintro ⟨c, hc, rfl⟩
    split_ifs at hu ⊢ with h
    · exact absurd rfl hu
    · exact ⟨h, hc⟩
  · rintro ⟨hne, hc⟩
    exact ⟨u, hc, if_neg hne⟩

theorem exact_step_iff (s : State) (e : Event) (hs : Exact s) : Exact (step s e) ↔ Fits s e := by
  cases e with
  | register v =>
    constructor
    · intro h
      obtain ⟨hmem, hne⟩ := mem_kickAll.1 ((h v).2 (Finset.mem_insert_self v s.live))
      refine ⟨hne, ?_⟩
      rcases mem_registerCpu.1 hmem with hv | hv
      · exact .inl hv
      · exact hv.2
    · rintro ⟨hne, hroom⟩ u
      have hu := hs u
      rw [mem_kickAll] at hu
      rw [mem_kickAll, step, mem_registerCpu, Finset.mem_insert, and_iff_left hroom, or_and_right,
        hu, or_comm]
      exact or_congr_left (and_iff_left_of_imp fun h => h ▸ hne)
  | unregister v =>
    refine iff_of_true (fun u => ?_) trivial
    have hu := hs u
    rw [mem_kickAll] at hu
    rw [mem_kickAll, step, Finset.mem_erase, ← hu]
    by_cases h0 : u = 0
    · simp [h0]
    · rw [mem_unregisterCpu h0, and_assoc]

/-- **Every live vCPU is kicked and no other**, after each join and leave of a run, exactly if no
vCPU joins with handle 0 or once all slots have been in use. -/
theorem kicks_live_iff (es : List Event) :
    Along step (fun s e => Exact (step s e)) {} es ↔ Along step Fits {} es :=
  along_iff exact_step_iff (fun v => by simp [kickAll]) es

/-- One vCPU at a time, that joins and leaves over and over with one handle. -/
def rejoin : ℕ → List Event
  | 0 => [.register 1]
  | n + 1 => .register 1 :: .unregister 1 :: rejoin n

theorem kick_misses_rejoined : (∀ k ≤ 129, (((rejoin 64).take k).foldl step {}).live.card ≤ 1) ∧
    ¬Exact ((rejoin 64).foldl step {}) := by
  refine ⟨by decide +kernel, fun h => ?_⟩
  have hmiss : (1 : UInt64) ∉ kickAll ((rejoin 64).foldl step {}).cpus := by decide +kernel
  exact hmiss ((h 1).2 (by decide +kernel))

end Linuxity.Hvf.Vcpus

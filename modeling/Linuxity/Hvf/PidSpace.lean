import Linuxity.Logic.Run
import Mathlib.Data.Int.Notation
import Mathlib.Data.List.Pairwise
import Mathlib.Logic.Function.Basic
import Mathlib.Tactic.SplitIfs

/-!
# Hvf.PidSpace — the guest's pid numbers over host processes (`runtime/darwin/proc.hpp`)

Every guest process is a host process.  A table of slots in shared memory maps guest numbers, of
processes and of threads, to host pids.  The processes read and write it without a lock, so a fork,
a wait and a kill are each several steps here, with those of others in between.
-/

namespace Linuxity.Hvf.PidSpace

open Logic Function List

def kMax : ℕ := 4096

/-- A slot between `allocate` and `bind`. -/
def kReserved : ℤ := -1

/-- `Shared::host`: 0 is a free slot. -/
abbrev Slots := ℕ → ℤ

def hostOf (s : Slots) (g : ℤ) : Option ℤ :=
  if g ≤ 0 ∨ (kMax : ℤ) ≤ g then none else if s g.toNat ≠ 0 then some (s g.toNat) else none

def guestOf (s : Slots) (host : ℤ) : ℤ :=
  match (List.range' 1 (kMax - 1)).find? fun g => s g == host with
  | some g => g
  | none => -1

def release (s : Slots) (g : ℤ) : Slots := if 1 < g ∧ g < kMax then update s g.toNat 0 else s

/-- A process of the host.  The parent of one whose parent has ended is 0. -/
inductive HostProc where
  | guest (slot : ℕ) (parent : ℤ) (zombie : Bool)
  | foreign
  deriving DecidableEq

/-- `do_fork` between `allocate` and `bind`; the child is there once it is spawned. -/
structure Fork where
  parent : ℤ
  slot : ℕ
  child : Option ℤ
  deriving DecidableEq

/-- `wait4` between `waitpid` and `release`, with the number that fork gave the parent for the
child. -/
structure Wait where
  parent : ℤ
  child : ℤ
  slot : ℕ
  deriving DecidableEq

structure State where
  slots : Slots
  procs : ℤ → Option HostProc
  forks : List Fork
  waits : List Wait
  /-- The guest numbers that are still to be signalled, each with its sender. -/
  aims : List (ℤ × ℤ)
  /-- The pids read from the table for a `kill` that has not been made. -/
  kills : List (ℤ × ℤ)

def start (host : ℤ) : State where
  slots := update (fun _ => 0) 1 host
  procs := update (fun _ => none) host (some (.guest 1 0 false))
  forks := []
  waits := []
  aims := []
  kills := []

theorem start_slots (host : ℤ) : (start host).slots = update (fun _ => 0) 1 host := rfl

theorem start_procs (host : ℤ) :
    (start host).procs = update (fun _ => none) host (some (.guest 1 0 false)) := rfl

theorem start_slots_ne {host v : ℤ} (h0 : v ≠ 0) (hv : v ≠ host) (k : ℕ) :
    (start host).slots k ≠ v := by
  rw [start_slots]
  by_cases hk : k = 1
  · rw [hk, update_self]
    exact hv.symm
  · rw [update_of_ne hk]
    exact h0.symm

inductive Event where
  /-- `allocate(0)` takes a slot. -/
  | reserve (p : ℤ) (g : ℕ)
  | spawn (p : ℤ) (g : ℕ) (h : ℤ)
  | spawnFail (p : ℤ) (g : ℕ)
  | bind (p : ℤ) (g : ℕ) (h : ℤ)
  | thread (p : ℤ) (t : ℕ)
  | threadEnd (p : ℤ) (t : ℕ)
  | exit (h : ℤ)
  | waitpid (p h : ℤ)
  /-- The rest of `wait4`. -/
  | finishWait (w : Wait)
  /-- A process without a parent is reaped by the host. -/
  | orphan (h : ℤ)
  | foreign (h : ℤ)
  | foreignEnd (h : ℤ)
  /-- `deliver_signal` by the thread `self`. A group is found by a scan of the table while others
  change it, so that any slots may come out. -/
  | kill (p self gpid : ℤ) (found : List ℤ)
  /-- One turn of its loop: `host_of`, and then the host's `kill`. -/
  | killRead (p g : ℤ)
  | killCall (p h : ℤ)

def runs (s : State) (p : ℤ) : Option ℕ :=
  match s.procs p with
  | some (.guest g _ false) => some g
  | _ => none

def slotOf (s : State) (h : ℤ) : ℕ :=
  match s.procs h with
  | some (.guest g _ _) => g
  | _ => 0

def can (s : State) : Event → Bool
  | .reserve p g => (runs s p).isSome && decide (1 < g ∧ g < kMax) && s.slots g == 0
  | .spawn p g h => decide (⟨p, g, none⟩ ∈ s.forks) && decide (0 < h) && (s.procs h).isNone
  | .spawnFail p g => decide (⟨p, g, none⟩ ∈ s.forks)
  | .bind p g h => decide (⟨p, g, some h⟩ ∈ s.forks)
  | .thread p t => (runs s p).isSome && decide (1 < t ∧ t < kMax) && s.slots t == 0
  | .threadEnd p t => (runs s p).isSome && runs s p != some t && decide (1 < t) && s.slots t == p
  | .exit h => (runs s h).isSome
  | .waitpid p h =>
    (runs s p).isSome &&
      match s.procs h with
      | some (.guest _ q true) => q == p
      | _ => false
  | .finishWait w => decide (w ∈ s.waits)
  | .orphan h =>
    match s.procs h with
    | some (.guest _ 0 true) => true
    | _ => false
  | .foreign h => decide (0 < h) && (s.procs h).isNone
  | .foreignEnd h => s.procs h == some .foreign
  | .kill p self gpid found =>
    (runs s p).isSome && if gpid ≤ 0 then true else found == if gpid = self then [] else [gpid]
  | .killRead p g => decide ((p, g) ∈ s.aims)
  | .killCall p h => decide ((p, h) ∈ s.kills)

def ended : HostProc → HostProc
  | .guest g p _ => .guest g p true
  | .foreign => .foreign

/-- The children of a process that ends go to the host's init. -/
def orphaned (h : ℤ) : HostProc → HostProc
  | .guest g p z => .guest g (if p = h then 0 else p) z
  | .foreign => .foreign

def step (s : State) : Event → State
  | .reserve p g => { s with slots := update s.slots g kReserved, forks := ⟨p, g, none⟩ :: s.forks }
  | .spawn p g h =>
    { s with procs := update s.procs h (some (.guest g p false)),
             forks := ⟨p, g, some h⟩ :: s.forks.erase ⟨p, g, none⟩ }
  | .spawnFail p g => { s with slots := release s.slots g, forks := s.forks.erase ⟨p, g, none⟩ }
  | .bind p g h => { s with slots := update s.slots g h, forks := s.forks.erase ⟨p, g, some h⟩ }
  | .thread p t => { s with slots := update s.slots t p }
  | .threadEnd _ t => { s with slots := release s.slots t }
  | .exit h =>
    { s with
      procs := fun x => (if x = h then (s.procs x).map ended else s.procs x).map (orphaned h),
      forks := s.forks.filter (·.parent ≠ h), waits := s.waits.filter (·.parent ≠ h),
      aims := s.aims.filter (·.1 ≠ h), kills := s.kills.filter (·.1 ≠ h) }
  | .waitpid p h =>
    { s with procs := update s.procs h none, waits := ⟨p, h, slotOf s h⟩ :: s.waits }
  | .finishWait w =>
    { s with slots := release s.slots (guestOf s.slots w.child), waits := s.waits.erase w }
  | .orphan h => { s with procs := update s.procs h none }
  | .foreign h => { s with procs := update s.procs h (some .foreign) }
  | .foreignEnd h => { s with procs := update s.procs h none }
  | .kill p _ _ found => { s with aims := found.map (p, ·) ++ s.aims }
  | .killRead p g =>
    { s with
      aims := s.aims.erase (p, g)
      kills := (match hostOf s.slots g with
        | some h => [(p, h)]
        | none => []) ++ s.kills }
  | .killCall p h => { s with kills := s.kills.erase (p, h) }

/-! ## What the table and the processes have to do with each other -/

/-- There is a guest process with this host pid, which has not been reaped. -/
def IsGuest (s : State) (h : ℤ) : Prop := ∃ g p z, s.procs h = some (.guest g p z)

structure Base (s : State) : Prop where
  range : ∀ g, s.slots g ≠ 0 → 0 < g ∧ g < kMax
  pos : ∀ h, IsGuest s h → 0 < h
  forks : ∀ f ∈ s.forks, (1 < f.slot ∧ s.slots f.slot = kReserved) ∧ f.parent ≠ 0 ∧
    ∀ h, f.child = some h → ∃ z, s.procs h = some (.guest f.slot f.parent z)
  apart : s.forks.Pairwise fun a b => a.slot ≠ b.slot
  waits : ∀ w ∈ s.waits, ¬IsGuest s w.child ∧ 0 < w.child
  once : s.waits.Pairwise fun a b => a.child ≠ b.child

/-- The host gives no pid out again before the wait for it is finished, and no child is waited for
before its slot is bound. -/
def Calm (s : State) : Event → Prop
  | .spawn _ _ h => ∀ w ∈ s.waits, w.child ≠ h
  | .waitpid _ h => ∀ f ∈ s.forks, f.child ≠ some h
  | _ => True

section Tables

variable {s : State} {p h : ℤ} {g t : ℕ}

theorem ne_of_mem_erase {α β : Type} [DecidableEq α] {F : α → β} {l : List α} {x f : α}
    (hl : l.Pairwise fun a b => F a ≠ F b) (hx : x ∈ l) (hf : f ∈ l.erase x) : F x ≠ F f := by
  have hperm := (perm_cons_erase hx).pairwise_iff (R := fun a b => F a ≠ F b) fun h => h.symm
  exact (pairwise_cons.1 (hperm.1 hl)).1 f hf

theorem runs_iff : runs s p = some g ↔ ∃ q, s.procs p = some (.guest g q false) := by
  unfold runs
  constructor
  · intro h
    split at h
    · rename_i g' q hp
      cases h
      exact ⟨q, hp⟩
    · cases h
  · rintro ⟨q, hp⟩
    rw [hp]

theorem isGuest_of_runs (h : (runs s p).isSome) : IsGuest s p := by
  obtain ⟨g, hg⟩ := Option.isSome_iff_exists.1 h
  obtain ⟨q, hq⟩ := runs_iff.1 hg
  exact ⟨g, q, false, hq⟩

theorem release_eq (h1 : 1 < g) (h2 : g < kMax) (s : Slots) : release s g = update s g 0 :=
  if_pos ⟨by omega, by omega⟩

variable {x : ℤ} {sl : Slots}

/-- A guest stays one when another process is spawned, and no other is made one. -/
theorem isGuest_update {r : Option HostProc} (hx : x ≠ h) :
    IsGuest { s with procs := update s.procs h r } x ↔ IsGuest s x := by
  unfold IsGuest
  dsimp only
  rw [update_of_ne hx]

/-- A thread is made under the same checks. -/
theorem can_reserve {p : ℤ} {g : ℕ} (hcan : can s (.reserve p g)) :
    IsGuest s p ∧ (1 < g ∧ g < kMax) ∧ s.slots g = 0 := by
  simp only [can, Bool.and_eq_true, decide_eq_true_eq, beq_iff_eq] at hcan
  exact ⟨isGuest_of_runs hcan.1.1, hcan.1.2, hcan.2⟩

theorem can_waitpid (hcan : can s (.waitpid p h)) :
    IsGuest s p ∧ s.procs h = some (.guest (slotOf s h) p true) := by
  rw [can, Bool.and_eq_true] at hcan
  refine ⟨isGuest_of_runs hcan.1, ?_⟩
  have hrest := hcan.2
  unfold slotOf
  split at hrest
  · rename_i g q hq
    rw [hq, beq_iff_eq.1 hrest]
  · cases hrest

theorem exit_procs :
    (step s (.exit h)).procs x = (if x = h then (s.procs x).map ended else s.procs x).map
      (orphaned h) := rfl

theorem isGuest_exit : IsGuest (step s (.exit h)) x ↔ IsGuest s x := by
  unfold IsGuest
  rw [exit_procs]
  rcases hx : s.procs x with _ | ⟨g, p, z⟩ | _
  · split_ifs <;> simp
  · split_ifs <;> simp [ended, orphaned]
  · split_ifs <;> simp [ended, orphaned]

theorem hostOf_eq {g : ℤ} (hh : hostOf sl g = some h) : h ≠ 0 ∧ sl g.toNat = h := by
  unfold hostOf at hh
  split_ifs at hh with _ hne
  cases hh
  exact ⟨hne, rfl⟩

theorem guestOf_cases (sl : Slots) (h : ℤ) :
    (∃ g : ℕ, 0 < g ∧ g < kMax ∧ guestOf sl h = g ∧ sl g = h ∧ ∀ k, 0 < k → k < g → sl k ≠ h) ∨
      (guestOf sl h = -1 ∧ ∀ k, 0 < k → k < kMax → sl k ≠ h) := by
  unfold guestOf
  rcases hfind : (List.range' 1 (kMax - 1)).find? fun g => sl g == h with _ | g
  · refine .inr ⟨rfl, fun k hk hlt hh => ?_⟩
    have hnot := List.find?_eq_none.1 hfind k (mem_range'_1.2 ⟨hk, by unfold kMax at hlt ⊢; omega⟩)
    exact hnot (beq_iff_eq.2 hh)
  · obtain ⟨hg, hlow⟩ := List.find?_range'_eq_some.1 hfind
    obtain ⟨hmem, hlow⟩ := hlow
    have hrange := mem_range'_1.1 hmem
    refine .inl ⟨g, hrange.1, by unfold kMax at hrange ⊢; omega, rfl, beq_iff_eq.1 hg,
      fun k hk hlt hh => ?_⟩
    have := hlow k hk hlt
    rw [hh] at this
    simp at this

theorem guestOf_eq (h1 : 0 < g) (h2 : g < kMax) (hg : sl g = h)
    (hlow : ∀ k, 0 < k → k < kMax → sl k = h → g ≤ k) : guestOf sl h = g := by
  obtain ⟨k, hk, hlt, heq, hkh, hmin⟩ | ⟨-, hnone⟩ := guestOf_cases sl h
  · have hle := hlow k hk hlt hkh
    have hge : ¬g < k := fun hgk => hmin g h1 hgk hg
    rw [heq, show k = g by omega]
  · exact absurd hg (hnone g h1 h2)

theorem release_apply (sl : Slots) (x : ℤ) (k : ℕ) :
    release sl x k = if 1 < k ∧ k < kMax ∧ x = k then 0 else sl k := by
  unfold release
  by_cases hx : 1 < x ∧ x < kMax
  · rw [if_pos hx]
    by_cases hk : k = x.toNat
    · rw [hk, update_self, if_pos ⟨by omega, by omega, by omega⟩]
    · rw [update_of_ne hk, if_neg (by omega)]
  · rw [if_neg hx, if_neg (by omega)]

/-- A pid stays where it is when a slot without one is set. -/
theorem slot_kept {v : ℤ} (hold : sl g = 0 ∨ sl g = kReserved) {k : ℕ} (hx : 0 < x)
    (hk : sl k = x) : update sl g v k = x := by
  rw [update_of_ne, hk]
  rintro rfl
  unfold kReserved at hold
  omega

end Tables

/-! ## Steps that touch one part of the state -/

namespace Base

variable {s : State}

theorem of_slots (hb : Base s) {sl : Slots} (hr : ∀ g, sl g ≠ 0 → 0 < g ∧ g < kMax)
    (hf : ∀ f ∈ s.forks, sl f.slot = kReserved) : Base { s with slots := sl } :=
  ⟨hr, hb.pos, fun f h => ⟨⟨(hb.forks f h).1.1, hf f h⟩, (hb.forks f h).2⟩, hb.apart, hb.waits,
    hb.once⟩

theorem of_forks (hb : Base s) {l : List Fork} (hl : l.Sublist s.forks) :
    Base { s with forks := l } :=
  ⟨hb.range, hb.pos, fun f h => hb.forks f (hl.subset h), hb.apart.sublist hl, hb.waits, hb.once⟩

theorem of_waits (hb : Base s) {l : List Wait} (hl : l.Sublist s.waits) :
    Base { s with waits := l } :=
  ⟨hb.range, hb.pos, hb.forks, hb.apart, fun w h => hb.waits w (hl.subset h), hb.once.sublist hl⟩

theorem of_signals (hb : Base s) (aims kills : List (ℤ × ℤ)) :
    Base { s with aims := aims, kills := kills } :=
  ⟨hb.range, hb.pos, hb.forks, hb.apart, hb.waits, hb.once⟩

theorem of_procs (hb : Base s) {pr : ℤ → Option HostProc}
    (hg : ∀ h, IsGuest { s with procs := pr } h → IsGuest s h)
    (hf : ∀ f ∈ s.forks, ∀ h, f.child = some h → ∃ z, pr h = some (.guest f.slot f.parent z)) :
    Base { s with procs := pr } :=
  ⟨hb.range, fun h hh => hb.pos h (hg h hh),
    fun f h => ⟨(hb.forks f h).1, (hb.forks f h).2.1, hf f h⟩, hb.apart,
    fun w h => ⟨fun hh => (hb.waits w h).1 (hg _ hh), (hb.waits w h).2⟩, hb.once⟩

variable {h p : ℤ} {f : Fork} {g : ℕ}

theorem of_update (hb : Base s) {r : Option HostProc} (hr : ∀ g p z, r ≠ some (.guest g p z))
    (hf : ∀ f ∈ s.forks, f.child ≠ some h) : Base { s with procs := update s.procs h r } := by
  refine hb.of_procs (fun x hx => ?_) fun f hmem x hx => ?_
  · by_cases hxh : x = h
    · obtain ⟨g, p, z, hgpz⟩ := hx
      rw [hxh] at hgpz
      exact absurd ((update_self h r s.procs).symm.trans hgpz) (hr g p z)
    · exact (isGuest_update hxh).1 hx
  · have hxh : x ≠ h := fun heq => hf f hmem (heq ▸ hx)
    rw [update_of_ne hxh]
    exact (hb.forks f hmem).2.2 x hx

theorem start {host : ℤ} (h : 0 < host) : Base (PidSpace.start host) := by
  refine ⟨fun g hg => ?_, fun x hx => ?_, nofun, .nil, nofun, .nil⟩
  · by_cases hg1 : g = 1
    · exact ⟨by omega, by unfold kMax; omega⟩
    · rw [start_slots, update_of_ne hg1] at hg
      exact absurd rfl hg
  · by_cases hxh : x = host
    · exact hxh ▸ h
    · obtain ⟨g, p, z, hgpz⟩ := hx
      rw [start_procs, update_of_ne hxh] at hgpz
      cases hgpz

theorem fork_slot_ne (hb : Base s) (hf : f ∈ s.forks) (hg : s.slots g ≠ kReserved) : f.slot ≠ g :=
  fun heq => hg (heq ▸ (hb.forks f hf).1.2)

theorem fork_child_ne (hb : Base s) (hh : ∀ g p z, p ≠ 0 → s.procs h ≠ some (.guest g p z)) :
    ∀ f ∈ s.forks, f.child ≠ some h := by
  intro f hf hc
  obtain ⟨-, hp, hchild⟩ := hb.forks f hf
  obtain ⟨z, hz⟩ := hchild h hc
  exact hh _ _ z hp hz

theorem fork_slot_range (hb : Base s) (hf : f ∈ s.forks) : 0 < f.slot ∧ f.slot < kMax :=
  hb.range _ ((hb.forks f hf).1.2 ▸ by decide)

theorem range_update (hb : Base s) (hg : 0 < g ∧ g < kMax) (v : ℤ) :
    ∀ k, update s.slots g v k ≠ 0 → 0 < k ∧ k < kMax := by
  intro k hk
  by_cases hkg : k = g
  · exact hkg ▸ hg
  · rw [update_of_ne hkg] at hk
    exact hb.range k hk

theorem reserve (hb : Base s) (hp : IsGuest s p) (hg : 1 < g ∧ g < kMax) (hfree : s.slots g = 0) :
    Base (step s (.reserve p g)) := by
  have hne : ∀ f ∈ s.forks, f.slot ≠ g := fun f hf => hb.fork_slot_ne hf (hfree ▸ by decide)
  refine ⟨hb.range_update ⟨by omega, hg.2⟩ _, hb.pos, fun f hf => ?_, ?_, hb.waits, hb.once⟩
  · obtain rfl | hf := mem_cons.1 hf
    · exact ⟨⟨hg.1, update_self ..⟩, show p ≠ 0 by have := hb.pos p hp; omega, nofun⟩
    · obtain ⟨⟨h1, hres⟩, hrest⟩ := hb.forks f hf
      exact ⟨⟨h1, (update_of_ne (hne f hf) _ _).trans hres⟩, hrest⟩
  · exact pairwise_cons.2 ⟨fun f hf => (hne f hf).symm, hb.apart⟩

theorem spawn (hb : Base s) (hf : ⟨p, g, none⟩ ∈ s.forks) (hpos : 0 < h) (hnew : s.procs h = none)
    (hcalm : ∀ w ∈ s.waits, w.child ≠ h) : Base (step s (.spawn p g h)) := by
  have herase := hb.of_forks (erase_sublist (a := (⟨p, g, none⟩ : Fork)))
  have hold := herase.fork_child_ne fun _ _ _ _ hh => nomatch hnew.symm.trans hh
  refine ⟨hb.range, fun x hx => ?_, fun f hmem => ?_, ?_, fun w hw => ?_, hb.once⟩
  · by_cases hxh : x = h
    · exact hxh ▸ hpos
    · exact hb.pos x ((isGuest_update hxh).1 hx)
  · obtain rfl | hmem := mem_cons.1 hmem
    · obtain ⟨hres, hp, -⟩ := hb.forks _ hf
      refine ⟨hres, hp, fun x hx => ⟨false, ?_⟩⟩
      cases hx
      exact update_self ..
    · obtain ⟨hres, hp, hchild⟩ := herase.forks f hmem
      refine ⟨hres, hp, fun x hx => ?_⟩
      have hxh : x ≠ h := fun heq => hold f hmem (heq ▸ hx)
      obtain ⟨z, hz⟩ := hchild x hx
      exact ⟨z, (update_of_ne hxh _ _).trans hz⟩
  · refine pairwise_cons.2 ⟨fun f hmem => ?_, herase.apart⟩
    have hne := ne_of_mem_erase hb.apart hf hmem
    exact hne
  · obtain ⟨hng, hw0⟩ := hb.waits w hw
    exact ⟨fun hg => hng ((isGuest_update (hcalm w hw)).1 hg), hw0⟩

theorem leave_fork (hb : Base s) (hf : f ∈ s.forks) (v : ℤ) :
    Base { s with slots := update s.slots f.slot v, forks := s.forks.erase f } := by
  refine (hb.of_forks (erase_sublist)).of_slots (hb.range_update (hb.fork_slot_range hf) v)
    fun f' hf' => ?_
  rw [update_of_ne (ne_of_mem_erase hb.apart hf hf').symm]
  exact (hb.forks f' (mem_of_mem_erase hf')).1.2

/-- A slot is given back that no fork holds. -/
theorem release (hb : Base s) (hg : s.slots g ≠ kReserved) :
    Base { s with slots := PidSpace.release s.slots g } := by
  refine hb.of_slots (fun k hk => hb.range k fun h0 => hk (by rw [release_apply, h0, ite_self]))
    fun f hf => ?_
  have hne := hb.fork_slot_ne hf hg
  rw [release_apply, if_neg (by omega)]
  exact (hb.forks f hf).1.2

theorem exit (hb : Base s) (h : ℤ) : Base (step s (.exit h)) := by
  have hfew := (hb.of_forks (filter_sublist (p := fun f : Fork => decide (f.parent ≠ h)))).of_waits
    (filter_sublist (p := fun w : Wait => decide (w.parent ≠ h)))
  refine (@of_procs _ hfew (step s (.exit h)).procs (fun x hx => isGuest_exit.1 hx)
    fun f hmem x hx => ?_).of_signals _ _
  obtain ⟨hf, hp⟩ := mem_filter.1 hmem
  obtain ⟨z, hz⟩ := (hb.forks f hf).2.2 x hx
  refine ⟨if x = h then true else z, ?_⟩
  rw [exit_procs, hz]
  have hp := of_decide_eq_true hp
  split_ifs with hxh
  · simp only [Option.map_some, ended, orphaned, if_neg hp]
  · simp only [Option.map_some, orphaned, if_neg hp]

theorem waitpid (hb : Base s) (hh : s.procs h = some (.guest (slotOf s h) p true))
    (hcalm : ∀ f ∈ s.forks, f.child ≠ some h) : Base (step s (.waitpid p h)) := by
  have hgone := hb.of_update (r := none) nofun hcalm
  have hnot : ¬IsGuest { s with procs := update s.procs h none } h := by
    rintro ⟨g, q, z, hq⟩
    exact nomatch (update_self h none s.procs).symm.trans hq
  have hguest : IsGuest s h := ⟨_, _, _, hh⟩
  refine ⟨hgone.range, hgone.pos, hgone.forks, hgone.apart, fun w hw => ?_, ?_⟩
  · obtain rfl | hw := mem_cons.1 hw
    · exact ⟨hnot, hb.pos h hguest⟩
    · exact hgone.waits w hw
  · refine pairwise_cons.2 ⟨fun w hw heq => ?_, hb.once⟩
    exact (hb.waits w hw).1 (heq ▸ hguest)

end Base

variable {e : Event} {s : State}

theorem base_step (hb : Base s) (hcan : can s e) (hcalm : Calm s e) : Base (step s e) := by
  cases e with
  | reserve p g =>
    obtain ⟨hp, hg, hfree⟩ := can_reserve hcan
    exact hb.reserve hp hg hfree
  | spawn p g h =>
    simp only [can, Bool.and_eq_true, decide_eq_true_eq, Option.isNone_iff_eq_none] at hcan
    exact hb.spawn hcan.1.1 hcan.1.2 hcan.2 hcalm
  | spawnFail p g =>
    have hf := of_decide_eq_true hcan
    rw [step, release_eq (hb.forks _ hf).1.1 (hb.fork_slot_range hf).2]
    exact hb.leave_fork hf 0
  | bind p g h => exact hb.leave_fork (of_decide_eq_true hcan) h
  | thread p t =>
    obtain ⟨-, ⟨h1, h2⟩, hfree⟩ := can_reserve hcan
    refine hb.of_slots (hb.range_update ⟨by omega, h2⟩ p) fun f hf => ?_
    rw [update_of_ne (hb.fork_slot_ne hf (hfree ▸ by decide))]
    exact (hb.forks f hf).1.2
  | threadEnd p t =>
    simp only [can, Bool.and_eq_true, beq_iff_eq] at hcan
    obtain ⟨⟨⟨hp, -⟩, -⟩, ht⟩ := hcan
    have hpos := hb.pos p (isGuest_of_runs hp)
    exact hb.release (show s.slots t ≠ kReserved by unfold kReserved; omega)
  | exit h => exact hb.exit h
  | waitpid p h => exact hb.waitpid (can_waitpid hcan).2 hcalm
  | finishWait w =>
    have hw := hb.waits w (of_decide_eq_true hcan)
    refine Base.of_waits (s := { s with slots := _ }) ?_ erase_sublist
    obtain ⟨g, -, -, hg, hgh, -⟩ | ⟨hnone, -⟩ := guestOf_cases s.slots w.child
    · rw [hg]
      exact hb.release (show s.slots g ≠ kReserved by unfold kReserved; omega)
    · rw [hnone]
      exact hb
  | orphan h =>
    rw [can] at hcan
    split at hcan
    · rename_i hg
      refine hb.of_update nofun (hb.fork_child_ne fun g' p z hp hh => ?_)
      cases hg.symm.trans hh
      exact hp rfl
    · cases hcan
  | foreign h =>
    simp only [can, Bool.and_eq_true, decide_eq_true_eq, Option.isNone_iff_eq_none] at hcan
    exact hb.of_update nofun (hb.fork_child_ne fun _ _ _ _ hh => nomatch hcan.2.symm.trans hh)
  | foreignEnd h =>
    have hh := beq_iff_eq.1 hcan
    exact hb.of_update nofun (hb.fork_child_ne fun _ _ _ _ hh' => nomatch hh.symm.trans hh')
  | kill | killRead | killCall => exact hb.of_signals _ _

/-! ## Signals stay inside the guest -/

/-- A slot is not read for a signal while it is forked or waited for. A process is waited for when
one slot has it and no signal to it is under way, a wait is finished before its process ends, and no
slot has a process that the host reaps. -/
def Quiet (s : State) : Event → Prop
  | .killRead _ g => ∀ h, hostOf s.slots g = some h → h ≠ kReserved ∧ ∀ w ∈ s.waits, w.child ≠ h
  | .waitpid _ h => (∃! g, s.slots g = h) ∧ ∀ k ∈ s.kills, k.2 ≠ h
  | .exit h => ∀ w ∈ s.waits, w.parent ≠ h
  | .orphan h => ∀ g, s.slots g ≠ h
  | .threadEnd p t => (∃ k ∈ s.kills, k.2 = p) → ∃ g, g ≠ t ∧ s.slots g = p
  | _ => True

/-- What is passed to the host's `kill` is the pid of a guest process that has a slot. -/
def StaysInside (s : State) : Event → Prop
  | .killCall _ h => 0 < h ∧ (∃ g, 0 < g ∧ g < kMax ∧ s.slots g = h) ∧ IsGuest s h
  | _ => True

structure Held (s : State) : Prop where
  root : ∃ z, s.procs (s.slots 1) = some (.guest 1 0 z)
  value : ∀ g, s.slots g = 0 ∨ s.slots g = kReserved ∨ IsGuest s (s.slots g) ∨
    ∃ w ∈ s.waits, w.child = s.slots g
  single : ∀ w ∈ s.waits, ∃! g, s.slots g = w.child
  kills : ∀ k ∈ s.kills, IsGuest s k.2 ∧ ∃ g, s.slots g = k.2

namespace Held

variable {s : State}

theorem root_pos (hb : Base s) (hs : Held s) : 0 < s.slots 1 :=
  let ⟨z, hz⟩ := hs.root
  hb.pos _ ⟨1, 0, z, hz⟩

theorem start (host : ℤ) : Held (PidSpace.start host) := by
  have hroot : (PidSpace.start host).procs host = some (.guest 1 0 false) := by
    rw [start_procs, update_self]
  have hslot : (PidSpace.start host).slots 1 = host := by rw [start_slots, update_self]
  refine ⟨⟨false, hslot.symm ▸ hroot⟩, fun g => ?_, nofun, nofun⟩
  by_cases hg : g = 1
  · rw [hg, hslot]
    exact .inr (.inr (.inl ⟨1, 0, false, hroot⟩))
  · rw [start_slots, update_of_ne hg]
    exact .inl rfl

theorem set (hb : Base s) (hs : Held s) {g : ℕ} {v : ℤ} (l : List Fork)
    (hold : s.slots g = 0 ∨ s.slots g = kReserved) (hnew : v = 0 ∨ v = kReserved ∨ IsGuest s v) :
    Held { s with slots := update s.slots g v, forks := l } := by
  have hkeep : ∀ {k x}, 0 < x → s.slots k = x → update s.slots g v k = x := slot_kept hold
  have hback : ∀ {k x}, 0 < x → ¬IsGuest s x → update s.slots g v k = x → s.slots k = x := by
    intro k x hx hng hk
    by_cases hkg : k = g
    · rw [hkg, update_self] at hk
      subst hk
      unfold kReserved at hnew
      obtain h0 | h0 | hguest := hnew
      · omega
      · omega
      · exact absurd hguest hng
    · rwa [update_of_ne hkg] at hk
  refine ⟨?_, fun k => ?_, fun w hw => ?_, fun k hk => ?_⟩
  · dsimp only
    rw [hkeep (root_pos hb hs) rfl]
    exact hs.root
  · dsimp only
    by_cases hkg : k = g
    · rw [hkg, update_self]
      exact hnew.imp_right (Or.imp_right Or.inl)
    · rw [update_of_ne hkg]
      exact hs.value k
  · obtain ⟨hng, hpos⟩ := hb.waits w hw
    obtain ⟨k, hk, honly⟩ := hs.single w hw
    exact ⟨k, hkeep hpos hk, fun k' hk' => honly k' (hback hpos hng hk')⟩
  · obtain ⟨hguest, g', hg'⟩ := hs.kills k hk
    exact ⟨hguest, g', hkeep (hb.pos _ hguest) hg'⟩

/-- A slot is given back. No wait that stays is for its pid, and a signal that is for it finds it in
another slot. -/
theorem release (hb : Base s) (hs : Held s) {g : ℕ} {l : List Wait} (hg : 1 < g)
    (hl : ∀ w ∈ l, w ∈ s.waits) (hw : ∀ w ∈ l, w.child ≠ s.slots g)
    (hv : ∀ k, k ≠ g → ∀ w ∈ s.waits, w.child = s.slots k → w ∈ l)
    (hk : (∃ k ∈ s.kills, k.2 = s.slots g) → ∃ k, k ≠ g ∧ s.slots k = s.slots g) (hlt : g < kMax) :
    Held { s with slots := PidSpace.release s.slots g, waits := l } := by
  rw [release_eq hg hlt]
  have hother : ∀ {k}, k ≠ g → update s.slots g 0 k = s.slots k := fun hkg => update_of_ne hkg _ _
  refine ⟨?_, fun k => ?_, fun w hmem => ?_, fun k hmem => ?_⟩
  · dsimp only
    rw [hother (by omega)]
    exact hs.root
  · dsimp only
    by_cases hkg : k = g
    · rw [hkg]
      exact .inl (update_self ..)
    · rw [hother hkg]
      refine (hs.value k).imp_right (Or.imp_right (Or.imp_right ?_))
      rintro ⟨w, hmem, hwk⟩
      exact ⟨w, hv k hkg w hmem hwk, hwk⟩
  · obtain ⟨k, hk', honly⟩ := hs.single w (hl w hmem)
    have hkg : k ≠ g := fun heq => hw w hmem (heq ▸ hk'.symm)
    refine ⟨k, (hother hkg).trans hk', fun k' hk'' => honly k' ?_⟩
    by_cases hkg' : k' = g
    · have hzero : update s.slots g 0 k' = 0 := hkg' ▸ update_self ..
      have hchild := hzero.symm.trans hk''
      have hpos := (hb.waits w (hl w hmem)).2
      omega
    · exact (hother hkg').symm.trans hk''
  · obtain ⟨hguest, g', hg'⟩ := hs.kills k hmem
    refine ⟨hguest, ?_⟩
    by_cases heq : k.2 = s.slots g
    · obtain ⟨k', hne, hk'⟩ := hk ⟨k, hmem, heq⟩
      exact ⟨k', ((hother hne).trans hk').trans heq.symm⟩
    · have hne : g' ≠ g := fun h => heq (h ▸ hg'.symm)
      exact ⟨g', (hother hne).trans hg'⟩

theorem of_procs (hs : Held s) {pr : ℤ → Option HostProc} (l : List Fork)
    (hroot : ∃ z, pr (s.slots 1) = some (.guest 1 0 z))
    (hguest : ∀ g, IsGuest s (s.slots g) → IsGuest { s with procs := pr } (s.slots g)) :
    Held { s with procs := pr, forks := l } := by
  refine ⟨hroot, fun g => ?_, hs.single, fun k hk => ?_⟩
  · exact (hs.value g).imp_right (Or.imp_right (Or.imp_left (hguest g)))
  · obtain ⟨hk2, g, hg⟩ := hs.kills k hk
    rw [← hg] at hk2 ⊢
    exact ⟨hguest g hk2, g, rfl⟩

variable {h : ℤ}

theorem of_update (hs : Held s) (r : Option HostProc) (l : List Fork)
    (hh : ∀ g, s.slots g = h → ¬IsGuest s h) :
    Held { s with procs := update s.procs h r, forks := l } := by
  obtain ⟨z, hz⟩ := hs.root
  have hne : ∀ g, IsGuest s (s.slots g) → s.slots g ≠ h := fun g hg heq => hh g heq (heq ▸ hg)
  refine hs.of_procs l ⟨z, ?_⟩ fun g hg => (isGuest_update (hne g hg)).2 hg
  rw [update_of_ne (hne 1 ⟨1, 0, z, hz⟩)]
  exact hz

theorem of_kills (hs : Held s) {l : List (ℤ × ℤ)} (a : List (ℤ × ℤ))
    (hl : ∀ k ∈ l, IsGuest s k.2 ∧ ∃ g, s.slots g = k.2) : Held { s with aims := a, kills := l } :=
  ⟨hs.root, hs.value, hs.single, hl⟩

theorem exit (hs : Held s) (hq : ∀ w ∈ s.waits, w.parent ≠ h) : Held (step s (.exit h)) := by
  have hwaits : s.waits.filter (fun w => decide (w.parent ≠ h)) = s.waits :=
    filter_eq_self.2 fun w hw => decide_eq_true (hq w hw)
  obtain ⟨z, hz⟩ := hs.root
  have hprocs :
      Held { s with procs := (step s (.exit h)).procs, forks := (step s (.exit h)).forks } := by
    refine hs.of_procs _ ⟨if s.slots 1 = h then true else z, ?_⟩ fun g hg => isGuest_exit.2 hg
    rw [exit_procs, hz]
    split_ifs <;> simp [ended, orphaned]
  have hkills := hprocs.of_kills (step s (.exit h)).aims (l := (step s (.exit h)).kills) fun k hk =>
    hprocs.kills k (mem_filter.1 hk).1
  rw [step, hwaits]
  exact hkills

theorem waitpid (hb : Base s) (hs : Held s) {p : ℤ} (hp : IsGuest s p)
    (hh : s.procs h = some (.guest (slotOf s h) p true)) (hone : ∃! g, s.slots g = h)
    (hkills : ∀ k ∈ s.kills, k.2 ≠ h) : Held (step s (.waitpid p h)) := by
  obtain ⟨z, hz⟩ := hs.root
  have hroot : s.slots 1 ≠ h := by
    intro heq
    rw [heq, hh] at hz
    have hp0 := (HostProc.guest.inj (Option.some.inj hz)).2.1
    have hpos := hb.pos p hp
    omega
  refine ⟨⟨z, (update_of_ne hroot _ _).trans hz⟩, fun g => ?_, fun w hw => ?_, fun k hk => ?_⟩
  · obtain h0 | h0 | hguest | ⟨w, hw, hwg⟩ := hs.value g
    · exact .inl h0
    · exact .inr (.inl h0)
    · by_cases hgh : s.slots g = h
      · exact .inr (.inr (.inr ⟨_, .head _, hgh.symm⟩))
      · exact .inr (.inr (.inl ((isGuest_update hgh).2 hguest)))
    · exact .inr (.inr (.inr ⟨w, .tail _ hw, hwg⟩))
  · obtain rfl | hw := mem_cons.1 hw
    · exact hone
    · exact hs.single w hw
  · obtain ⟨hguest, g, hg⟩ := hs.kills k hk
    exact ⟨(isGuest_update (hkills k hk)).2 hguest, g, hg⟩

theorem killRead (hs : Held s) {p g : ℤ} (hq : Quiet s (.killRead p g)) {k : ℤ × ℤ}
    (hk : k ∈ match hostOf s.slots g with
      | some h => [(p, h)]
      | none => []) : IsGuest s k.2 ∧ ∃ g, s.slots g = k.2 := by
  rcases hh : hostOf s.slots g with _ | h
  · rw [hh] at hk
    exact nomatch hk
  · rw [hh] at hk
    obtain rfl := mem_singleton.1 hk
    obtain ⟨hres, hw⟩ := hq h hh
    obtain ⟨hne, hval⟩ := hostOf_eq hh
    refine ⟨?_, g.toNat, hval⟩
    obtain h0 | h0 | hguest | ⟨w, hmem, hwg⟩ := hs.value g.toNat
    · exact absurd (hval.symm.trans h0) hne
    · exact absurd (hval.symm.trans h0) hres
    · exact hval ▸ hguest
    · exact absurd (hwg.trans hval) (hw w hmem)

theorem finishWait (hb : Base s) (hs : Held s) {w : Wait} (hw : w ∈ s.waits) :
    Held (step s (.finishWait w)) := by
  obtain ⟨g, hg, honly⟩ := hs.single w hw
  obtain ⟨hng, hpos⟩ := hb.waits w hw
  have hrange := hb.range g (by omega)
  have hg1 : g ≠ 1 := by
    rintro rfl
    obtain ⟨z, hz⟩ := hs.root
    exact hng ⟨1, 0, z, hg ▸ hz⟩
  rw [step, guestOf_eq hrange.1 hrange.2 hg fun k _ _ hk => Nat.le_of_eq (honly k hk).symm]
  refine hs.release hb (by omega) (fun w' => mem_of_mem_erase) (fun w' hw' => ?_)
    (fun k hk w' hw' hwk => ?_) ?_ hrange.2
  · rw [hg]
    exact (ne_of_mem_erase hb.once hw hw').symm
  · refine (mem_erase_of_ne fun heq => ?_).2 hw'
    exact hk (honly k (heq ▸ hwk.symm))
  · rintro ⟨k, hk, hk2⟩
    exact absurd (hs.kills k hk).1 (hk2.trans hg ▸ hng)

end Held

theorem held_step (hb : Base s) (hs : Held s) (hcan : can s e) (hq : Quiet s e) :
    Held (step s e) := by
  cases e with
  | reserve p g =>
    exact hs.set hb _ (.inl (can_reserve hcan).2.2) (.inr (.inl rfl))
  | spawn p g h =>
    simp only [can, Bool.and_eq_true, decide_eq_true_eq, Option.isNone_iff_eq_none] at hcan
    refine hs.of_update _ _ fun g _ => ?_
    rintro ⟨g', q, z, hq⟩
    exact nomatch hcan.2.symm.trans hq
  | spawnFail p g =>
    have hf := of_decide_eq_true hcan
    rw [step, release_eq (hb.forks _ hf).1.1 (hb.fork_slot_range hf).2]
    exact hs.set hb _ (.inr (hb.forks _ hf).1.2) (.inl rfl)
  | bind p g h =>
    obtain ⟨hslot, -, hchild⟩ := hb.forks _ (of_decide_eq_true hcan)
    obtain ⟨z, hz⟩ := hchild h rfl
    exact hs.set hb _ (.inr hslot.2) (.inr (.inr ⟨_, _, z, hz⟩))
  | thread p t =>
    obtain ⟨hp, -, hfree⟩ := can_reserve hcan
    exact hs.set hb s.forks (.inl hfree) (.inr (.inr hp))
  | threadEnd p t =>
    simp only [can, Bool.and_eq_true, decide_eq_true_eq, beq_iff_eq] at hcan
    obtain ⟨⟨⟨hp, -⟩, ht1⟩, ht⟩ := hcan
    have hguest := isGuest_of_runs hp
    have hpos := hb.pos p hguest
    refine hs.release hb ht1 (fun w => id) (fun w hw heq => ?_) (fun k _ w hw _ => hw) ?_
      (hb.range t (by omega)).2
    · rw [ht] at heq
      exact (hb.waits w hw).1 (heq ▸ hguest)
    · rw [ht]
      exact hq
  | exit h => exact hs.exit hq
  | waitpid p h =>
    obtain ⟨hp, hh⟩ := can_waitpid hcan
    exact hs.waitpid hb hp hh hq.1 hq.2
  | finishWait w => exact hs.finishWait hb (of_decide_eq_true hcan)
  | orphan h => exact hs.of_update none s.forks fun g hg => absurd hg (hq g)
  | foreign h =>
    simp only [can, Bool.and_eq_true, decide_eq_true_eq, Option.isNone_iff_eq_none] at hcan
    refine hs.of_update _ s.forks fun g _ => ?_
    rintro ⟨g', q, z, hq⟩
    exact nomatch hcan.2.symm.trans hq
  | foreignEnd h =>
    have hh := beq_iff_eq.1 hcan
    refine hs.of_update none s.forks fun g _ => ?_
    rintro ⟨g', q, z, hq⟩
    exact nomatch hh.symm.trans hq
  | kill p self gpid found => exact hs.of_kills _ hs.kills
  | killRead p g =>
    refine hs.of_kills _ fun k hk => ?_
    obtain hk | hk := mem_append.1 hk
    · exact hs.killRead hq hk
    · exact hs.kills k hk
  | killCall p h => exact hs.of_kills s.aims fun k hk => hs.kills k (mem_of_mem_erase hk)

/-- From a root process on, whatever the processes of the guest do: as long as no slot is read in
the middle of a fork or a wait and no process is reaped behind a signal, only guest processes with a
slot are passed to the host's `kill`. -/
theorem signals_stay_inside {host : ℤ} (hroot : 0 < host) {es : List Event}
    (hrun : Along step (fun s e => can s e = true) (start host) es)
    (hcalm : Along step Calm (start host) es) (hquiet : Along step Quiet (start host) es) :
    Along step StaysInside (start host) es := by
  refine Along.of_invariant (I := fun s => Base s ∧ Held s) ?_ ⟨.start hroot, .start host⟩
    ((hrun.and hcalm).and hquiet)
  rintro s e ⟨hb, hs⟩ ⟨⟨hcan, hc⟩, hq⟩
  refine ⟨?_, base_step hb hcan hc, held_step hb hs hcan hq⟩
  cases e with
  | killCall p h =>
    obtain ⟨hguest, g, hg⟩ := hs.kills _ (of_decide_eq_true hcan)
    have hpos := hb.pos _ hguest
    have hrange := hb.range g (by rw [hg]; dsimp only; omega)
    exact ⟨hpos, ⟨g, hrange.1, hrange.2, hg⟩, hguest⟩
  | _ => trivial

/-- The child signals number 3 while its parent is forking it. -/
def forkWindow : List Event :=
  [.reserve 100 2, .spawn 100 2 101, .bind 100 2 101, .reserve 100 3, .kill 101 2 3 [3],
    .killRead 101 3, .killCall 101 (-1)]

theorem kill_reaches_everyone : Along step (fun s e => can s e = true) (start 100) forkWindow ∧
    ¬Along step StaysInside (start 100) forkWindow := by
  refine ⟨⟨rfl, rfl, rfl, rfl, rfl, rfl, rfl, trivial⟩, ?_⟩
  rintro ⟨-, -, -, -, -, -, hcall, -⟩
  exact absurd hcall.1 (by decide)

def childLife : List Event :=
  [.reserve 100 2, .spawn 100 2 101, .bind 100 2 101, .kill 100 1 2 [2], .killRead 100 2,
    .killCall 100 101, .exit 101, .waitpid 100 101, .finishWait ⟨100, 101, 2⟩]

theorem childLife_runs : Along step (fun s e => can s e) (start 100) childLife :=
  ⟨rfl, rfl, rfl, rfl, rfl, rfl, rfl, rfl, rfl, trivial⟩

theorem childLife_calm : Along step Calm (start 100) childLife :=
  ⟨trivial, nofun, trivial, trivial, trivial, trivial, trivial, nofun, trivial, trivial⟩

theorem childLife_quiet : Along step Quiet (start 100) childLife := by
  refine ⟨trivial, trivial, trivial, trivial, ?_, trivial, nofun, ⟨⟨2, rfl, fun k hk => ?_⟩, nofun⟩,
    trivial, trivial⟩
  · intro h hh
    cases (show some (101 : ℤ) = some h from hh)
    exact ⟨by decide, nofun⟩
  · by_contra hne
    have hslot : update (update (start 100).slots 2 kReserved) 2 101 k = 101 := hk
    rw [update_of_ne hne, update_of_ne hne] at hslot
    exact start_slots_ne (by decide) (by decide) k hslot

theorem signals_stay_inside_childLife : Along step StaysInside (start 100) childLife :=
  signals_stay_inside (by decide) childLife_runs childLife_calm childLife_quiet

/-! ## A wait names the child by the number its fork gave -/

/-- Threads come after their process in the table, and a pid that a slot has is not given out
again. -/
def InOrder (s : State) : Event → Prop
  | .spawn _ _ h => ∀ g, s.slots g ≠ h
  | .thread p t => slotOf s p < t
  | _ => True

/-- `wait4` returns, and gives back, the slot of the fork. -/
def NamesChild (s : State) : Event → Prop
  | .finishWait w =>
    guestOf s.slots w.child = w.slot ∧ (step s (.finishWait w)).slots = update s.slots w.slot 0
  | _ => True

structure Named (s : State) : Prop where
  procs : ∀ h g p z, s.procs h = some (.guest g p z) → p ≠ 0 →
    1 < g ∧ (s.slots g = h ∨ ⟨p, g, some h⟩ ∈ s.forks) ∧ ∀ k, s.slots k = h → g ≤ k
  waits : ∀ w ∈ s.waits, 1 < w.slot ∧ s.slots w.slot = w.child ∧ ∀ k, s.slots k = w.child →
    w.slot ≤ k

namespace Named

variable {s : State}

theorem start (host : ℤ) : Named (PidSpace.start host) := by
  refine ⟨fun h g p z hg hp => ?_, nofun⟩
  rw [start_procs] at hg
  by_cases hh : h = host
  · rw [hh, update_self] at hg
    cases hg
    exact absurd rfl hp
  · rw [update_of_ne hh] at hg
    cases hg

variable {g : ℕ} {h : ℤ}

/-- A slot without a pid is set, at or after the slot of the process it is set to. -/
theorem set (hb : Base s) (hn : Named s) {v : ℤ} {l : List Fork}
    (hold : s.slots g = 0 ∨ s.slots g = kReserved)
    (hnew : ∀ g' p z, s.procs v = some (.guest g' p z) → p ≠ 0 → g' ≤ g)
    (hw : ∀ w ∈ s.waits, w.child ≠ v)
    (hl : ∀ p g' h, ⟨p, g', some h⟩ ∈ s.forks → ⟨p, g', some h⟩ ∈ l ∨ g' = g ∧ h = v) :
    Named { s with slots := update s.slots g v, forks := l } := by
  have hkeep : ∀ {k x}, 0 < x → s.slots k = x → update s.slots g v k = x := slot_kept hold
  refine ⟨fun h g' p z hg hp => ?_, fun w hmem => ?_⟩
  · obtain ⟨hg1, hplace, hlow⟩ := hn.procs h g' p z hg hp
    refine ⟨hg1, ?_, fun k hk => ?_⟩
    · obtain hslot | hfork := hplace
      · exact .inl (hkeep (hb.pos h ⟨_, _, _, hg⟩) hslot)
      · obtain hin | ⟨rfl, rfl⟩ := hl p g' h hfork
        · exact .inr hin
        · exact .inl (update_self ..)
    · dsimp only at hk
      by_cases hkg : k = g
      · rw [hkg, update_self] at hk
        rw [hkg]
        exact hnew g' p z (hk ▸ hg) hp
      · rw [update_of_ne hkg] at hk
        exact hlow k hk
  · obtain ⟨h1, hslot, hlow⟩ := hn.waits w hmem
    refine ⟨h1, hkeep (hb.waits w hmem).2 hslot, fun k hk => ?_⟩
    dsimp only at hk
    by_cases hkg : k = g
    · rw [hkg, update_self] at hk
      exact absurd hk.symm (hw w hmem)
    · rw [update_of_ne hkg] at hk
      exact hlow k hk

/-- A slot is given back that is not a child's own. -/
theorem release (hb : Base s) (hn : Named s) {l : List Wait} (hl : ∀ w ∈ l, w ∈ s.waits)
    (hp : ∀ h p z, s.procs h = some (.guest g p z) → s.slots g ≠ h) (hw : ∀ w ∈ l, w.slot ≠ g) :
    Named { s with slots := update s.slots g 0, waits := l } := by
  have hback : ∀ {k x}, 0 < x → update s.slots g 0 k = x → s.slots k = x := by
    intro k x hx hk
    rwa [update_of_ne] at hk
    rintro rfl
    rw [update_self] at hk
    omega
  refine ⟨fun h g' p z hg hp0 => ?_, fun w hmem => ?_⟩
  · obtain ⟨hg1, hplace, hlow⟩ := hn.procs h g' p z hg hp0
    refine ⟨hg1, hplace.imp_left fun hslot => ?_,
      fun k hk => hlow k (hback (hb.pos h ⟨_, _, _, hg⟩) hk)⟩
    have hne : g' ≠ g := by
      rintro rfl
      exact hp h p z hg hslot
    exact (update_of_ne hne _ _).trans hslot
  · obtain ⟨h1, hslot, hlow⟩ := hn.waits w (hl w hmem)
    exact ⟨h1, (update_of_ne (hw w hmem) _ _).trans hslot,
      fun k hk => hlow k (hback (hb.waits w (hl w hmem)).2 hk)⟩

theorem of_update (hn : Named s) {r : Option HostProc} (hr : ∀ g p z, r ≠ some (.guest g p z)) :
    Named { s with procs := update s.procs h r } := by
  refine ⟨fun x g p z hg => ?_, hn.waits⟩
  by_cases hxh : x = h
  · rw [hxh] at hg
    exact absurd ((update_self h r s.procs).symm.trans hg) (hr g p z)
  · exact hn.procs x g p z ((update_of_ne hxh _ _).symm.trans hg)

theorem of_signals (hn : Named s) (aims kills : List (ℤ × ℤ)) :
    Named { s with aims := aims, kills := kills } :=
  ⟨hn.procs, hn.waits⟩

theorem spawn (hn : Named s) {p : ℤ} (hg1 : 1 < g) (hfresh : ∀ k, s.slots k ≠ h) :
    Named (step s (.spawn p g h)) := by
  refine ⟨fun x g' q z hg hq => ?_, hn.waits⟩
  by_cases hxh : x = h
  · subst hxh
    cases (update_self x _ s.procs).symm.trans hg
    exact ⟨hg1, .inr mem_cons_self, fun k hk => absurd hk (hfresh k)⟩
  · obtain ⟨hg1, hplace, hlow⟩ := hn.procs x g' q z ((update_of_ne hxh _ _).symm.trans hg) hq
    refine ⟨hg1, hplace.imp_right fun hfork => .tail _ ((mem_erase_of_ne ?_).2 hfork), hlow⟩
    exact fun heq => nomatch congrArg Fork.child heq

theorem exit (hn : Named s) (h : ℤ) : Named (step s (.exit h)) := by
  refine ⟨fun x g p z hg hp => ?_, fun w hw => hn.waits w (mem_filter.1 hw).1⟩
  -- The parent is the old one: those of the process that ends have none now.
  have hold : ∃ z', s.procs x = some (.guest g p z') ∧ p ≠ h := by
    rw [exit_procs] at hg
    rcases hx : s.procs x with _ | ⟨g', p', z'⟩ | _
    · rw [hx] at hg
      split_ifs at hg <;> cases hg
    · rw [hx] at hg
      split_ifs at hg <;>
      · simp only [Option.map_some, ended, orphaned, Option.some.injEq, HostProc.guest.injEq] at hg
        obtain ⟨rfl, hpp, -⟩ := hg
        split_ifs at hpp with hph
        · exact absurd hpp.symm hp
        · exact ⟨z', by rw [hpp], hpp ▸ hph⟩
    · rw [hx] at hg
      split_ifs at hg <;> cases hg
  obtain ⟨z', hz', hph⟩ := hold
  obtain ⟨hg1, hplace, hlow⟩ := hn.procs x g p z' hz' hp
  exact ⟨hg1, hplace.imp_right fun hfork => mem_filter.2 ⟨hfork, decide_eq_true hph⟩, hlow⟩

theorem waitpid (hb : Base s) (hn : Named s) {p : ℤ} (hp : IsGuest s p)
    (hh : s.procs h = some (.guest (slotOf s h) p true)) (hcalm : ∀ f ∈ s.forks, f.child ≠ some h) :
    Named (step s (.waitpid p h)) := by
  have hgone := hn.of_update (h := h) (r := none) nofun
  refine ⟨hgone.procs, fun w hw => ?_⟩
  obtain rfl | hw := mem_cons.1 hw
  · have hp0 := hb.pos p hp
    obtain ⟨hg1, hplace, hlow⟩ := hn.procs h _ p true hh (by omega)
    have hslot : s.slots (slotOf s h) = h := hplace.resolve_right fun hfork => hcalm _ hfork rfl
    exact ⟨hg1, hslot, hlow⟩
  · exact hn.waits w hw

theorem finishWait (hb : Base s) (hn : Named s) {w : Wait} (hw : w ∈ s.waits) :
    guestOf s.slots w.child = w.slot ∧
      (step s (.finishWait w)).slots = update s.slots w.slot 0 := by
  obtain ⟨h1, hslot, hlow⟩ := hn.waits w hw
  have hpos := (hb.waits w hw).2
  have hrange := hb.range w.slot (by omega)
  have hfound := guestOf_eq hrange.1 hrange.2 hslot fun k _ _ => hlow k
  refine ⟨hfound, ?_⟩
  rw [step, hfound]
  exact release_eq h1 hrange.2 _

end Named

theorem named_step (hb : Base s) (hn : Named s) (hcan : can s e) (hcalm : Calm s e)
    (ho : InOrder s e) : Named (step s e) := by
  cases e with
  | reserve p g =>
    refine hn.set hb (.inl (can_reserve hcan).2.2)
      (fun g' q z hg => absurd (hb.pos _ ⟨_, _, _, hg⟩) (by decide)) (fun w hw heq => ?_)
      fun q g' h hf => .inl (.tail _ hf)
    exact absurd (hb.waits w hw).2 (heq ▸ by decide)
  | spawn p g h =>
    simp only [can, Bool.and_eq_true, decide_eq_true_eq] at hcan
    exact hn.spawn (hb.forks _ hcan.1.1).1.1 ho
  | spawnFail p g =>
    have hf := of_decide_eq_true hcan
    rw [step, release_eq (hb.forks _ hf).1.1 (hb.fork_slot_range hf).2]
    refine hn.set hb (.inr (hb.forks _ hf).1.2)
      (fun g' q z hg => absurd (hb.pos _ ⟨_, _, _, hg⟩) (by decide))
      (fun w hw heq => ?_) fun q g' h hfork => .inl ((mem_erase_of_ne ?_).2 hfork)
    · have hpos := (hb.waits w hw).2
      omega
    · exact fun heq => nomatch congrArg Fork.child heq
  | bind p g h =>
    have hf := of_decide_eq_true hcan
    obtain ⟨hslot, -, hchild⟩ := hb.forks _ hf
    obtain ⟨z, hz⟩ := hchild h rfl
    refine hn.set hb (.inr hslot.2) (fun g' q z' hg _ => ?_) (fun w hw heq => ?_)
      fun q g' x hfork => ?_
    · cases hz.symm.trans hg
      exact Nat.le_refl g
    · exact (hb.waits w hw).1 (heq ▸ ⟨_, _, z, hz⟩)
    · by_cases heq : (⟨q, g', some x⟩ : Fork) = ⟨p, g, some h⟩
      · cases heq
        exact .inr ⟨rfl, rfl⟩
      · exact .inl ((mem_erase_of_ne heq).2 hfork)
  | thread p t =>
    obtain ⟨hguest, -, hfree⟩ := can_reserve hcan
    refine hn.set hb (.inl hfree) (fun g' q z hg _ => ?_)
      (fun w hw heq => (hb.waits w hw).1 (heq ▸ hguest))
      fun q g' h hf => .inl hf
    have hown : slotOf s p = g' := by rw [slotOf, hg]
    have hlt : slotOf s p < t := ho
    omega
  | threadEnd p t =>
    simp only [can, Bool.and_eq_true, decide_eq_true_eq, beq_iff_eq, bne_iff_ne] at hcan
    obtain ⟨⟨⟨hp, hown⟩, ht1⟩, ht⟩ := hcan
    have hguest := isGuest_of_runs hp
    have hpos := hb.pos p hguest
    rw [step, release_eq ht1 (hb.range t (by omega)).2]
    refine hn.release hb (fun w => id) (fun h q z hh heq => ?_) fun w hw heq => ?_
    · obtain ⟨g, hg⟩ := Option.isSome_iff_exists.1 hp
      obtain ⟨q', hq'⟩ := runs_iff.1 hg
      rw [← heq, ht, hq'] at hh
      cases hh
      exact hown hg
    · obtain ⟨-, hslot, -⟩ := hn.waits w hw
      rw [heq, ht] at hslot
      exact (hb.waits w hw).1 (hslot ▸ hguest)
  | exit h => exact hn.exit h
  | waitpid p h =>
    obtain ⟨hp, hh⟩ := can_waitpid hcan
    exact hn.waitpid hb hp hh hcalm
  | finishWait w =>
    have hw := of_decide_eq_true hcan
    obtain ⟨-, hslot, -⟩ := hn.waits w hw
    have hslots := (hn.finishWait hb hw).2
    have hrest :=
      hn.release (l := s.waits.erase w) (g := w.slot) hb (fun w' => mem_of_mem_erase)
      (fun h q z hh heq => ?_)
      fun w' hw' heq => ?_
    · rw [← hslots] at hrest
      exact hrest
    · exact (hb.waits w hw).1 ⟨_, _, _, hslot.symm.trans heq ▸ hh⟩
    · have hslot' := (hn.waits w' (mem_of_mem_erase hw')).2.1
      rw [heq] at hslot'
      exact ne_of_mem_erase hb.once hw hw' (hslot.symm.trans hslot')
  | orphan | foreign | foreignEnd => exact hn.of_update nofun
  | kill | killRead | killCall => exact hn.of_signals _ _

/-- From a root process on, whatever the processes of the guest do: as long as threads come after
their process in the table and the host gives out no pid that a slot has, every wait names the child
by the number of its fork. -/
theorem wait_names_child {host : ℤ} (hroot : 0 < host) {es : List Event}
    (hrun : Along step (fun s e => can s e = true) (start host) es)
    (hcalm : Along step Calm (start host) es) (horder : Along step InOrder (start host) es) :
    Along step NamesChild (start host) es := by
  refine Along.of_invariant (I := fun s => Base s ∧ Named s) ?_ ⟨.start hroot, .start host⟩
    ((hrun.and hcalm).and horder)
  rintro s e ⟨hb, hn⟩ ⟨⟨hcan, hc⟩, ho⟩
  refine ⟨?_, base_step hb hcan hc, named_step hb hn hcan hc ho⟩
  cases e with
  | finishWait w => exact hn.finishWait hb (of_decide_eq_true hcan)
  | _ => trivial

theorem childLife_inOrder : Along step InOrder (start 100) childLife := by
  refine ⟨trivial, fun k hk => ?_, trivial, trivial, trivial, trivial, trivial, trivial, trivial,
    trivial⟩
  have hslot : update (start 100).slots 2 kReserved k = 101 := hk
  by_cases hk2 : k = 2
  · rw [hk2, update_self] at hslot
    exact absurd hslot (by decide)
  · rw [update_of_ne hk2] at hslot
    exact start_slots_ne (by decide) (by decide) k hslot

theorem wait_names_child_childLife : Along step NamesChild (start 100) childLife :=
  wait_names_child (by decide) childLife_runs childLife_calm childLife_inOrder

/-- The slots come from a counter that starts again at 2, so that the thread of a late process gets
an early slot. -/
def wrapped : List Event :=
  [.reserve 100 4095, .spawn 100 4095 101, .bind 100 4095 101, .thread 101 2, .exit 101,
    .waitpid 100 101, .finishWait ⟨100, 101, 4095⟩]

theorem wait_names_thread : Along step (fun s e => can s e = true) (start 100) wrapped ∧
    ¬Along step NamesChild (start 100) wrapped := by
  refine ⟨⟨rfl, rfl, rfl, rfl, rfl, rfl, rfl, trivial⟩, ?_⟩
  rintro ⟨-, -, -, -, -, -, hwait, -⟩
  exact absurd hwait.1 (by decide)

end Linuxity.Hvf.PidSpace

import Linuxity.Hvf.FdTable
import Linuxity.Logic.Run
import Mathlib.Logic.Function.Basic

/-!
# Hvf.FdObjects — state beside the descriptor table (`runtime/darwin/trap.hpp`)

What makes a descriptor an epoll set, a timer or a directory stream is kept in maps by guest fd.
Each entry carries the open file it was made for.  Every guest thread has a trap with maps of its
own, over the one table of its process.  A descriptor can go away by `close`, `dup3`, `close_range`
and `execve`, and each of them forgets other entries of the thread that makes the call.
-/

namespace Linuxity.Hvf

open Logic Function Option

namespace FdTable

def slot (t : FdTable) (g : ℤ) : Option FdSlot :=
  if g < 0 then none else (t[g.toNat]?).filter (·.file.isSome)

def closeSlot (s : FdSlot) : FdSlot := if s.file.isSome then {} else s

def close (t : FdTable) (g : ℤ) : FdTable := if g < 0 then t else t.modify g.toNat closeSlot

def dup (t : FdTable) (g : ℤ) : FdTable :=
  match t.slot g with
  | none => t
  | some s =>
    match addSlot isFree kMaxFds t { s with cloexec := false } with
    | none => t
    | some (_, t) => t

def installAt (t : FdTable) (g : ℕ) (s : FdSlot) : FdTable :=
  (t ++ List.replicate (g + 1 - t.length) ({} : FdSlot)).set g s

def dup3 (t : FdTable) (g target : ℤ) (cloexec : Bool) : FdTable :=
  if target = g then t
  else
    match t.slot g with
    | none => t
    | some s =>
      if target < 0 ∨ kMaxFds ≤ target then t
      else t.installAt target.toNat { s with cloexec := cloexec }

def closeRange (t : FdTable) (lo hi : ℤ) : FdTable :=
  t.mapIdx fun i s => if lo ≤ i ∧ i ≤ hi ∧ i < kMaxFds then closeSlot s else s

def onExec (t : FdTable) : FdTable := t.map fun s => if s.cloexec then {} else s

theorem host_natCast (t : FdTable) (g : ℕ) : t.host g = (t[g]?).bind (·.file) := if_neg (by omega)

variable {t : FdTable}

theorem host_neg {g : ℤ} (h : g < 0) : t.host g = none := if_pos h

/-- A table is known by its open files at the numbers that are not negative. -/
theorem host_cases (g : ℤ) : g < 0 ∨ ∃ n : ℕ, g = n := by
  by_cases h : g < 0
  · exact .inl h
  · exact .inr ⟨g.toNat, (Int.toNat_of_nonneg (by omega)).symm⟩

theorem host_addSlot {t' : FdTable} {x : FdSlot} {g : ℕ}
    (h : addSlot isFree kMaxFds t x = some (g, t')) (k : ℤ) :
    t'.host k = if k = g then x.file else t.host k := by
  obtain hk | ⟨n, rfl⟩ := host_cases k
  · rw [host_neg hk, host_neg hk, if_neg (by omega)]
  · rw [host_natCast, host_natCast, (addSlot_spec h).1]
    by_cases hn : n = g
    · rw [if_pos hn, if_pos (by omega)]
      rfl
    · rw [if_neg hn, if_neg (by omega)]

theorem host_of_addSlot {t' : FdTable} {x : FdSlot} {g : ℕ}
    (h : addSlot isFree kMaxFds t x = some (g, t')) : t.host g = none := by
  rw [host_natCast]
  cases hg : t[g]? with
  | none => rfl
  | some y => exact isNone_iff_eq_none.1 ((addSlot_spec h).2 y hg)

theorem dup_cases (t : FdTable) (g : ℤ) :
    t.dup g = t ∨ ∃ x g', addSlot isFree kMaxFds t x = some (g', t.dup g) := by
  unfold dup
  cases t.slot g with
  | none => exact .inl rfl
  | some s =>
    dsimp only
    cases hadd : addSlot isFree kMaxFds t { s with cloexec := false } with
    | none => exact .inl rfl
    | some placed => exact .inr ⟨_, placed.1, hadd⟩

theorem closeSlot_file (s : FdSlot) : (closeSlot s).file = none := by
  unfold closeSlot
  split_ifs with h
  · rfl
  · exact not_isSome_iff_eq_none.1 h

theorem host_close (t : FdTable) (g k : ℤ) :
    (t.close g).host k = if k = g then none else t.host k := by
  unfold close
  obtain hk | ⟨n, rfl⟩ := host_cases k
  · rw [host_neg hk, host_neg hk, ite_self]
  · by_cases hg : g < 0
    · rw [if_pos hg, if_neg (by omega)]
    · rw [if_neg hg, host_natCast, host_natCast, List.getElem?_modify]
      by_cases hn : (n : ℤ) = g
      · have hn' : g.toNat = n := by omega
        rw [if_pos hn]
        cases t[n]? with
        | none => rfl
        | some y =>
          simp only [map_eq_map, map_some, bind_some, if_pos hn']
          exact closeSlot_file y
      · have hn' : ¬g.toNat = n := by omega
        rw [if_neg hn]
        simp only [if_neg hn', map_eq_map, map_id']

theorem host_slot (t : FdTable) (g : ℤ) : t.host g = (t.slot g).bind (·.file) := by
  unfold host slot
  split_ifs
  · rfl
  · cases t[g.toNat]? with
    | none => rfl
    | some y =>
      rw [filter_some]
      split_ifs with hy
      · rfl
      · exact not_isSome_iff_eq_none.1 hy

theorem host_installAt (t : FdTable) (g : ℕ) (s : FdSlot) (k : ℤ) :
    (t.installAt g s).host k = if k = g then s.file else t.host k := by
  unfold installAt
  obtain hk | ⟨n, rfl⟩ := host_cases k
  · rw [host_neg hk, host_neg hk, if_neg (by omega)]
  · rw [host_natCast, host_natCast]
    by_cases hn : n = g
    · rw [if_pos (by omega), hn, List.getElem?_set_self]
      · rfl
      · rw [List.length_append, List.length_replicate]
        omega
    · rw [if_neg (by omega), List.getElem?_set_ne (Ne.symm hn), List.getElem?_append]
      split_ifs with hlt
      · rfl
      · rw [List.getElem?_replicate, List.getElem?_eq_none (by omega)]
        split_ifs <;> rfl

theorem dup3_cases (t : FdTable) (g target : ℤ) (cloexec : Bool) :
    t.dup3 g target cloexec = t ∨ (0 ≤ target ∧ target < kMaxFds ∧ t.host g ≠ none) ∧
      ∀ k, (t.dup3 g target cloexec).host k = if k = target then t.host g else t.host k := by
  unfold dup3
  by_cases hself : target = g
  · exact .inl (if_pos hself)
  rw [if_neg hself]
  cases hs : t.slot g with
  | none => exact .inl rfl
  | some s =>
    by_cases hbad : target < 0 ∨ kMaxFds ≤ target
    · exact .inl (if_pos hbad)
    · have hsome : s.file.isSome := by
        unfold slot at hs
        split_ifs at hs
        exact (filter_eq_some_iff.1 hs).2
      have hg : t.host g = s.file := by
        rw [host_slot t g, hs]
        rfl
      refine .inr ⟨⟨by omega, by omega, ?_⟩, fun k => ?_⟩
      · rw [hg]
        exact isSome_iff_ne_none.1 hsome
      · simp only [if_neg hbad]
        rw [host_installAt, Int.toNat_of_nonneg (by omega), hg]

theorem host_closeRange (t : FdTable) (lo hi k : ℤ) :
    (t.closeRange lo hi).host k = if lo ≤ k ∧ k ≤ hi ∧ k < kMaxFds then none else t.host k := by
  unfold closeRange
  obtain hk | ⟨n, rfl⟩ := host_cases k
  · rw [host_neg hk, host_neg hk, ite_self]
  · rw [host_natCast, host_natCast, List.getElem?_mapIdx]
    cases t[n]? with
    | none => exact (ite_self _).symm
    | some y =>
      simp only [map_some, bind_some, Int.ofNat_lt]
      split_ifs
      · exact closeSlot_file y
      · rfl

theorem host_onExec (t : FdTable) (k : ℤ) :
    t.onExec.host k = if (t.slot k).any (·.cloexec) then none else t.host k := by
  unfold onExec
  obtain hk | ⟨n, rfl⟩ := host_cases k
  · rw [host_neg hk, host_neg hk, ite_self]
  · have hslot : t.slot n = (t[n]?).filter (·.file.isSome) := if_neg (by omega)
    rw [host_natCast, host_natCast, hslot, List.getElem?_map]
    cases t[n]? with
    | none => rfl
    | some y =>
      rw [filter_some, map_some, bind_some, bind_some]
      cases hf : y.file with
      | none =>
        have hnone : (if y.cloexec then ({} : FdSlot) else y).file = none := by
          split_ifs
          · rfl
          · exact hf
        rw [hnone, ite_self]
      | some f =>
        cases hc : y.cloexec with
        | true => simp [hc]
        | false => simp [hc, hf]

end FdTable

/-! ## The maps of a trap -/

inductive ObjKind where
  | epoll | inotify | timerfd | pidfd | dirStream
  deriving DecidableEq

structure TrapMaps where
  /-- `epolls_`, `inotifies_`, `timerfds_`, `pidfds_` and `dirs_`: the file that an entry was made
  for. -/
  side : ObjKind → ℤ → Option ℕ := fun _ _ => none
  /-- The timer made with a file: the number it writes to, and whether it is armed. -/
  timers : ℕ → Option (ℕ × Bool) := fun _ => none

/-- What a call works on: the maps of its thread, and the table of the process with the number of
the next file. -/
structure Trap extends TrapMaps where
  fds : FdTable := []
  next : ℕ := 0

/-- The calls, with the numbers that the host gives to new files; `opens` says whether the host
makes a directory stream of the file. -/
inductive Call where
  | openFile (fd : ℕ) (cloexec : Bool)
  | dup (g : ℤ)
  | dup3 (g target : ℤ) (cloexec : Bool)
  | close (g : ℤ)
  | closeRange (lo hi : ℤ)
  | exec
  | epollCreate1 (fd : ℕ) (cloexec : Bool)
  | epollCtl (g : ℤ)
  | epollPwait (g : ℤ)
  | inotifyInit1 (fd : ℕ) (cloexec : Bool)
  | inotifyAddWatch (g : ℤ)
  | inotifyRmWatch (g : ℤ)
  | read (g : ℤ)
  | timerfdCreate (readEnd writeEnd : ℕ) (cloexec : Bool)
  | timerfdSettime (g : ℤ) (armed : Bool)
  | timerfdGettime (g : ℤ)
  | pidfdOpen (fd : ℕ)
  | pidfdSendSignal (g : ℤ)
  | getdents (g : ℤ) (opens : Bool)

namespace TrapMaps

def setSide (m : TrapMaps) (k : ObjKind) (g : ℤ) (o : Option ℕ) : TrapMaps :=
  { m with side := update m.side k (update (m.side k) g o) }

def setTimer (m : TrapMaps) (id : ℕ) (armed : Bool) : TrapMaps :=
  { m with timers := update m.timers id ((m.timers id).map fun tm => (tm.1, armed)) }

theorem side_setSide (m : TrapMaps) (k : ObjKind) (g : ℤ) (o : Option ℕ) (k' : ObjKind) (g' : ℤ) :
    (m.setSide k g o).side k' g' = if k' = k ∧ g' = g then o else m.side k' g' := by
  dsimp only [setSide]
  by_cases hk : k' = k
  · subst hk
    rw [update_self]
    by_cases hg : g' = g
    · rw [hg, update_self, if_pos ⟨rfl, rfl⟩]
    · rw [update_of_ne hg, if_neg fun h => hg h.2]
  · rw [update_of_ne hk, if_neg fun h => hk h.1]

end TrapMaps

namespace Trap

def make (s : Trap) (slot : ℕ → FdSlot) (k : Option ObjKind) : Trap :=
  match addSlot FdTable.isFree kMaxFds s.fds (slot s.next) with
  | none => s
  | some (g, t) =>
    match k with
    | none => { s with fds := t, next := s.next + 2 }
    | some k =>
      { s.setSide k g (some s.next) with fds := t, next := s.next + 2 }

def fileSlot (fd : ℕ) (cloexec : Bool) (id : ℕ) : FdSlot :=
  { file := some ⟨id, fd⟩, cloexec := cloexec }

def call (s : Trap) : Call → Trap
  | .openFile fd cloexec => s.make (fileSlot fd cloexec) none
  | .dup g => { s with fds := s.fds.dup g }
  | .dup3 g target cloexec => { s with fds := s.fds.dup3 g target cloexec }
  | .close g =>
    { (s.setSide .dirStream g none).setSide .epoll g none with
      fds := s.fds.close g, next := s.next }
  | .closeRange lo hi => { s with fds := s.fds.closeRange lo hi }
  | .exec => { s with fds := s.fds.onExec, side := update s.side .dirStream fun _ => none }
  | .epollCreate1 fd cloexec => s.make (fileSlot fd cloexec) (some .epoll)
  | .inotifyInit1 fd cloexec => s.make (fileSlot fd cloexec) (some .inotify)
  | .timerfdCreate readEnd writeEnd cloexec =>
    let read : HostFd := ⟨s.next, readEnd⟩
    let write : HostFd := ⟨s.next + 1, writeEnd⟩
    match s.fds.installEventfd read write cloexec with
    | none => s
    | some (g, t) =>
      { s.setSide .timerfd g (some s.next) with
        fds := t, next := s.next + 2
        timers := update s.timers s.next (some (writeEnd, false)) }
  | .timerfdSettime g armed =>
    match s.side .timerfd g with
    | none => s
    | some id => { s.setTimer id armed with fds := s.fds, next := s.next }
  | .pidfdOpen fd => s.make (fileSlot fd true) (some .pidfd)
  | .getdents g opens =>
    match s.fds.host g, s.side .dirStream g with
    | some f, none =>
      if opens then { s.setSide .dirStream g (some f.id) with fds := s.fds, next := s.next } else s
    | _, _ => s
  | .epollCtl _ | .epollPwait _ | .inotifyAddWatch _ | .inotifyRmWatch _ | .read _
  | .timerfdGettime _ | .pidfdSendSignal _ => s

def looksUp (s : Trap) : Call → Option (ObjKind × ℤ)
  | .epollCtl g | .epollPwait g => some (.epoll, g)
  | .inotifyAddWatch g | .inotifyRmWatch g => some (.inotify, g)
  | .read g => if (s.fds.host g).isSome then some (.inotify, g) else none
  | .timerfdSettime g _ | .timerfdGettime g => some (.timerfd, g)
  | .pidfdSendSignal g => some (.pidfd, g)
  | .getdents g _ => if (s.fds.host g).isSome then some (.dirStream, g) else none
  | _ => none

end Trap

/-! ## The threads of a process -/

/-- The table, and the maps of every thread; the initial one is 0. -/
structure Objects where
  fds : FdTable := []
  next : ℕ := 0
  maps : ℕ → TrapMaps := fun _ => {}

namespace Objects

def trap (s : Objects) (a : ℕ) : Trap := { s.maps a with fds := s.fds, next := s.next }

inductive Event where
  | call (thread : ℕ) (c : Call)
  /-- The maps of a thread go with it, and the process with the initial one. -/
  | exit (thread : ℕ)
  /-- The wheel fires a timer, which is then armed again or not.  That of the initial thread is the
  only one that is started. -/
  | expire (timer : ℕ) (again : Bool)

def step (s : Objects) : Event → Objects
  | .call a c =>
    let t := (s.trap a).call c
    { fds := t.fds, next := t.next, maps := update s.maps a t.toTrapMaps }
  | .exit a => if a = 0 then {} else { s with maps := update s.maps a {} }
  | .expire timer again => { s with maps := update s.maps 0 ((s.maps 0).setTimer timer again) }

end Objects

/-- The entry, if there is one, was made for the file that is open. -/
def Trap.Current (s : Trap) (k : ObjKind) (g : ℤ) : Prop :=
  ∀ id ∈ s.side k g, ∃ f, s.fds.host g = some f ∧ f.id = id

/-- A call uses the state of the file that is open, and a timer that fires still has a
descriptor. -/
def Objects.Right (s : Objects) : Objects.Event → Prop
  | .call a c => ∀ k g, (s.trap a).looksUp c = some (k, g) → (s.trap a).Current k g
  | .exit _ => True
  | .expire timer _ => ∀ w, (s.maps 0).timers timer = some (w, true) →
    ∃ g f, s.fds.host g = some f ∧ f.id = timer

/-- The call takes away the file that is open as `h`. -/
def Takes (t : FdTable) (h : ℤ) : Call → Prop
  | .close g => h = g
  | .dup3 g target _ =>
    h = target ∧ 0 ≤ target ∧ target < kMaxFds ∧ t.host g ≠ none ∧ t.host g ≠ t.host target
  | .closeRange lo hi => lo ≤ h ∧ h ≤ hi ∧ h < kMaxFds
  | .exec => (t.slot h).any (·.cloexec)
  | _ => False

/-- The maps in which the call forgets what it takes away. -/
def Forgets (k : ObjKind) : Call → Prop
  | .close _ => k = .epoll ∨ k = .dirStream
  | .exec => k = .dirStream
  | _ => False

/-- No entry of any thread is left behind by the call that takes the descriptor away. -/
def Objects.Careful (s : Objects) : Objects.Event → Prop
  | .call a c => ∀ h, Takes s.fds h c → ∀ b k, (s.maps b).side k h ≠ none → b = a ∧ Forgets k c
  | _ => True

/-! ## Runs -/

namespace FdTable

theorem host_installEventfd {t t' : FdTable} {r w : HostFd} {cloexec : Bool} {g : ℕ}
    (h : t.installEventfd r w cloexec = some (g, t')) (k : ℤ) :
    t'.host k = if k = g then some r else t.host k :=
  host_addSlot h k

theorem host_dup (t : FdTable) (g h : ℤ) : (t.dup g).host h = t.host h ∨ t.host h = none := by
  obtain hsame | ⟨x, g', hadd⟩ := t.dup_cases g
  · exact .inl (by rw [hsame])
  · rw [host_addSlot hadd]
    split_ifs with hg
    · exact .inr (hg ▸ host_of_addSlot hadd)
    · exact .inl rfl

end FdTable

namespace Trap

variable {s : Trap}

theorem host_make (s : Trap) (slot : ℕ → FdSlot) (k : Option ObjKind) (h : ℤ) :
    (s.make slot k).fds.host h = s.fds.host h ∨ s.fds.host h = none := by
  unfold make
  cases hadd : addSlot FdTable.isFree kMaxFds s.fds (slot s.next) with
  | none => exact .inl rfl
  | some placed =>
    have hhost : FdTable.host placed.2 h = s.fds.host h ∨ s.fds.host h = none := by
      rw [FdTable.host_addSlot hadd]
      split_ifs with hg
      · exact .inr (hg ▸ FdTable.host_of_addSlot hadd)
      · exact .inl rfl
    cases k <;> exact hhost

/-- A file that is open stays so, unless the call takes it away. -/
theorem host_call (s : Trap) (c : Call) (h : ℤ) :
    (s.call c).fds.host h = s.fds.host h ∨ s.fds.host h = none ∨ Takes s.fds h c := by
  cases c with
  | openFile fd cloexec | epollCreate1 fd cloexec | inotifyInit1 fd cloexec | pidfdOpen fd =>
    exact (s.host_make _ _ h).imp_right .inl
  | dup g => exact (s.fds.host_dup g h).imp_right .inl
  | dup3 g target cloexec =>
    by_cases ht : Takes s.fds h (.dup3 g target cloexec)
    · exact .inr (.inr ht)
    · refine .inl ?_
      dsimp only [call]
      obtain hsame | ⟨hok, hhost⟩ := s.fds.dup3_cases g target cloexec
      · rw [hsame]
      · rw [hhost]
        split_ifs with heq
        · subst heq
          by_contra hne
          exact ht ⟨rfl, hok.1, hok.2.1, hok.2.2, hne⟩
        · rfl
  | close g =>
    by_cases hg : h = g
    · exact .inr (.inr hg)
    · exact .inl ((s.fds.host_close g h).trans (if_neg hg))
  | closeRange lo hi =>
    by_cases hin : lo ≤ h ∧ h ≤ hi ∧ h < kMaxFds
    · exact .inr (.inr hin)
    · exact .inl ((s.fds.host_closeRange lo hi h).trans (if_neg hin))
  | exec =>
    by_cases hc : (s.fds.slot h).any (·.cloexec)
    · exact .inr (.inr hc)
    · exact .inl ((s.fds.host_onExec h).trans (if_neg hc))
  | timerfdCreate readEnd writeEnd cloexec =>
    dsimp only [call]
    cases hadd : s.fds.installEventfd ⟨s.next, readEnd⟩ ⟨s.next + 1, writeEnd⟩ cloexec with
    | none => exact .inl rfl
    | some placed =>
      dsimp only
      rw [FdTable.host_installEventfd hadd]
      split_ifs with hg
      · exact .inr (.inl (hg ▸ FdTable.host_of_addSlot hadd))
      · exact .inl rfl
  | timerfdSettime g armed =>
    dsimp only [call]
    cases s.side .timerfd g <;> exact .inl rfl
  | getdents g opens =>
    dsimp only [call]
    cases s.fds.host g <;> cases s.side .dirStream g <;> cases opens <;> exact .inl rfl
  | epollCtl | epollPwait | inotifyAddWatch | inotifyRmWatch | read | timerfdGettime
  | pidfdSendSignal => exact .inl rfl

/-- Every entry is current, and every timer is that of an entry. -/
structure Inv (s : Trap) : Prop where
  current : ∀ k g, s.Current k g
  timers : ∀ id tm, s.timers id = some tm → ∃ g, s.side .timerfd g = some id

theorem Inv.mono {s' : Trap} (hi : s.Inv)
    (hside : ∀ k g id, s'.side k g = some id →
      s.side k g = some id ∧ s'.fds.host g = s.fds.host g)
    (htimerfd : s'.side .timerfd = s.side .timerfd)
    (htimers : ∀ id, (s'.timers id).isSome → (s.timers id).isSome) : s'.Inv := by
  refine ⟨fun k g id hid => ?_, fun id tm htm => ?_⟩
  · obtain ⟨hold, hhost⟩ := hside k g id hid
    obtain ⟨f, hf, hfid⟩ := hi.current k g id hold
    exact ⟨f, hhost.trans hf, hfid⟩
  · obtain ⟨tm', htm'⟩ := isSome_iff_exists.1 (htimers id (isSome_iff_exists.2 ⟨tm, htm⟩))
    rw [htimerfd]
    exact hi.timers id tm' htm'

theorem Inv.side_none (hi : s.Inv) {g : ℤ} (h : s.fds.host g = none) (k : ObjKind) :
    s.side k g = none := by
  cases hs : s.side k g with
  | none => rfl
  | some id =>
    obtain ⟨f, hf, -⟩ := hi.current k g id hs
    rw [h] at hf
    cases hf

/-- The maps stay current over a table that keeps the files they have entries for. -/
theorem Inv.table (hi : s.Inv) {t : FdTable} {n : ℕ}
    (h : ∀ k g, s.side k g ≠ none → t.host g = s.fds.host g ∨ s.fds.host g = none) :
    Inv { s with fds := t, next := n } := by
  refine hi.mono (fun k g id hid => ⟨hid, ?_⟩) rfl fun _ h => h
  have hid : s.side k g = some id := hid
  refine (h k g (by simp [hid])).resolve_right fun hnone => ?_
  exact absurd (hid.symm.trans (hi.side_none hnone k)) nofun

theorem Inv.add (hi : s.Inv) {x : FdSlot} {g : ℕ} {t : FdTable} {id fd : ℕ}
    (hadd : addSlot FdTable.isFree kMaxFds s.fds x = some (g, t)) (hx : x.file = some ⟨id, fd⟩)
    {s' : Trap} (hfds : s'.fds = t)
    (hside : ∀ k g' i, s'.side k g' = some i → s.side k g' = some i ∨ g' = g ∧ i = id)
    (htimers : ∀ i tm, s'.timers i = some tm → ∃ g', s'.side .timerfd g' = some i) : s'.Inv := by
  refine ⟨fun k g' i hid => ?_, htimers⟩
  rw [hfds, FdTable.host_addSlot hadd]
  obtain hold | ⟨rfl, rfl⟩ := hside k g' i hid
  · have hne : g' ≠ g := by
      rintro rfl
      rw [hi.side_none (FdTable.host_of_addSlot hadd)] at hold
      cases hold
    rw [if_neg hne]
    exact hi.current k g' i hold
  · rw [if_pos rfl]
    exact ⟨_, hx, rfl⟩

theorem side_of_setSide {m : TrapMaps} {k k' : ObjKind} {g g' : ℤ} {id i : ℕ}
    (h : (m.setSide k g (some id)).side k' g' = some i) :
    m.side k' g' = some i ∨ g' = g ∧ i = id := by
  rw [TrapMaps.side_setSide] at h
  split_ifs at h with hat
  · exact .inr ⟨hat.2, (some.inj h).symm⟩
  · exact .inl h

theorem Inv.make (hi : s.Inv) (fd : ℕ) (cloexec : Bool) (k : Option ObjKind)
    (hk : k ≠ some .timerfd) : (s.make (fileSlot fd cloexec) k).Inv := by
  unfold Trap.make
  cases hadd : addSlot FdTable.isFree kMaxFds s.fds (fileSlot fd cloexec s.next) with
  | none => exact hi
  | some placed =>
    obtain ⟨g, t⟩ := placed
    cases k with
    | none => exact hi.add hadd rfl rfl (fun _ _ _ h => .inl h) hi.timers
    | some k =>
      refine hi.add hadd rfl rfl (fun k' g' i h => side_of_setSide h) fun i tm htm => ?_
      obtain ⟨g', hg'⟩ := hi.timers i tm htm
      refine ⟨g', ?_⟩
      dsimp only
      rw [TrapMaps.side_setSide, if_neg fun h => hk (congrArg some h.1.symm)]
      exact hg'

theorem Inv.timerfdCreate (hi : s.Inv) (readEnd writeEnd : ℕ) (cloexec : Bool) :
    (s.call (.timerfdCreate readEnd writeEnd cloexec)).Inv := by
  dsimp only [call]
  cases hadd : s.fds.installEventfd ⟨s.next, readEnd⟩ ⟨s.next + 1, writeEnd⟩ cloexec with
  | none => exact hi
  | some placed =>
    obtain ⟨g, t⟩ := placed
    refine hi.add hadd rfl rfl (fun k' g' i h => side_of_setSide h) fun i tm htm => ?_
    dsimp only at htm ⊢
    by_cases hnew : i = s.next
    · exact ⟨g, by rw [TrapMaps.side_setSide, if_pos ⟨rfl, rfl⟩, hnew]⟩
    · rw [update_of_ne hnew] at htm
      obtain ⟨g', hg'⟩ := hi.timers i tm htm
      refine ⟨g', ?_⟩
      rw [TrapMaps.side_setSide, if_neg]
      · exact hg'
      · rintro ⟨-, rfl⟩
        rw [hi.side_none (FdTable.host_of_addSlot hadd)] at hg'
        cases hg'

theorem Inv.setTimer (hi : s.Inv) (id : ℕ) (armed : Bool) :
    Inv { s.setTimer id armed with fds := s.fds, next := s.next } := by
  refine hi.mono (fun k g i h => ⟨h, rfl⟩) rfl fun i h => ?_
  dsimp only [TrapMaps.setTimer] at h
  by_cases hid : i = id
  · rw [hid, update_self, isSome_map] at h
    exact hid ▸ h
  · rwa [update_of_ne hid] at h

theorem Inv.getdents (hi : s.Inv) (g : ℤ) (opens : Bool) : (s.call (.getdents g opens)).Inv := by
  dsimp only [call]
  cases hhost : s.fds.host g with
  | none => exact hi
  | some f =>
    cases hside : s.side .dirStream g with
    | some id => exact hi
    | none =>
      cases opens with
      | false => exact hi
      | true =>
        refine ⟨fun k h id hid => ?_, fun id tm htm => ?_⟩
        · obtain hold | ⟨rfl, rfl⟩ := side_of_setSide hid
          · exact hi.current k h id hold
          · exact ⟨f, hhost, rfl⟩
        · obtain ⟨g', hg'⟩ := hi.timers id tm htm
          refine ⟨g', ?_⟩
          show (s.setSide .dirStream g (some f.id)).side .timerfd g' = some id
          rw [TrapMaps.side_setSide, if_neg (fun h => nomatch h.1)]
          exact hg'

/-- A call that forgets the entries of its thread for what it takes away. -/
theorem Inv.call (hi : s.Inv) {c : Call}
    (hc : ∀ h, Takes s.fds h c → ∀ k, s.side k h ≠ none → Forgets k c) : (s.call c).Inv := by
  -- a file with an entry that is not forgotten is still open
  have hkept : ∀ k h, s.side k h ≠ none → ¬Forgets k c →
      (s.call c).fds.host h = s.fds.host h ∨ s.fds.host h = none := fun k h hk hf =>
    (s.host_call c h).imp_right fun h' => h'.resolve_right fun ht => hf (hc h ht k hk)
  cases c with
  | openFile fd cloexec => exact hi.make fd cloexec none nofun
  | dup g => exact hi.table fun k h hk => hkept k h hk id
  | dup3 g target cloexec => exact hi.table fun k h hk => hkept k h hk id
  | closeRange lo hi' => exact hi.table fun k h hk => hkept k h hk id
  | close g =>
    refine hi.mono (fun k h id hid => ?_) ?_ fun _ h => h
    · dsimp only [Trap.call] at hid
      rw [TrapMaps.side_setSide, TrapMaps.side_setSide] at hid
      split_ifs at hid with h1 h2
      refine ⟨hid, (s.fds.host_close g h).trans (if_neg ?_)⟩
      rintro rfl
      obtain hk | hk := hc h rfl k (by simp [hid])
      · exact h1 ⟨hk, rfl⟩
      · exact h2 ⟨hk, rfl⟩
    · funext h
      dsimp only [Trap.call]
      rw [TrapMaps.side_setSide, TrapMaps.side_setSide, if_neg (fun h => nomatch h.1),
        if_neg (fun h => nomatch h.1)]
  | exec =>
    have hne : ObjKind.timerfd ≠ .dirStream := nofun
    refine hi.mono (fun k h id hid => ?_) ?_ fun _ h => h
    · have hk : k ≠ .dirStream := by
        rintro rfl
        dsimp only [Trap.call] at hid
        rw [update_self] at hid
        cases hid
      dsimp only [Trap.call] at hid
      rw [update_of_ne hk] at hid
      refine ⟨hid, (hkept k h (by simp [hid]) hk).resolve_right fun hnone => ?_⟩
      exact absurd (hid.symm.trans (hi.side_none hnone k)) nofun
    · dsimp only [Trap.call]
      rw [update_of_ne hne]
  | epollCreate1 fd cloexec => exact hi.make fd cloexec (some .epoll) nofun
  | inotifyInit1 fd cloexec => exact hi.make fd cloexec (some .inotify) nofun
  | timerfdCreate r w cloexec => exact hi.timerfdCreate r w cloexec
  | timerfdSettime g armed =>
    dsimp only [Trap.call]
    cases s.side .timerfd g with
    | none => exact hi
    | some id => exact hi.setTimer id armed
  | pidfdOpen fd => exact hi.make fd true (some .pidfd) nofun
  | getdents g opens => exact hi.getdents g opens
  | epollCtl | epollPwait | inotifyAddWatch | inotifyRmWatch | read | timerfdGettime
  | pidfdSendSignal => exact hi

theorem inv_empty (t : FdTable) (n : ℕ) : Inv { fds := t, next := n } := ⟨fun _ _ => nofun, nofun⟩

end Trap

namespace Objects

variable {s : Objects}

def Inv (s : Objects) : Prop := ∀ a, (s.trap a).Inv

theorem Inv.right (hi : s.Inv) (e : Event) : s.Right e := by
  cases e with
  | call a c => exact fun k g _ => (hi a).current k g
  | exit a => trivial
  | expire timer again =>
    intro w hw
    obtain ⟨g, hg⟩ := (hi 0).timers timer _ hw
    obtain ⟨f, hf, hid⟩ := (hi 0).current .timerfd g timer hg
    exact ⟨g, f, hf, hid⟩

/-- The event changes the maps of one thread, and the table as the others bear it. -/
theorem Inv.set (hi : s.Inv) {a : ℕ} {t : Trap} (ht : t.Inv)
    (hothers : ∀ b ≠ a, ∀ k g, (s.maps b).side k g ≠ none →
      t.fds.host g = s.fds.host g ∨ s.fds.host g = none) :
    Inv { fds := t.fds, next := t.next, maps := update s.maps a t.toTrapMaps } := by
  intro b
  by_cases hb : b = a
  · subst hb
    rw [trap]
    dsimp only
    rw [update_self]
    exact ht
  · rw [trap]
    dsimp only
    rw [update_of_ne hb]
    exact (hi b).table (hothers b hb)

theorem Inv.step (hi : s.Inv) {e : Event} (hc : s.Careful e) : (s.step e).Inv := by
  cases e with
  | call a c =>
    refine hi.set ((hi a).call fun h ht k hk => (hc h ht a k hk).2) fun b hb k g hk => ?_
    obtain hsame | hnone | ht := (s.trap a).host_call c g
    · exact .inl hsame
    · exact .inr hnone
    · exact absurd (hc g ht b k hk).1 hb
  | exit a =>
    dsimp only [Objects.step]
    split_ifs
    · exact fun _ => Trap.inv_empty [] 0
    · exact hi.set (Trap.inv_empty s.fds s.next) fun _ _ _ _ _ => .inl rfl
  | expire timer again => exact hi.set ((hi 0).setTimer timer again) fun _ _ _ _ _ => .inl rfl

end Objects

end Linuxity.Hvf

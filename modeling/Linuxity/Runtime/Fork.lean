import Linuxity.Logic.Run
import Linuxity.Runtime.Frame

/-!
# Runtime.Fork — the directories and descriptors of a process tree

A `Tree` has the supervisor's state beside the processes as the kernel has them: a fork gives the
child a copy of what its parent has, and a call changes the process that makes it.  The supervisor
hears of forks and exits later, and sees each process only when it makes a call.
-/

namespace Linuxity.Runtime

open Posix Wire Kernel Abi Logic World Function

/-! ## A turn of the loop and the other processes -/

theorem recordCreatedMode_steady (opened : Option FdFile) (w : World) :
    Steady w (recordCreatedMode opened w) := by
  unfold recordCreatedMode
  split
  · rename_i l
    split
    · rename_i mode _ _
      dsimp only
      split_ifs
      · rfl
      · have h := Steady.chmodFd w l ((mode &&& 0o7777) ||| 0o600)
        generalize w.chmodFd l ((mode &&& 0o7777) ||| 0o600) = x at h ⊢
        obtain ⟨_ | _, w'⟩ := x
        · exact h
        · exact h.trans (.putMetas _ _ _)
    · rfl
  · rfl

theorem clearPending_own (w : World) : OwnDirs w (clearPending w) :=
  ⟨rfl, rfl, fun _ _ => rfl, fun _ _ => rfl, id⟩

theorem bindOpened_own (fd : Int) (opened : Option FdFile) (w : World) :
    OwnDirs w (bindOpened fd opened w) := by
  have h1 := OwnDirs.setFds w (w.fds.bindFd fd w.pendingOpen)
  unfold bindOpened
  dsimp only
  generalize w.setFds (w.fds.bindFd fd w.pendingOpen) = w1 at h1 ⊢
  have h2 :
      OwnDirs w1
      (if has w1.pendingFlags .creat then recordCreatedMode opened (w1.clearWhiteout w1.pendingOpen)
        else w1) := by
    split_ifs
    · exact Lax.steady ((Steady.clearWhiteout w1 _).trans (recordCreatedMode_steady _ _))
    · exact refl_of OwnDirs w1
  generalize (if has w1.pendingFlags .creat
      then recordCreatedMode opened (w1.clearWhiteout w1.pendingOpen) else w1) = w2
    at h2 ⊢
  have h12 := trans_of OwnDirs h1 h2
  split_ifs
  · exact h12
  · exact trans_of OwnDirs h12 (.setFds _ _)
  · exact trans_of OwnDirs h12 (.setFds _ _)

theorem noteOpenedFd_own (ret : Int) (opened : Option FdFile) (w : World) :
    OwnDirs w (noteOpenedFd ret opened w) := by
  unfold noteOpenedFd
  have h1 := OwnDirs.setFds w (w.fds.unbindFd (intOf ret))
  dsimp only
  split_ifs
  · exact clearPending_own w
  · exact trans_of OwnDirs h1 (clearPending_own _)
  · exact trans_of OwnDirs (trans_of OwnDirs h1 (bindOpened_own _ _ _)) (clearPending_own _)

theorem noteDup_own (m : DupMirror) (ret : Int) (opened : Option FdFile) (w : World) :
    OwnDirs w (noteDup m ret opened w) := by
  unfold noteDup
  have h1 : OwnDirs w
      (if 0 ≤ m.closeFirst ∧ m.closeFirst ≠ m.src then w.setFds (w.fds.unbindFd m.closeFirst)
          else w) := by
    split_ifs
    · exact .setFds _ _
    · exact refl_of OwnDirs w
  generalize (if 0 ≤ m.closeFirst ∧ m.closeFirst ≠ m.src then w.setFds (w.fds.unbindFd m.closeFirst)
      else w) = w1
    at h1 ⊢
  split_ifs
  · exact refl_of OwnDirs w
  · exact trans_of OwnDirs h1 (.setFds _ _)

instance : Quiet OwnDirs where
  hostOnly h := Lax.steady (by unfold Steady; rw [h])
  cleared := clearPending_own
  opened := noteOpenedFd_own
  dupped := noteDup_own

/-! ## The process whose call comes next -/

section Current

variable {pid ppid : Int} {w : World}

theorem setCurrentPid_curPid : (setCurrentPid pid ppid w).curPid = pid := by
  unfold setCurrentPid
  by_cases h : pid = w.seededPid
  · simp only [if_pos h]
  · by_cases hc : (w.cwds pid).isSome
    · simp only [if_neg h, if_pos hc]
    · simp only [if_neg h, if_neg hc]

theorem setCurrentPid_seededPid : (setCurrentPid pid ppid w).seededPid = pid := by
  unfold setCurrentPid
  by_cases h : pid = w.seededPid
  · simp only [if_pos h]
    exact h.symm
  · simp only [if_neg h]

theorem setCurrentPid_of_seen (ppid : Int) (h : (w.cwds pid).isSome) :
    (setCurrentPid pid ppid w).cwds = w.cwds ∧
      (setCurrentPid pid ppid w).fdTables = w.fdTables := by
  unfold setCurrentPid
  by_cases hs : pid = w.seededPid
  · simp only [if_pos hs, and_self]
  · simp only [if_neg hs, if_pos h, and_self]

theorem setCurrentPid_of_new (ppid : Int) (h : w.cwds pid = none) (hne : pid ≠ w.seededPid) :
    (setCurrentPid pid ppid w).cwds = update w.cwds pid (some ((w.cwds ppid).getD w.lastCwd)) ∧
    (setCurrentPid pid ppid w).fdTables = update w.fdTables pid
      ((w.fdTables (if (w.cwds ppid).isSome then ppid else w.lastPid)).or (w.fdTables pid)) := by
  have hc : ¬(w.cwds pid).isSome := by simp [h]
  unfold setCurrentPid
  simp only [if_neg hne, if_neg hc, true_and]
  rcases w.fdTables (if (w.cwds ppid).isSome then ppid else w.lastPid) with _ | t
  · simp
  · simp

end Current

/-! ## Processes -/

/-- Where the relative paths of a process start, and what its descriptors stand for. -/
@[ext] structure Dirs where
  cwd : Str := slash
  fds : FdTable := {}

def dirsOf (w : World) (pid : Int) : Dirs := ⟨w.cwdOf pid, (w.fdTables pid).getD {}⟩

structure Tree where
  world : World
  /-- The processes that live, as the kernel has them. -/
  procs : Int → Option Dirs
  /-- The forks the supervisor has not heard of, child first. -/
  untold : List (Int × Int) := []

inductive Event where
  | call (t : Task) (r : Regs) (sc : Sysno) (k : HostKernel)
  | opened (p : PendingOpen) (ret : Int) (file : Option FdFile)
  | fork (parent child : Int)
  | exit (pid : Int)
  | told (e : ProcEvent)

namespace Tree

/-- The first process, before its first call. -/
def launch (w : World) : Tree where
  world := { w with
    cwds := fun _ => none, fdTables := fun _ => none
    curPid := 1, seededPid := 0, lastPid := 0, lastCwd := slash }
  procs := fun q => if q = 1 then some {} else none

/-- A process has been served. -/
def served (tr : Tree) (pid : Int) (w : World) : Tree :=
  { tr with world := w, procs := update tr.procs pid (some (dirsOf w pid)) }

def step (tr : Tree) : Event → Tree
  | .call t r sc k => tr.served t.pid (serveCall t r sc k tr.world).2
  | .opened p ret file => tr.served p.pid (finishPendingOpen p ret file tr.world)
  | .fork parent child =>
    { tr with
      procs := update tr.procs child (tr.procs parent)
      untold := (child, parent) :: tr.untold }
  | .exit pid => { tr with procs := update tr.procs pid none }
  | .told (.spawn child parent) =>
    { tr with
      world := applyProcEvent (.spawn child parent) tr.world
      untold := tr.untold.erase (child, parent) }
  | .told (.reap pid) => { tr with world := applyProcEvent (.reap pid) tr.world }

/-- What the backend guarantees: calls come from living processes, the supervisor hears of forks
that were made and of exits that happened, and a number is given again only once it has heard of
the exit. -/
def Drives (tr : Tree) : Event → Prop
  | .call t _ _ _ => 0 < t.pid ∧ (tr.procs t.pid).isSome
  | .opened p _ _ => 0 < p.pid ∧ (tr.procs p.pid).isSome
  | .fork parent child =>
    (tr.procs parent).isSome ∧ tr.procs child = none ∧ tr.world.cwds child = none
  | .exit pid => (tr.procs pid).isSome
  | .told (.spawn child parent) => (child, parent) ∈ tr.untold
  | .told (.reap pid) => tr.procs pid = none

/-- What a process is served with is what it has. -/
def Sees (tr : Tree) : Event → Prop
  | .call t _ _ _ => some (dirsOf (setCurrentPid t.pid t.ppid tr.world) t.pid) = tr.procs t.pid
  | .opened p _ _ => some (dirsOf (setCurrentPid p.pid p.ppid tr.world) p.pid) = tr.procs p.pid
  | _ => True

/-- A process without a recorded directory gets what its parent, or the process served last, has
by now: it has to be what the process got at the fork. -/
def Seeds (tr : Tree) (pid ppid : Int) : Prop :=
  tr.world.cwds pid = none → ∀ d, tr.procs pid = some d →
    (tr.world.cwds ppid).getD tr.world.lastCwd = d.cwd ∧
    ((tr.world.fdTables (if (tr.world.cwds ppid).isSome then ppid else tr.world.lastPid)).or
      (tr.world.fdTables pid)).getD {} = d.fds

/-- The news of a fork records the directory the parent has by now, and no descriptor: those
recorded under the child's number have to be what the child got at the fork. -/
def Timely (tr : Tree) : Event → Prop
  | .call t _ _ _ => tr.Seeds t.pid t.ppid
  | .opened p _ _ => tr.Seeds p.pid p.ppid
  | .told (.spawn child parent) => ∀ d, tr.procs child = some d →
      (tr.world.cwds parent).getD slash = d.cwd ∧ (tr.world.fdTables child).getD {} = d.fds
  | _ => True

/-! ## Every run -/

/-- A process that lives is recorded as it is, or not at all. -/
structure Kept (tr : Tree) : Prop where
  seeded : tr.world.seededPid ≠ 0 → (tr.world.cwds tr.world.seededPid).isSome
  dirs : ∀ q d, tr.procs q = some d → (tr.world.cwds q).isSome → dirsOf tr.world q = d

variable {tr : Tree}

theorem Kept.unseeded (hk : Kept tr) {pid : Int} (hp : 0 < pid) (hc : tr.world.cwds pid = none) :
    pid ≠ tr.world.seededPid := by
  intro h
  have := hk.seeded (by omega)
  rw [← h, hc] at this
  simp at this

theorem Kept.seen (hk : Kept tr) {pid ppid : Int} (hp : 0 < pid) (hl : (tr.procs pid).isSome)
    (hs : tr.Seeds pid ppid) :
    some (dirsOf (setCurrentPid pid ppid tr.world) pid) = tr.procs pid := by
  obtain ⟨d, hd⟩ := Option.isSome_iff_exists.1 hl
  rw [hd]
  rcases hc : tr.world.cwds pid with _ | c
  · obtain ⟨h1, h2⟩ := setCurrentPid_of_new ppid hc (hk.unseeded hp hc)
    obtain ⟨hcwd, hfds⟩ := hs hc d hd
    simp only [dirsOf, World.cwdOf, h1, h2, update_self, Option.getD_some, hcwd, hfds]
  · have hsome : (tr.world.cwds pid).isSome := by rw [hc]; rfl
    obtain ⟨h1, h2⟩ := setCurrentPid_of_seen ppid hsome
    have := hk.dirs pid d hd hsome
    simpa only [dirsOf, World.cwdOf, h1, h2, Option.some_inj] using this

theorem Kept.current (hk : Kept tr) {pid : Int} (ppid : Int) (hp : 0 < pid) :
    ((setCurrentPid pid ppid tr.world).cwds pid).isSome ∧ ∀ q, q ≠ pid →
      (setCurrentPid pid ppid tr.world).cwds q = tr.world.cwds q ∧
      (setCurrentPid pid ppid tr.world).fdTables q = tr.world.fdTables q := by
  rcases hc : tr.world.cwds pid with _ | c
  · obtain ⟨h1, h2⟩ := setCurrentPid_of_new ppid hc (hk.unseeded hp hc)
    exact ⟨by simp [h1], fun q hq => by simp [h1, h2, hq]⟩
  · have hsome : (tr.world.cwds pid).isSome := by rw [hc]; rfl
    obtain ⟨h1, h2⟩ := setCurrentPid_of_seen ppid hsome
    exact ⟨by rw [h1]; exact hsome, fun q _ => by rw [h1, h2]; exact ⟨rfl, rfl⟩⟩

theorem Kept.served (hk : Kept tr) {pid : Int} (ppid : Int) (hp : 0 < pid) {w : World}
    (hw : OwnDirs (setCurrentPid pid ppid tr.world) w) : Kept (tr.served pid w) := by
  obtain ⟨hself, hothers⟩ := hk.current ppid hp
  have hcur : (setCurrentPid pid ppid tr.world).curPid = pid := setCurrentPid_curPid
  have hsome : (w.cwds pid).isSome := by
    have := hw.own
    rw [hcur] at this
    exact this hself
  refine ⟨fun _ => ?_, fun q d hq hc => ?_⟩
  · have : w.seededPid = pid := hw.seededPid.trans setCurrentPid_seededPid
    simpa only [Tree.served, this] using hsome
  · by_cases hqp : q = pid
    · subst hqp
      simpa [Tree.served] using hq
    · have hq' : tr.procs q = some d := by simpa [Tree.served, hqp] using hq
      have hne : q ≠ (setCurrentPid pid ppid tr.world).curPid := by rw [hcur]; exact hqp
      have h1 : w.cwds q = tr.world.cwds q := (hw.cwds q hne).trans (hothers q hqp).1
      have h2 : w.fdTables q = tr.world.fdTables q := (hw.fdTables q hne).trans (hothers q hqp).2
      have := hk.dirs q d hq' (h1 ▸ hc)
      simpa only [Tree.served, dirsOf, World.cwdOf, h1, h2] using this

theorem Kept.fork (hk : Kept tr) {parent child : Int} (hc : tr.world.cwds child = none) :
    Kept (tr.step (.fork parent child)) := by
  refine ⟨hk.seeded, fun q d hq hs => ?_⟩
  by_cases hqc : q = child
  · subst hqc
    simp [step, hc] at hs
  · exact hk.dirs q d (by simpa [step, hqc] using hq) hs

theorem Kept.exit (hk : Kept tr) (pid : Int) : Kept (tr.step (.exit pid)) := by
  refine ⟨hk.seeded, fun q d hq hs => ?_⟩
  by_cases hqp : q = pid
  · simp [step, hqp] at hq
  · exact hk.dirs q d (by simpa [step, hqp] using hq) hs

theorem Kept.spawn (hk : Kept tr) {child parent : Int}
    (ht : ∀ d, tr.procs child = some d →
      (tr.world.cwds parent).getD slash = d.cwd ∧ (tr.world.fdTables child).getD {} = d.fds) :
    Kept (tr.step (.told (.spawn child parent))) := by
  refine ⟨fun h => ?_, fun q d hq hs => ?_⟩
  · have hsome := hk.seeded h
    by_cases hsc : tr.world.seededPid = child
    · simp [step, applyProcEvent, inheritCwd, hsc]
    · simpa [step, applyProcEvent, inheritCwd, hsc] using hsome
  · by_cases hqc : q = child
    · subst hqc
      obtain ⟨hcwd, hfds⟩ := ht d hq
      simp only [step, applyProcEvent, inheritCwd, dirsOf, World.cwdOf, update_self,
        Option.getD_some, hcwd, hfds]
    · have hs' : (tr.world.cwds q).isSome := by
        simpa [step, applyProcEvent, inheritCwd, hqc] using hs
      simpa [step, applyProcEvent, inheritCwd, dirsOf, World.cwdOf, hqc] using hk.dirs q d hq hs'

theorem Kept.reap (hk : Kept tr) {pid : Int} : Kept (tr.step (.told (.reap pid))) := by
  by_cases h1 : pid = 1
  · simpa only [step, applyProcEvent, if_pos h1] using hk
  refine ⟨fun h => ?_, fun q d hq hs => ?_⟩
  · by_cases hps : pid = tr.world.seededPid
    · simp only [step, applyProcEvent, if_neg h1, forgetPid, if_pos hps] at h
      exact absurd rfl h
    · simp only [step, applyProcEvent, if_neg h1, forgetPid, if_neg hps] at h ⊢
      rw [update_of_ne (Ne.symm hps)]
      exact hk.seeded h
  · by_cases hqp : q = pid
    · simp [step, applyProcEvent, forgetPid, h1, hqp] at hs
    · have hs' : (tr.world.cwds q).isSome := by
        simpa [step, applyProcEvent, forgetPid, h1, hqp] using hs
      simpa [step, applyProcEvent, forgetPid, dirsOf, World.cwdOf, h1, hqp] using hk.dirs q d hq hs'

theorem serveCall_own (t : Task) (r : Regs) (sc : Sysno) (k : HostKernel) (w : World) :
    OwnDirs (setCurrentPid t.pid t.ppid w) (serveCall t r sc k w).2 :=
  trans_of OwnDirs (serve_own t r sc _) (complete_keeps t r sc k _ _)

theorem finishPendingOpen_own (p : PendingOpen) (ret : Int) (file : Option FdFile) (w : World) :
    OwnDirs (setCurrentPid p.pid p.ppid w) (finishPendingOpen p ret file w) := by
  unfold finishPendingOpen
  generalize setCurrentPid p.pid p.ppid w = w1
  have h1 : OwnDirs w1 (setPending p.path (p.flags &&& (2 ^ 64 - 1 - OpenFlag.creat.bits)) w1) :=
    Opening.ownDirs rfl
  exact trans_of OwnDirs h1 (noteOpenedFd_own ret file _)

/-- One event: what is served is what is there, and it stays so. -/
theorem Kept.step (hk : Kept tr) {e : Event} (hd : tr.Drives e) (ht : tr.Timely e) :
    tr.Sees e ∧ Kept (tr.step e) := by
  rcases e with ⟨t, r, sc, k⟩ | ⟨p, ret, file⟩ | ⟨parent, child⟩ | pid | ⟨child, parent⟩ | pid
  · exact ⟨hk.seen hd.1 hd.2 ht, hk.served t.ppid hd.1 (serveCall_own t r sc k _)⟩
  · exact ⟨hk.seen hd.1 hd.2 ht, hk.served p.ppid hd.1 (finishPendingOpen_own p ret file _)⟩
  · exact ⟨trivial, hk.fork hd.2.2⟩
  · exact ⟨trivial, hk.exit pid⟩
  · exact ⟨trivial, hk.spawn ht⟩
  · exact ⟨trivial, hk.reap⟩

/-- In every run in which each process is recorded with what it got at its fork, every process is
served with its own directory and descriptors. -/
theorem processes_served_apart (w : World) (es : List Event) (hd : Along step Drives (launch w) es)
    (ht : Along step Timely (launch w) es) : Along step Sees (launch w) es :=
  Along.of_invariant (I := Kept) (fun _ _ hk hc => hk.step hc.1 hc.2)
    ⟨fun h => absurd rfl h, fun _ _ _ h => by simp [launch] at h⟩ (hd.and ht)

/-! ## Two runs -/

/-- The host tree of `linkedHost`, mounted as it is. -/
def treeWorld : World where
  host := linkedHost
  mounts := [mountHost slash slash slash [] slash_ne_nil]

/-- A process that has the text `/etc` at address 1. -/
def procTask (pid ppid : Int) : Task where
  mem := .ofText "/etc"
  pid := pid
  ppid := ppid

/-- `open("/etc")`, which the kernel answers with 3. -/
def openEtc (pid ppid : Int) : Event :=
  .call (procTask pid ppid) ⟨0, fun n => if n = 0 then 1 else 0⟩ .open_ fun _ h => ⟨.ok 3, h, none⟩

/-- `chdir("/etc")`. -/
def chdirEtc (pid ppid : Int) : Event :=
  .call (procTask pid ppid) ⟨0, fun n => if n = 0 then 1 else 0⟩ .chdir fun _ h => ⟨.ok 0, h, none⟩

/-- A process changes its directory and forks, and its child is served in that directory. -/
def goodRun : List Event := [chdirEtc 1 0, .fork 1 2, .told (.spawn 2 1), chdirEtc 2 1]

theorem processes_served_apart_chdir :
    Along step Sees (launch treeWorld) goodRun ∧
      (dirsOf (setCurrentPid 2 1 ((goodRun.take 3).foldl step (launch treeWorld)).world) 2).cwd =
        "/etc".toList := by
  refine ⟨processes_served_apart treeWorld goodRun ?_ ?_, by decide +kernel⟩
  · exact ⟨⟨by decide, by decide +kernel⟩, ⟨by decide +kernel, rfl, by decide +kernel⟩,
      List.mem_singleton.2 rfl, ⟨by decide, by decide +kernel⟩, trivial⟩
  · have hfds : ((launch treeWorld).step (chdirEtc 1 0)).world.fdTables 1 = none :=
      Option.isNone_iff_eq_none.1 (by decide +kernel)
    refine ⟨fun _ d hd => ?_, trivial, fun d hd => ?_, fun hc => ?_, trivial⟩
    · cases hd
      exact ⟨rfl, rfl⟩
    · cases hd
      refine ⟨by decide +kernel, ?_⟩
      have h2 : ((launch treeWorld).step (chdirEtc 1 0)).world.fdTables 2 = none :=
        Option.isNone_iff_eq_none.1 (by decide +kernel)
      exact (congrArg (Option.getD · {}) (h2.trans hfds.symm))
    · exact absurd hc (by decide +kernel)

/-- A descriptor is opened, and then there is a fork; and in the second run the child opens one
and exits, and a new process gets its number. -/
def lostRun : List Event := [openEtc 1 0, .fork 1 2, .told (.spawn 2 1), chdirEtc 2 1]

def leftRun : List Event :=
  [chdirEtc 1 0, .fork 1 2, .told (.spawn 2 1), openEtc 2 1, .exit 2, .told (.reap 2), .fork 1 2,
    .told (.spawn 2 1), chdirEtc 2 1]

/-- The child has not its parent's descriptor, and the new process has the dead one's. -/
theorem fork_mixes_descriptors :
    (Along step Drives (launch treeWorld) lostRun ∧ ¬Along step Sees (launch treeWorld) lostRun) ∧
      Along step Drives (launch treeWorld) leftRun ∧
      ¬Along step Sees (launch treeWorld) leftRun := by
  have differ : ∀ {tr : Tree} {pid ppid : Int} {r : Regs} {sc : Sysno} {k : HostKernel},
      (dirsOf (setCurrentPid pid ppid tr.world) pid).fds.pathOfFd 3 ≠
        ((tr.procs pid).getD {}).fds.pathOfFd 3 → ¬tr.Sees (.call (procTask pid ppid) r sc k) := by
    intro tr pid ppid r sc k hne hs
    have hs : some (dirsOf (setCurrentPid pid ppid tr.world) pid) = tr.procs pid := hs
    exact hne (by rw [← hs]; rfl)
  refine ⟨⟨?_, fun hs => ?_⟩, ?_, fun hs => ?_⟩
  · exact ⟨⟨by decide, by decide +kernel⟩, ⟨by decide +kernel, rfl, by decide +kernel⟩,
      List.mem_singleton.2 rfl, ⟨by decide, by decide +kernel⟩, trivial⟩
  · exact differ (by decide +kernel) hs.2.2.2.1
  · exact ⟨⟨by decide, by decide +kernel⟩, ⟨by decide +kernel, rfl, by decide +kernel⟩,
      List.mem_singleton.2 rfl,
      ⟨by decide, by decide +kernel⟩, by simp only [Drives]; decide +kernel, rfl,
      ⟨by decide +kernel, rfl, by decide +kernel⟩, List.mem_singleton.2 rfl,
      ⟨by decide, by decide +kernel⟩, trivial⟩
  · exact differ (by decide +kernel) hs.2.2.2.2.2.2.2.2.1

end Tree

end Linuxity.Runtime

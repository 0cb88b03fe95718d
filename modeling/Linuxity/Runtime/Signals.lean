import Linuxity.Logic.Act
import Linuxity.Logic.Run
import Linuxity.Posix.Path
import Mathlib.Logic.Function.Basic

/-!
# Runtime.Signals — guest pids and the signals of the guest (`runtime/linux/ptrace_trap.hpp`)

The supervisor numbers the tasks of the guest and keeps, for each number, the host's id of the task.
A signal of the guest goes to the id that was recorded.  The record outlives the task, and the host
may give the id away again.
-/

namespace Linuxity.Runtime.Signals

open Logic Function List Option

abbrev Tid := Int

/-! ## The host -/

/-- A live task of the host. -/
structure HostTask where
  tgid : Tid
  ppid : Tid := 0
  /-- The supervisor traces it. -/
  guest : Bool
  tgid_pos : 0 < tgid

abbrev HostTasks := Tid → Option HostTask

variable (h : HostTasks) (tid : Tid)

/-- A line of `/proc/<tid>/status`, or zero. -/
def tgidField : Tid := (h tid).elim 0 HostTask.tgid

def ppidField : Tid := (h tid).elim 0 HostTask.ppid

inductive SigCall where
  | tgkill | rtTgsigqueueinfo | kill
  deriving DecidableEq

/-- A call of the supervisor that signals a task. -/
structure Sent where
  call : SigCall
  tid : Tid
  signum : Int
  deriving DecidableEq

/-- What the host has against a signal, the absence of the task apart. -/
abbrev Deny := SigCall → Tid → Option Int

variable (deny : Deny)

def esrch : Int := 3

/-- The error of a call, if any.  The first two want the leader of a thread group. -/
def sigError (c : SigCall) (tid : Tid) : Option Int :=
  match h tid with
  | none => some esrch
  | some k => if c ≠ .kill ∧ k.tgid ≠ tid then some esrch else deny c tid

/-! ## The supervisor's tables -/

structure PtraceTrap where
  rootPid : Tid
  cur : Tid := -1
  tasks : List Tid := []
  stopped : List Tid := []
  /-- Host id to guest pid. -/
  gpid : List (Tid × Int) := []
  hostOfGpid : Int → Option Tid := fun _ => none
  /-- Guest pid to the guest pid of the parent. -/
  gppid : Int → Option Int := fun _ => none
  tgidCache : Tid → Option Tid := fun _ => none
  nextGpid : Int := 2

/-- The number of a task; a task that is seen for the first time gets the next one. -/
def gpidOf : Act PtraceTrap Int := fun t =>
  if tid = t.rootPid then (1, t)
  else match t.gpid.lookup tid with
    | some g => (g, t)
    | none =>
      (t.nextGpid, { t with
        gpid := (tid, t.nextGpid) :: t.gpid
        hostOfGpid := update t.hostOfGpid t.nextGpid (some tid)
        nextGpid := t.nextGpid + 1 })

def hostTgidOf : Act PtraceTrap Tid := fun t =>
  match t.tgidCache tid with
  | some g => (g, t)
  | none =>
    let out := if 0 < tgidField h tid then tgidField h tid else tid
    (out, { t with tgidCache := update t.tgidCache tid (some out) })

def hostTgidsOf (h : HostTasks) : List Tid → Act PtraceTrap (List Tid)
  | [] => pure []
  | x :: xs => do
    let tg ← hostTgidOf h x
    let out ← hostTgidsOf h xs
    pure (tg :: out)

/-- The processes of the traced tasks, each once. -/
def hostTgids : Act PtraceTrap (List Tid) := do
  let tasks ← Act.read PtraceTrap.tasks
  let out ← hostTgidsOf h tasks
  pure out.eraseDups

def hostTidOf (pid : Int) (t : PtraceTrap) : Tid :=
  if pid = 1 then t.rootPid else (t.hostOfGpid pid).getD (-1)

/-- A pure lookup: zero for a task that has no number. -/
def knownGpidOf (host : Tid) (t : PtraceTrap) : Int :=
  if host = t.rootPid then 1
  else match t.gpid.lookup host with
    | some g => g
    | none => (t.tasks.findSome? fun tid =>
        if (t.tgidCache tid).getD (tgidField h tid) = host then t.gpid.lookup tid else none).getD 0

/-- The guest's own idea of the task that made a call: its process, its number and its parent. -/
def currentIds : Act PtraceTrap (Int × Int × Int) := do
  let cur ← Act.read PtraceTrap.cur
  let tg ← hostTgidOf h cur
  let pid ← gpidOf tg
  let tid ← gpidOf cur
  let ppid ← Act.read fun t => (t.gppid pid).getD 0
  pure (pid, tid, ppid)

/-- A clone that made a separate process is not a thread. -/
def noteThread (creator child : Tid) : Act PtraceTrap Unit := do
  let tg ← hostTgidOf h creator
  if 0 < tgidField h child ∧ tgidField h child ≠ tg then pure ()
  else do
    Act.modify fun t => { t with tgidCache := update t.tgidCache child (some tg) }
    let _ ← gpidOf child
    let _ ← gpidOf tg
    pure ()

/-- The children of a process that has died go where the host has put them. -/
def reparentOrphansOf (dead : Int) (t : PtraceTrap) : PtraceTrap :=
  { t with gppid := fun child => (t.gppid child).map fun parent =>
      let hp := ppidField h (hostTidOf child t)
      let np := knownGpidOf h hp t
      if parent ≠ dead ∨ child = dead ∨ hostTidOf child t ≤ 0 ∨ hp ≤ 0 then parent
      else if np ≤ 0 ∨ np = dead then 1 else np }

/-! ## Signal delivery -/

def sigcont : Int := 18

def sigterm : Int := 15

def sigkill : Int := 9

/-- The tasks of one group among those that are stopped. -/
def groupOf (h : HostTasks) (tg : Tid) : List Tid → Act PtraceTrap (List Tid)
  | [] => pure []
  | s :: ss => do
    let g ← hostTgidOf h s
    let wake ← groupOf h tg ss
    pure (if g = tg then s :: wake else wake)

/-- The stopped threads of the task's process go on. -/
def continueGroup : Act PtraceTrap Unit := do
  let tg ← hostTgidOf h tid
  let stopped ← Act.read PtraceTrap.stopped
  let wake ← groupOf h tg stopped
  if wake = [] then pure ()
  else do
    Act.modify fun t => { t with stopped := t.stopped.filter (· ∉ wake) }
    let _ ← gpidOf tg
    pure ()

/-- The calls of the supervisor, and what the guest is told. -/
abbrev Delivery := List Sent × Int

/-- The queued form first, and the direct ones where it is refused. -/
def sendTo (tid : Tid) (signum : Int) : Delivery :=
  let first := if signum = 0 then SigCall.tgkill else .rtTgsigqueueinfo
  match sigError h deny first tid with
  | none => ([⟨first, tid, signum⟩], 0)
  | some _ =>
    match sigError h deny .tgkill tid with
    | none => ([⟨first, tid, signum⟩, ⟨.tgkill, tid, signum⟩], 0)
    | some _ =>
      ([⟨first, tid, signum⟩, ⟨.tgkill, tid, signum⟩, ⟨.kill, tid, signum⟩],
        -((sigError h deny .kill tid).getD 0))

def deliverToTid (signum : Int) (tid : Tid) : Act PtraceTrap Delivery := do
  let cur ← Act.read PtraceTrap.cur
  let _ ← gpidOf cur -- the sender, in `si_pid`
  let d := sendTo h deny tid signum
  if d.2 = 0 ∧ signum = sigcont then do
    continueGroup h tid
    pure d
  else pure d

/-- Success if any one got it, and the first error if none did. -/
def deliverAll (one : Int → Act PtraceTrap Delivery) :
    List Int → Nat → Int → Act PtraceTrap Delivery
  | [], delivered, firstErr =>
    pure ([], if delivered = 0 then if firstErr ≠ 0 then firstErr else -esrch else 0)
  | x :: xs, delivered, firstErr => do
    let d ← one x
    let ds ← deliverAll one xs (if d.2 = 0 then delivered + 1 else delivered)
      (if d.2 ≠ 0 ∧ firstErr = 0 then d.2 else firstErr)
    pure (d.1 ++ ds.1, ds.2)

/-- Up the parents, for a bounded number of hops. -/
def descendsFrom (gppid : Int → Option Int) (root : Int) : Nat → Int → Bool
  | 0, _ => false
  | hops + 1, p =>
    if p ≤ 1 then false
    else match gppid p with
      | none => false
      | some q => q == root || descendsFrom gppid root hops q

/-- The leader of a group and its descendants, and the caller where it is meant. -/
def groupTargets (gpid leader : Int) (t : PtraceTrap) : List Tid :=
  let targets :=
    (t.gpid.filter fun p => p.2 == leader || descendsFrom t.gppid leader 64 p.2).map Prod.fst
  if (gpid = 0 ∨ gpid = -1) ∧ t.cur ∉ targets then targets ++ [t.cur] else targets

def deliverSignal (signum gpid : Int) : Act PtraceTrap Delivery :=
  if gpid ≤ 0 then do
    let cur ← Act.read PtraceTrap.cur
    let leader ← if gpid < -1 then pure (-gpid) else gpidOf cur
    let targets ← Act.read (groupTargets gpid leader)
    deliverAll (deliverToTid h deny signum) targets 0 0
  else do
    let tid ← Act.read (hostTidOf gpid)
    if tid < 0 then pure ([], -esrch) else deliverToTid h deny signum tid

/-- What the dispatcher makes of `kill`, `tkill` and `tgkill`. -/
inductive Raise where
  | one (gpid : Int)
  /-- A group that the dispatcher knows the members of. -/
  | group (members : List Int)

def serveRaise (signum : Int) : Raise → Act PtraceTrap Delivery
  | .one gpid => deliverSignal h deny signum gpid
  | .group members => deliverAll (deliverSignal h deny signum) members 0 0

/-! ## Stops -/

/-- The end of the session: what is left of the guest is asked to go. -/
def beginDrain (t : PtraceTrap) : List Sent :=
  t.tasks.flatMap fun tid => [⟨.kill, tid, sigcont⟩, ⟨.kill, tid, sigterm⟩]

def killRemaining (t : PtraceTrap) : List Sent := t.tasks.map fun tid => ⟨.kill, tid, sigkill⟩

/-- A task has exited.  Its number stays, for the parent that has yet to wait for it. -/
def taskExit (w : Tid) (t : PtraceTrap) : PtraceTrap :=
  let t := match t.gpid.lookup w with
    | none => t
    | some g => reparentOrphansOf h g t
  { t with
    tasks := t.tasks.filter (· ≠ w)
    stopped := t.stopped.filter (· ≠ w)
    tgidCache := update t.tgidCache w none }

def addTask (w : Tid) (t : PtraceTrap) : PtraceTrap := { t with tasks := t.tasks.insert w }

/-- `PTRACE_EVENT_FORK` and `PTRACE_EVENT_VFORK`. -/
def forkEvent (w child : Tid) : Act PtraceTrap Unit := do
  Act.modify (addTask child)
  let gpid ← gpidOf child
  let tg ← hostTgidOf h w
  let gppid ← gpidOf tg
  Act.modify fun t => { t with gppid := update t.gppid gpid (some gppid) }

/-- `PTRACE_EVENT_CLONE`. -/
def cloneEvent (w child : Tid) : Act PtraceTrap Unit := do
  Act.modify (addTask child)
  noteThread h w child

/-- `PTRACE_EVENT_EXEC`: the id that the thread had before is not asked for. -/
def execEvent (w : Tid) : Act PtraceTrap Unit := do
  let _ ← gpidOf w
  Act.modify (addTask w)

/-- A task that is stopped already is not reported again. -/
def stopEvent (w : Tid) : Act PtraceTrap Unit := do
  let known ← Act.read fun t => decide (w ∈ t.tasks ∧ w ∉ t.stopped)
  if known then do
    Act.modify fun t => { t with stopped := t.stopped.insert w }
    let tg ← hostTgidOf h w
    let _ ← gpidOf tg
    pure ()
  else pure ()

/-- The entry stop of a call. -/
def callEntry (w : Tid) : Act PtraceTrap Unit := do
  Act.modify fun t => { addTask w t with cur := w }
  let _ ← currentIds h
  pure ()

/-! ## The machine -/

structure Machine where
  host : HostTasks
  trap : PtraceTrap

variable (s : Machine)

inductive Event where
  /-- A task of the guest makes another one. -/
  | spawn (parent child : Tid) (thread : Bool)
  /-- A task outside the guest appears, or ends. -/
  | outside (tid : Tid) (k : HostTask)
  | ends (tid : Tid)
  | attach (w : Tid)
  | forked (w child : Tid)
  | cloned (w child : Tid)
  /-- The thread `former` executes a program and takes the id of its process. -/
  | exec (w former : Tid)
  | call (w : Tid)
  | raise (w : Tid) (k : Raise) (signum : Int) (deny : Deny)
  /-- A call of the guest returns a pid of the host. -/
  | returned (host : Tid)
  | groupStop (w : Tid)
  /-- The peers of a fifo are looked for. -/
  | fifoPeers
  /-- The exit is seen by the loop, or while a call is stepped. -/
  | exit (w : Tid) (stepped : Bool)
  | deadline

/-- The task that `parent` makes. -/
def childOf (parent child : Tid) (thread : Bool) (k : HostTask) (hc : 0 < child) : HostTask where
  tgid := if thread then k.tgid else child
  ppid := if thread then k.ppid else parent
  guest := true
  tgid_pos := by
    split_ifs
    · exact k.tgid_pos
    · exact hc

def Machine.step : Event → Machine × List Sent
  | .spawn parent child thread =>
    match s.host parent with
    | none => (s, [])
    | some k =>
      if hc : 0 < child then
        ({ s with host := update s.host child (some (childOf parent child thread k hc)) }, [])
      else (s, [])
  | .outside tid k => ({ s with host := update s.host tid (some k) }, [])
  | .ends tid => ({ s with host := update s.host tid none }, [])
  | .attach w => ({ s with trap := addTask w s.trap }, [])
  | .forked w child => ({ s with trap := (forkEvent s.host w child s.trap).2 }, [])
  | .cloned w child => ({ s with trap := (cloneEvent s.host w child s.trap).2 }, [])
  | .exec w former =>
    ({ host := update (update s.host former none) w (s.host former),
       trap := (execEvent w s.trap).2 }, [])
  | .call w => ({ s with trap := (callEntry s.host w s.trap).2 }, [])
  | .raise w k signum deny =>
    let r :=
      (do callEntry s.host w; serveRaise s.host deny signum k : Act PtraceTrap Delivery) s.trap
    ({ s with trap := r.2 }, r.1.1)
  | .returned host => ({ s with trap := (gpidOf host s.trap).2 }, [])
  | .groupStop w => ({ s with trap := (stopEvent s.host w s.trap).2 }, [])
  | .fifoPeers => ({ s with trap := (hostTgids s.host s.trap).2 }, [])
  | .exit w stepped =>
    let host := update s.host w none
    let trap := taskExit host w s.trap
    (⟨host, trap⟩, if w = s.trap.rootPid ∧ stepped = false then beginDrain trap else [])
  | .deadline => ({ s with trap := { s.trap with tasks := [] } }, killRemaining s.trap)

/-! ## The property -/

/-- A task outside the guest has the id. -/
def Foreign : Prop := ∃ k, h tid = some k ∧ k.guest = false

/-- The process of a task, as the supervisor takes it to be. -/
def Machine.groupSeen (x : Tid) : Tid := (s.trap.tgidCache x).getD (tgidField s.host x)

/-- The guest pid of a task's process, if it has been given one. -/
def Machine.pidSeen (x : Tid) : Option Int :=
  if s.groupSeen x = s.trap.rootPid then some 1 else s.trap.gpid.lookup (s.groupSeen x)

/-- Live processes of the guest have different guest pids. -/
def PidsDistinct : Prop :=
  ∀ x y kx ky, s.host x = some kx → s.host y = some ky → kx.guest → ky.guest → kx.tgid ≠ ky.tgid →
    ∀ p, s.pidSeen x = some p → s.pidSeen y ≠ some p

/-- No signal of the supervisor names a task outside the guest, and guest pids are unambiguous. -/
def GuestOnly (e : Event) : Prop :=
  (∀ g ∈ (s.step e).2, ¬Foreign (s.step e).1.host g.tid) ∧ PidsDistinct (s.step e).1

/-! ## Runs -/

def GuestTask : Prop := ∃ k, h tid = some k ∧ k.guest

/-- What the host lets happen: an id is given to one task at a time, and of the threads of a process
the exit of the leader is seen last. -/
def Fits : Event → Prop
  | .spawn parent child _ => GuestTask s.host parent ∧ s.host child = none
  | .outside tid k => k.guest = false ∧ s.host tid = none
  | .ends tid => Foreign s.host tid
  | .exec w former => ∃ k, s.host former = some k ∧ k.guest ∧ k.tgid = w
  | .exit w _ => GuestTask s.host w ∧ ∀ x k, s.host x = some k → k.guest → k.tgid = w → x = w
  | .attach w | .forked w _ | .cloned w _ | .call w | .raise w _ _ _ | .groupStop w =>
    GuestTask s.host w
  | .returned _ | .fifoPeers | .deadline => True

/-- The id is in one of the supervisor's tables. -/
def Recorded (t : PtraceTrap) (tid : Tid) : Prop :=
  tid = t.rootPid ∨ tid ∈ t.tasks ∨ (t.gpid.lookup tid).isSome

/-- No id that is in the tables, or gets there, is that of a task outside the guest, and a new task
of the guest is not taken for a thread of an earlier one. -/
def Kept : Event → Prop
  | .spawn parent child thread =>
    ∀ g, s.trap.tgidCache child = some g → g = if thread then tgidField s.host parent else child
  | .outside tid _ => ¬Recorded s.trap tid
  | .forked _ child | .cloned _ child => ¬Foreign s.host child
  | .returned host => Recorded s.trap host ∨ ¬Foreign s.host host
  | _ => True

/-- The guest has just been started, with one task. -/
structure Launched (s : Machine) (root : Tid) : Prop where
  trap : s.trap = { rootPid := root, tasks := [root] }
  leads : ∃ k, s.host root = some k ∧ k.guest ∧ k.tgid = root
  only : ∀ x k, s.host x = some k → k.guest → x = root

/-! ## The invariant -/

/-- The ids in the tables are not those of tasks outside, groups are right for the tasks that live,
and numbers are given once. -/
structure Sound (h : HostTasks) (t : PtraceTrap) : Prop where
  root : ¬Foreign h t.rootPid
  tasks : ∀ x ∈ t.tasks, ¬Foreign h x
  known : ∀ p ∈ t.gpid, ¬Foreign h p.1
  cache : ∀ x k, h x = some k → k.guest → ∀ g, t.tgidCache x = some g → g = k.tgid
  low : ∀ p ∈ t.gpid, 2 ≤ p.2
  high : ∀ p ∈ t.gpid, p.2 < t.nextGpid
  once : ∀ p ∈ t.gpid, ∀ q ∈ t.gpid, p.2 = q.2 → p.1 = q.1
  hosts : ∀ g x, t.hostOfGpid g = some x → (x, g) ∈ t.gpid
  next : 2 ≤ t.nextGpid

/-- The leader of a task of the guest lives, and is one of the guest. -/
def Grouped : Prop :=
  ∀ x k, h x = some k → k.guest → ∃ l, h k.tgid = some l ∧ l.guest ∧ l.tgid = k.tgid

/-- The tables stay sound, and the current task the same. -/
def StaysSound (t t' : PtraceTrap) : Prop := Sound h t' ∧ t'.cur = t.cur

section Tables

variable {h : HostTasks} {t : PtraceTrap} {tid : Tid}

theorem not_foreign_of_guest (hg : GuestTask h tid) : ¬Foreign h tid := by
  rintro ⟨k, hk, hf⟩
  obtain ⟨k', hk', hg⟩ := hg
  rw [hk] at hk'
  cases hk'
  exact absurd (hf.symm.trans hg) (by decide)

theorem mem_of_lookup {l : List (Tid × Int)} {g : Int}
    (hl : l.lookup tid = some g) : (tid, g) ∈ l := by
  induction l with
  | nil => cases hl
  | cons p l ih =>
    rw [lookup_cons] at hl
    split at hl
    · rename_i heq
      obtain rfl : tid = p.1 := by simpa using heq
      cases hl
      exact mem_cons_self
    · exact .tail _ (ih hl)

theorem lookup_isSome_of_mem {l : List (Tid × Int)} {p : Tid × Int} (hp : p ∈ l) :
    (l.lookup p.1).isSome := by
  induction l with
  | nil => cases hp
  | cons q l ih =>
    rw [lookup_cons]
    split
    · rfl
    · rename_i hne
      rcases mem_cons.1 hp with rfl | hp
      · simp at hne
      · exact ih hp

theorem gpidOf_sound (ht : Sound h t) (hx : ¬Foreign h tid) :
    Runs (gpidOf tid) t fun _ t' => StaysSound h t t' := by
  unfold Runs gpidOf
  by_cases hr : tid = t.rootPid
  · rw [if_pos hr]
    exact ⟨ht, rfl⟩
  rw [if_neg hr]
  rcases hl : t.gpid.lookup tid with _ | g
  · have hnext : t.nextGpid < t.nextGpid + 1 := Int.lt_succ t.nextGpid
    refine ⟨⟨ht.root, ht.tasks, ?_, ht.cache, ?_, ?_, ?_, ?_, ?_⟩, rfl⟩
    · rintro p hp
      rcases mem_cons.1 hp with rfl | hp
      · exact hx
      · exact ht.known p hp
    · rintro p hp
      rcases mem_cons.1 hp with rfl | hp
      · exact ht.next
      · exact ht.low p hp
    · rintro p hp
      rcases mem_cons.1 hp with rfl | hp
      · exact hnext
      · exact Int.lt_trans (ht.high p hp) hnext
    · rintro p hp q hq hpq
      rcases mem_cons.1 hp with rfl | hp <;> rcases mem_cons.1 hq with rfl | hq
      · rfl
      · exact absurd hpq.symm (Int.ne_of_lt (ht.high q hq))
      · exact absurd hpq (Int.ne_of_lt (ht.high p hp))
      · exact ht.once p hp q hq hpq
    · intro g x hg
      dsimp only at hg
      by_cases hn : g = t.nextGpid
      · subst hn
        rw [update_self] at hg
        cases hg
        exact mem_cons_self
      · rw [update_of_ne hn] at hg
        exact .tail _ (ht.hosts g x hg)
    · exact Int.le_trans ht.next (Int.le_of_lt hnext)
  · exact ⟨ht, rfl⟩

theorem hostTgidOf_sound (ht : Sound h t) (x : Tid) :
    Runs (hostTgidOf h x) t fun g t' => StaysSound h t t' ∧ ∀ k, h x = some k → k.guest →
      g = k.tgid := by
  unfold Runs hostTgidOf
  rcases hc : t.tgidCache x with _ | g
  · have hout : ∀ k, h x = some k → (if 0 < tgidField h x then tgidField h x else x) = k.tgid := by
      intro k hk
      have hf : tgidField h x = k.tgid := by rw [tgidField, hk, elim_some]
      rw [hf, if_pos k.tgid_pos]
    refine ⟨⟨⟨ht.root, ht.tasks, ht.known, ?_, ht.low, ht.high, ht.once, ht.hosts, ht.next⟩, rfl⟩,
      fun k hk _ => hout k hk⟩
    intro y k hk hg g' hg'
    dsimp only at hg'
    by_cases hy : y = x
    · subst hy
      rw [update_self] at hg'
      rw [← hout k hk]
      exact (Option.some.inj hg').symm
    · rw [update_of_ne hy] at hg'
      exact ht.cache y k hk hg g' hg'
  · exact ⟨⟨ht, rfl⟩, fun k hk hg => ht.cache x k hk hg g hc⟩

theorem hostTgidOf_guest (hh : Grouped h) (ht : Sound h t) (hg : GuestTask h tid) :
    Runs (hostTgidOf h tid) t fun g t' => StaysSound h t t' ∧ GuestTask h g := by
  refine (hostTgidOf_sound ht tid).mono ?_
  rintro g t' ⟨hs, hv⟩
  obtain ⟨k, hk, hg⟩ := hg
  rw [hv k hk hg]
  obtain ⟨l, hl, hlg, _⟩ := hh tid k hk hg
  exact ⟨hs, l, hl, hlg⟩

theorem StaysSound.trans {t' t'' : PtraceTrap} (h1 : StaysSound h t t') (h2 : StaysSound h t' t'') :
    StaysSound h t t'' :=
  ⟨h2.1, h2.2.trans h1.2⟩

theorem addTask_sound (ht : Sound h t) (hx : ¬Foreign h tid) : StaysSound h t (addTask tid t) := by
  refine ⟨⟨ht.root, ?_, ht.known, ht.cache, ht.low, ht.high, ht.once, ht.hosts, ht.next⟩, rfl⟩
  intro x hm
  rcases mem_insert_iff.1 hm with rfl | hm
  · exact hx
  · exact ht.tasks x hm

end Tables

/-! ## The supervisor's own steps -/

section Acts

variable {h : HostTasks} {t : PtraceTrap} {w child : Tid}

theorem runs_groupPid {α : Type} (hh : Grouped h) (ht : Sound h t) (hw : GuestTask h w)
    {f : Int → Act PtraceTrap α}
    {Q : α → PtraceTrap → Prop} (hf : ∀ g t', StaysSound h t t' → Runs (f g) t' Q) :
    Runs (do let tg ← hostTgidOf h w; let g ← gpidOf tg; f g) t Q := by
  obtain ⟨hs, hg⟩ := hostTgidOf_guest hh ht hw
  exact hf _ _ (hs.trans (gpidOf_sound hs.1 (not_foreign_of_guest hg)))

theorem currentIds_sound (hh : Grouped h) (ht : Sound h t) (hw : GuestTask h t.cur) :
    Runs (currentIds h) t fun _ t' => StaysSound h t t' := by
  refine runs_read_bind (runs_groupPid hh ht hw fun g t' ht' => ?_)
  exact ht'.trans (gpidOf_sound ht'.1 (not_foreign_of_guest hw))

theorem noteThread_sound (hh : Grouped h) (ht : Sound h t) (hw : GuestTask h w)
    (hc : ¬Foreign h child) : Runs (noteThread h w child) t fun _ t' => StaysSound h t t' := by
  refine runs_bind (hostTgidOf_guest hh ht hw) ?_
  rintro tg t' ⟨hs, hg⟩
  refine runs_ite (fun _ => runs_pure hs) fun hthread => runs_modify_bind ?_
  -- A child that lives is of the creator's process here.
  have hset : StaysSound h t' { t' with tgidCache := update t'.tgidCache child (some tg) } := by
    have ht' := hs.1
    refine ⟨⟨ht'.root, ht'.tasks, ht'.known, ?_, ht'.low, ht'.high, ht'.once, ht'.hosts, ht'.next⟩,
      rfl⟩
    intro y k hk hkg g hy
    dsimp only at hy
    by_cases hyc : y = child
    · subst hyc
      rw [update_self] at hy
      cases hy
      by_contra hne
      have hf : tgidField h y = k.tgid := by rw [tgidField, hk, elim_some]
      exact hthread (by rw [hf]; exact ⟨k.tgid_pos, Ne.symm hne⟩)
    · rw [update_of_ne hyc] at hy
      exact ht'.cache y k hk hkg g hy
  have h1 := gpidOf_sound hset.1 hc
  have h2 := gpidOf_sound h1.1 (not_foreign_of_guest hg)
  exact ((hs.trans hset).trans h1).trans h2

theorem forkEvent_sound (hh : Grouped h) (ht : Sound h t) (hw : GuestTask h w)
    (hc : ¬Foreign h child) : Runs (forkEvent h w child) t fun _ t' => StaysSound h t t' := by
  have h1 := addTask_sound ht hc
  refine runs_modify_bind (runs_bind (gpidOf_sound h1.1 hc) fun g t' h2 => ?_)
  refine runs_groupPid hh h2.1 hw fun g' t'' h3 => ?_
  obtain ⟨h', hcur⟩ := (h1.trans h2).trans h3
  exact ⟨⟨h'.root, h'.tasks, h'.known, h'.cache, h'.low, h'.high, h'.once, h'.hosts, h'.next⟩, hcur⟩

theorem cloneEvent_sound (hh : Grouped h) (ht : Sound h t) (hw : GuestTask h w)
    (hc : ¬Foreign h child) : Runs (cloneEvent h w child) t fun _ t' => StaysSound h t t' := by
  have h1 := addTask_sound ht hc
  exact runs_modify_bind ((noteThread_sound hh h1.1 hw hc).mono fun _ _ h2 => h1.trans h2)

theorem hostTgidsOf_sound (xs : List Tid) (ht : Sound h t) :
    Runs (hostTgidsOf h xs) t fun _ t' => StaysSound h t t' := by
  induction xs generalizing t with
  | nil => exact ⟨ht, rfl⟩
  | cons x xs ih =>
    refine runs_bind (hostTgidOf_sound ht x) ?_
    rintro tg t' ⟨h1, _⟩
    exact runs_bind (ih h1.1) fun _ _ h2 => runs_pure (h1.trans h2)

theorem stopEvent_sound (hh : Grouped h) (ht : Sound h t) (hw : GuestTask h w) :
    Runs (stopEvent h w) t fun _ t' => StaysSound h t t' := by
  refine runs_read_bind (runs_ite (fun _ => ?_) fun _ => runs_pure ⟨ht, rfl⟩)
  have h1 : StaysSound h t { t with stopped := t.stopped.insert w } :=
    ⟨⟨ht.root, ht.tasks, ht.known, ht.cache, ht.low, ht.high, ht.once, ht.hosts, ht.next⟩, rfl⟩
  exact runs_modify_bind (runs_groupPid hh h1.1 hw fun _ _ h2 => h1.trans h2)

theorem callEntry_sound (hh : Grouped h) (ht : Sound h t) (hw : GuestTask h w) :
    Runs (callEntry h w) t fun _ t' => Sound h t' ∧ t'.cur = w := by
  have h1 := (addTask_sound ht (not_foreign_of_guest hw)).1
  have h2 : Sound h { addTask w t with cur := w } :=
    ⟨h1.root, h1.tasks, h1.known, h1.cache, h1.low, h1.high, h1.once, h1.hosts, h1.next⟩
  exact runs_modify_bind (currentIds_sound hh h2 hw)

theorem taskExit_sound {h' : HostTasks} (ht : Sound h t) : Sound h (taskExit h' w t) := by
  have h1 : Sound h (match t.gpid.lookup w with
      | none => t
      | some g => reparentOrphansOf h' g t) := by
    split
    · exact ht
    · exact ⟨ht.root, ht.tasks, ht.known, ht.cache, ht.low, ht.high, ht.once, ht.hosts, ht.next⟩
  refine ⟨h1.root, fun x hx => h1.tasks x (mem_filter.1 hx).1, h1.known, ?_, h1.low, h1.high,
    h1.once, h1.hosts, h1.next⟩
  intro y k hk hkg g hy
  unfold taskExit at hy
  dsimp only at hy
  by_cases hyw : y = w
  · subst hyw
    rw [update_self] at hy
    cases hy
  · rw [update_of_ne hyw] at hy
    exact h1.cache y k hk hkg g hy

/-! ## Delivery -/

/-- The signals go to tasks that are not outside, and the tables stay sound. -/
def Delivers (h : HostTasks) (t : PtraceTrap) (x : Act PtraceTrap Delivery) : Prop :=
  Runs x t fun d t' => StaysSound h t t' ∧ ∀ g ∈ d.1, ¬Foreign h g.tid

theorem groupOf_sound (tg : Tid) (ss : List Tid) (ht : Sound h t) :
    Runs (groupOf h tg ss) t fun _ t' => StaysSound h t t' := by
  induction ss generalizing t with
  | nil => exact ⟨ht, rfl⟩
  | cons s ss ih =>
    refine runs_bind (hostTgidOf_sound ht s) ?_
    rintro g t' ⟨h1, _⟩
    exact runs_bind (ih h1.1) fun _ _ h2 => runs_pure (h1.trans h2)

theorem continueGroup_sound (hh : Grouped h) (ht : Sound h t) (hw : GuestTask h w) :
    Runs (continueGroup h w) t fun _ t' => StaysSound h t t' := by
  refine runs_bind (hostTgidOf_guest hh ht hw) ?_
  rintro tg t1 ⟨h1, hg⟩
  refine runs_read_bind (runs_bind (groupOf_sound tg t1.stopped h1.1) fun wake t2 h2 => ?_)
  refine runs_ite (fun _ => runs_pure (h1.trans h2)) fun _ => runs_modify_bind ?_
  have ht' := h2.1
  have h3 : StaysSound h t2 { t2 with stopped := t2.stopped.filter (· ∉ wake) } :=
    ⟨⟨ht'.root, ht'.tasks, ht'.known, ht'.cache, ht'.low, ht'.high, ht'.once, ht'.hosts, ht'.next⟩,
      rfl⟩
  exact ((h1.trans h2).trans h3).trans (gpidOf_sound h3.1 (not_foreign_of_guest hg))

theorem sendTo_tid (deny : Deny) (tid : Tid) (signum : Int) :
    ∀ g ∈ (sendTo h deny tid signum).1, g.tid = tid := by
  intro g hg
  unfold sendTo at hg
  dsimp only at hg
  split at hg
  · simp_all
  · split at hg <;> simp only [mem_cons, not_mem_nil, or_false] at hg <;>
      rcases hg with rfl | rfl | rfl <;> rfl

theorem deliverToTid_delivers (hh : Grouped h) (deny : Deny) (signum : Int) {tid : Tid}
    (ht : Sound h t) (hc : GuestTask h t.cur) (hx : ¬Foreign h tid) :
    Delivers h t (deliverToTid h deny signum tid) := by
  refine runs_read_bind (runs_bind (gpidOf_sound ht (not_foreign_of_guest hc)) fun _ t1 h1 => ?_)
  have hsent : ∀ g ∈ (sendTo h deny tid signum).1, ¬Foreign h g.tid := by
    intro g hg
    rw [sendTo_tid deny tid signum g hg]
    exact hx
  refine runs_ite (fun hcont => ?_) fun _ => runs_pure ⟨h1, hsent⟩
  have hw : GuestTask h tid := by
    rcases hk : h tid with _ | k
    · have he : ∀ c, sigError h deny c tid = some esrch := fun c => by rw [sigError, hk]
      simp [sendTo, he, esrch] at hcont
    · refine ⟨k, hk, ?_⟩
      by_contra hf
      exact hx ⟨k, hk, by simpa using hf⟩
  exact runs_bind (continueGroup_sound hh h1.1 hw) fun _ _ h2 => runs_pure ⟨h1.trans h2, hsent⟩

theorem deliverAll_delivers {one : Int → Act PtraceTrap Delivery} (xs : List Int) (n : Nat)
    (e : Int) (ht : Sound h t) (hone : ∀ x ∈ xs, ∀ t', StaysSound h t t' → Delivers h t' (one x)) :
    Delivers h t (deliverAll one xs n e) := by
  induction xs generalizing t n e with
  | nil => exact ⟨⟨ht, rfl⟩, nofun⟩
  | cons x xs ih =>
    refine runs_bind (hone x mem_cons_self t ⟨ht, rfl⟩) ?_
    rintro d t1 ⟨h1, hd⟩
    have hrest := ih (if d.2 = 0 then n + 1 else n) (if d.2 ≠ 0 ∧ e = 0 then d.2 else e) h1.1
      fun y hy t' h' => hone y (mem_cons_of_mem x hy) t' (h1.trans h')
    refine runs_bind hrest ?_
    rintro ds t2 ⟨h2, hds⟩
    exact runs_pure ⟨h1.trans h2, forall_mem_append.2 ⟨hd, hds⟩⟩

theorem groupTargets_sound {gpid leader : Int} (ht : Sound h t) (hc : GuestTask h t.cur) :
    ∀ x ∈ groupTargets gpid leader t, ¬Foreign h x := by
  have hkeys : ∀ x ∈ (t.gpid.filter fun p =>
        p.2 == leader || descendsFrom t.gppid leader 64 p.2).map Prod.fst, ¬Foreign h x := by
    intro x hx
    obtain ⟨p, hp, rfl⟩ := mem_map.1 hx
    exact ht.known p (mem_filter.1 hp).1
  intro x hx
  unfold groupTargets at hx
  dsimp only at hx
  split at hx
  · rcases mem_append.1 hx with hx | hx
    · exact hkeys x hx
    · rw [mem_singleton.1 hx]
      exact not_foreign_of_guest hc
  · exact hkeys x hx

theorem hostTidOf_sound {pid : Int} (ht : Sound h t) (hp : ¬hostTidOf pid t < 0) :
    ¬Foreign h (hostTidOf pid t) := by
  unfold hostTidOf at hp ⊢
  by_cases h1 : pid = 1
  · rw [if_pos h1]
    exact ht.root
  rw [if_neg h1] at hp ⊢
  rcases hx : t.hostOfGpid pid with _ | x
  · rw [hx] at hp
    exact absurd (by decide) hp
  · exact ht.known _ (ht.hosts pid x hx)

theorem deliverSignal_delivers (hh : Grouped h) (deny : Deny) (signum gpid : Int) (ht : Sound h t)
    (hc : GuestTask h t.cur) : Delivers h t (deliverSignal h deny signum gpid) := by
  have hall : ∀ (leader : Int) (t' : PtraceTrap), StaysSound h t t' →
      Runs (Act.read (groupTargets gpid leader) >>= fun targets =>
          deliverAll (deliverToTid h deny signum) targets 0 0) t'
        fun d t'' => StaysSound h t t'' ∧ ∀ g ∈ d.1, ¬Foreign h g.tid := by
    intro leader t' h1
    have hc' : GuestTask h t'.cur := by rwa [h1.2]
    refine runs_read_bind
      ((deliverAll_delivers _ 0 0 h1.1 fun x hx t2 h2 => ?_).mono
        fun _ _ h' => ⟨h1.trans h'.1, h'.2⟩)
    refine deliverToTid_delivers hh deny signum h2.1 ?_ (groupTargets_sound h1.1 hc' x hx)
    rwa [h2.2]
  refine runs_ite (fun _ => runs_read_bind ?_) fun _ => runs_read_bind ?_
  · refine runs_ite (fun _ => ?_) fun _ => ?_
    · exact hall (-gpid) t ⟨ht, rfl⟩
    · exact runs_bind (gpidOf_sound ht (not_foreign_of_guest hc)) hall
  · refine runs_ite (fun _ => runs_pure ⟨⟨ht, rfl⟩, nofun⟩) fun hpos => ?_
    exact deliverToTid_delivers hh deny signum ht hc (hostTidOf_sound ht hpos)

theorem serveRaise_delivers (hh : Grouped h) (deny : Deny) (signum : Int) (k : Raise)
    (ht : Sound h t) (hc : GuestTask h t.cur) : Delivers h t (serveRaise h deny signum k) := by
  cases k with
  | one gpid => exact deliverSignal_delivers hh deny signum gpid ht hc
  | group members =>
    refine deliverAll_delivers members 0 0 ht fun x _ t' h' => ?_
    refine deliverSignal_delivers hh deny signum x h'.1 ?_
    rwa [h'.2]

end Acts

/-! ## Runs of the machine -/

theorem Sound.host {h h' : HostTasks} {t : PtraceTrap} (ht : Sound h t)
    (hforeign : ∀ x, Recorded t x → Foreign h' x → Foreign h x)
    (hcache : ∀ x k, h' x = some k → k.guest → ∀ g, t.tgidCache x = some g → g = k.tgid) :
      Sound h' t where
  root hf := ht.root (hforeign _ (Or.inl rfl) hf)
  tasks x hx hf := ht.tasks x hx (hforeign x (Or.inr (Or.inl hx)) hf)
  known p hp hf := ht.known p hp (hforeign _ (Or.inr (Or.inr (lookup_isSome_of_mem hp))) hf)
  cache := hcache
  low := ht.low
  high := ht.high
  once := ht.once
  hosts := ht.hosts
  next := ht.next

variable {x : Tid} {s : Machine}

theorem Sound.recorded {h : HostTasks} {t : PtraceTrap} (ht : Sound h t)
    (hx : Recorded t x) : ¬Foreign h x := by
  rcases hx with rfl | hx | hx
  · exact ht.root
  · exact ht.tasks x hx
  · obtain ⟨g, hg⟩ := isSome_iff_exists.1 hx
    exact ht.known _ (mem_of_lookup hg)

/-- What a run keeps. -/
def Machine.Ok (s : Machine) : Prop := Grouped s.host ∧ Sound s.host s.trap

theorem Machine.groupSeen_eq (hs : s.Ok) {k : HostTask} (hk : s.host x = some k) (hg : k.guest) :
    s.groupSeen x = k.tgid := by
  unfold Machine.groupSeen
  rcases hc : s.trap.tgidCache x with _ | g
  · rw [getD_none, tgidField, hk, elim_some]
  · exact hs.2.cache x k hk hg g hc

theorem pidsDistinct_of_ok (hs : s.Ok) : PidsDistinct s := by
  intro x y kx ky hx hy hgx hgy hne p hpx hpy
  unfold Machine.pidSeen at hpx hpy
  rw [Machine.groupSeen_eq hs hx hgx] at hpx
  rw [Machine.groupSeen_eq hs hy hgy] at hpy
  -- The root is number one, and the others are numbered from two on.
  by_cases hrx : kx.tgid = s.trap.rootPid
  · rw [if_pos hrx] at hpx
    rw [if_neg fun hry => hne (hrx.trans hry.symm)] at hpy
    have hlow : 2 ≤ p := hs.2.low _ (mem_of_lookup hpy)
    cases hpx
    exact absurd hlow (by decide)
  rw [if_neg hrx] at hpx
  by_cases hry : ky.tgid = s.trap.rootPid
  · rw [if_pos hry] at hpy
    have hlow : 2 ≤ p := hs.2.low _ (mem_of_lookup hpx)
    cases hpy
    exact absurd hlow (by decide)
  rw [if_neg hry] at hpy
  exact hne (hs.2.once _ (mem_of_lookup hpx) _ (mem_of_lookup hpy) rfl)

section Host

variable {h : HostTasks} {t : PtraceTrap}

variable {w x : Tid} {k : HostTask}

theorem foreign_update_none (hf : Foreign (update h w none) x) : Foreign h x := by
  obtain ⟨k, hk, hg⟩ := hf
  by_cases hx : x = w
  · subst hx
    rw [update_self] at hk
    cases hk
  · rw [update_of_ne hx] at hk
    exact ⟨k, hk, hg⟩

theorem host_of_update_none (hk : update h w none x = some k) : x ≠ w ∧ h x = some k := by
  by_cases hx : x = w
  · subst hx
    rw [update_self] at hk
    cases hk
  · rw [update_of_ne hx] at hk
    exact ⟨hx, hk⟩

/-- A task that ends leaves the others as they are, if it leads none of them. -/
theorem Grouped.remove (hh : Grouped h) (hw : ∀ x k, h x = some k → k.guest → k.tgid = w → x = w) :
    Grouped (update h w none) := by
  intro x k hk hg
  obtain ⟨hx, hk⟩ := host_of_update_none hk
  obtain ⟨l, hl, hlg, hlt⟩ := hh x k hk hg
  have hne : k.tgid ≠ w := fun heq => hx (hw x k hk hg heq)
  exact ⟨l, by rwa [update_of_ne hne], hlg, hlt⟩

theorem Sound.remove (ht : Sound h t) : Sound (update h w none) t :=
  ht.host (fun _ _ hf => foreign_update_none hf) fun x k hk =>
    ht.cache x k (host_of_update_none hk).2

/-- A task that is new does not take the place of a leader. -/
theorem Grouped.add (hh : Grouped h) (hw : h w = none)
    (hk : k.guest → k.tgid = w ∨ ∃ l, h k.tgid = some l ∧ l.guest ∧ l.tgid = k.tgid) :
    Grouped (update h w (some k)) := by
  have hkeep : ∀ g, (∃ l, h g = some l ∧ l.guest ∧ l.tgid = g) →
      ∃ l, update h w (some k) g = some l ∧ l.guest ∧ l.tgid = g := by
    rintro g ⟨l, hl, hlg, hlt⟩
    have hne : g ≠ w := by
      rintro rfl
      rw [hw] at hl
      cases hl
    exact ⟨l, by rwa [update_of_ne hne], hlg, hlt⟩
  intro x kx hx hg
  by_cases hxw : x = w
  · subst hxw
    rw [update_self] at hx
    cases hx
    rcases hk hg with heq | hlead
    · exact ⟨k, by rw [heq, update_self], hg, rfl⟩
    · exact hkeep _ hlead
  · rw [update_of_ne hxw] at hx
    exact hkeep _ (hh x kx hx hg)

theorem foreign_update_some (hf : Foreign (update h w (some k)) x) :
    (x = w ∧ k.guest = false) ∨ Foreign h x := by
  obtain ⟨k', hk', hg⟩ := hf
  by_cases hx : x = w
  · subst hx
    rw [update_self] at hk'
    cases hk'
    exact Or.inl ⟨rfl, hg⟩
  · rw [update_of_ne hx] at hk'
    exact Or.inr ⟨k', hk', hg⟩

theorem Sound.add (ht : Sound h t) (hk : k.guest = false → ¬Recorded t w)
    (hc : k.guest → ∀ g, t.tgidCache w = some g → g = k.tgid) : Sound (update h w (some k)) t := by
  refine ht.host ?_ ?_
  · intro x hx hf
    rcases foreign_update_some hf with ⟨rfl, hg⟩ | hf
    · exact absurd hx (hk hg)
    · exact hf
  · intro x kx hx hg g hxg
    by_cases hxw : x = w
    · subst hxw
      rw [update_self] at hx
      cases hx
      exact hc hg g hxg
    · rw [update_of_ne hxw] at hx
      exact ht.cache x kx hx hg g hxg

/-- A thread that executes a program takes the place of its leader. -/
theorem Grouped.exec {former : Tid} (hh : Grouped h) (hk : h former = some k) (hg : k.guest)
    (hw : k.tgid = w) : Grouped (update (update h former none) w (h former)) := by
  intro x kx hx hgx
  have hlead : ∃ l, h kx.tgid = some l ∧ l.guest ∧ l.tgid = kx.tgid := by
    by_cases hxw : x = w
    · subst hxw
      rw [update_self, hk] at hx
      cases hx
      exact hh former k hk hg
    · rw [update_of_ne hxw] at hx
      exact hh x kx (host_of_update_none hx).2 hgx
  by_cases hl : kx.tgid = w
  · exact ⟨k, by rw [hl, update_self, hk], hg, hw.trans hl.symm⟩
  obtain ⟨l, hlh, hlg, hlt⟩ := hlead
  have hne : kx.tgid ≠ former := by
    intro heq
    rw [heq, hk] at hlh
    cases hlh
    exact hl (hlt.symm.trans hw)
  exact ⟨l, by rwa [update_of_ne hl, update_of_ne hne], hlg, hlt⟩

theorem Sound.exec {former : Tid} (hh : Grouped h) (ht : Sound h t) (hk : h former = some k)
    (hg : k.guest) (hw : k.tgid = w) : Sound (update (update h former none) w (h former)) t := by
  obtain ⟨l, hl, hlg, hlt⟩ := hh former k hk hg
  rw [hk]
  refine ht.remove.add (fun hf => absurd (hf.symm.trans hg) (by decide)) fun _ g hc => ?_
  rw [hw] at hl hlt
  rw [ht.cache w l hl hlg g hc, hlt, hw]

end Host

/-- The signals of a step, and the state it leaves. -/
def Guarded (r : Machine × List Sent) : Prop := (∀ g ∈ r.2, ¬Foreign r.1.host g.tid) ∧ r.1.Ok

theorem guarded_silent (hs : s.Ok) : Guarded (s, []) := ⟨nofun, hs⟩

theorem step_spawn {parent child : Tid} {thread : Bool} (hs : s.Ok)
    (hf : Fits s (.spawn parent child thread)) (hk : Kept s (.spawn parent child thread)) :
    Guarded (s.step (.spawn parent child thread)) := by
  obtain ⟨⟨k, hp, hg⟩, hfree⟩ := hf
  by_cases hc : 0 < child
  · have hstep : s.step (.spawn parent child thread) =
        ({ s with host := update s.host child (some (childOf parent child thread k hc)) }, []) := by
      simp only [Machine.step, hp, dif_pos hc]
    rw [hstep]
    have htgid : tgidField s.host parent = k.tgid := by rw [tgidField, hp, elim_some]
    refine guarded_silent ⟨hs.1.add hfree fun _ => ?_,
      hs.2.add (fun hn => nomatch hn) fun _ g hg' => ?_⟩
    · cases thread
      · exact Or.inl rfl
      · exact Or.inr (hs.1 parent k hp hg)
    · rw [hk g hg', htgid]
      cases thread <;> rfl
  · have hstep : s.step (.spawn parent child thread) = (s, []) := by
      simp only [Machine.step, hp, dif_neg hc]
    rw [hstep]
    exact guarded_silent hs

theorem step_exit {w : Tid} {stepped : Bool} (hs : s.Ok) (hf : Fits s (.exit w stepped)) :
    Guarded (s.step (.exit w stepped)) := by
  have hnew : Sound (update s.host w none) (taskExit (update s.host w none) w s.trap) :=
    taskExit_sound hs.2.remove
  refine ⟨?_, hs.1.remove hf.2, hnew⟩
  intro g hg
  simp only [Machine.step] at hg
  split at hg
  · obtain ⟨tid, htid, hg⟩ := mem_flatMap.1 hg
    have heq : g.tid = tid := by
      simp only [mem_cons, not_mem_nil, or_false] at hg
      rcases hg with rfl | rfl <;> rfl
    rw [heq]
    exact hnew.tasks tid htid
  · exact nomatch hg

theorem step_raise {w : Tid} {k : Raise} {signum : Int} {deny : Deny} (hs : s.Ok)
    (hf : Fits s (.raise w k signum deny)) : Guarded (s.step (.raise w k signum deny)) := by
  have hrun : Runs (do callEntry s.host w; serveRaise s.host deny signum k) s.trap
      fun d t' => Sound s.host t' ∧ ∀ g ∈ d.1, ¬Foreign s.host g.tid := by
    refine runs_bind (callEntry_sound hs.1 hs.2 hf) ?_
    rintro _ t' ⟨ht', hcur⟩
    have hc : GuestTask s.host t'.cur := by rwa [hcur]
    exact (serveRaise_delivers hs.1 deny signum k ht' hc).mono fun _ _ h' => ⟨h'.1.1, h'.2⟩
  exact ⟨hrun.2, hs.1, hrun.1⟩

theorem step_ok {e : Event} (hs : s.Ok) (hf : Fits s e) (hk : Kept s e) : Guarded (s.step e) := by
  cases e with
  | spawn parent child thread => exact step_spawn hs hf hk
  | outside tid k =>
    refine guarded_silent ⟨hs.1.add hf.2 fun hg => ?_, hs.2.add (fun _ => hk) fun hg => ?_⟩
    · exact absurd (hf.1.symm.trans hg) (by decide)
    · exact absurd (hf.1.symm.trans hg) (by decide)
  | ends tid =>
    refine guarded_silent ⟨hs.1.remove fun x k hx hg htg => ?_, hs.2.remove⟩
    obtain ⟨l, hl, hlg, _⟩ := hs.1 x k hx hg
    rw [htg] at hl
    exact absurd hf (not_foreign_of_guest ⟨l, hl, hlg⟩)
  | attach w => exact guarded_silent ⟨hs.1, (addTask_sound hs.2 (not_foreign_of_guest hf)).1⟩
  | forked w child => exact guarded_silent ⟨hs.1, (forkEvent_sound hs.1 hs.2 hf hk).1⟩
  | cloned w child => exact guarded_silent ⟨hs.1, (cloneEvent_sound hs.1 hs.2 hf hk).1⟩
  | exec w former =>
    obtain ⟨k, hk, hg, hw⟩ := hf
    have hat : update (update s.host former none) w (s.host former) w = some k := by
      rw [update_self, hk]
    have hgone := not_foreign_of_guest ⟨k, hat, hg⟩
    exact guarded_silent ⟨hs.1.exec hk hg hw,
      (addTask_sound (gpidOf_sound (hs.2.exec hs.1 hk hg hw) hgone).1 hgone).1⟩
  | call w => exact guarded_silent ⟨hs.1, (callEntry_sound hs.1 hs.2 hf).1⟩
  | raise w k signum deny => exact step_raise hs hf
  | returned host =>
    have hn : ¬Foreign s.host host := hk.elim hs.2.recorded id
    exact guarded_silent ⟨hs.1, (gpidOf_sound hs.2 hn).1⟩
  | groupStop w => exact guarded_silent ⟨hs.1, (stopEvent_sound hs.1 hs.2 hf).1⟩
  | fifoPeers => exact guarded_silent ⟨hs.1, (hostTgidsOf_sound s.trap.tasks hs.2).1⟩
  | exit w stepped => exact step_exit hs hf
  | deadline =>
    refine ⟨fun g hg => ?_, hs.1, ?_⟩
    · obtain ⟨tid, htid, rfl⟩ := mem_map.1 hg
      exact hs.2.tasks tid htid
    · have ht := hs.2
      exact ⟨ht.root, nofun, ht.known, ht.cache, ht.low, ht.high, ht.once, ht.hosts, ht.next⟩

theorem launched_ok {root : Tid} (hl : Launched s root) : s.Ok := by
  obtain ⟨k, hk, hg, ht⟩ := hl.leads
  have hroot : ¬Foreign s.host root := not_foreign_of_guest ⟨k, hk, hg⟩
  refine ⟨?_, ?_⟩
  · intro x kx hx hgx
    obtain rfl := hl.only x kx hx hgx
    rw [hk] at hx
    cases hx
    exact ⟨k, by rw [ht, hk], hg, rfl⟩
  · rw [hl.trap]
    refine ⟨hroot, ?_, ?_, ?_, ?_, ?_, ?_, ?_, ?_⟩
    · intro x hx
      rw [mem_singleton.1 hx]
      exact hroot
    · exact nofun
    · exact fun _ _ _ _ _ hc => nomatch hc
    · exact nofun
    · exact nofun
    · exact nofun
    · exact fun _ _ hc => nomatch hc
    · exact Int.le_refl 2

/-- In a run where no id of the tables goes to a task outside the guest, and no new task is taken
for a thread of an old one, signals stay in the guest and guest pids are unambiguous. -/
theorem signals_stay_in_guest {s : Machine} {root : Tid} {es : List Event} (hl : Launched s root)
    (hf : Along (fun s e => (s.step e).1) Fits s es)
    (hk : Along (fun s e => (s.step e).1) Kept s es) :
    Along (fun s e => (s.step e).1) GuestOnly s es := by
  refine Along.of_invariant (fun s e hs hc => ?_) (launched_ok hl) (hf.and hk)
  obtain ⟨hsent, hok⟩ := step_ok hs hc.1 hc.2
  exact ⟨⟨hsent, pidsDistinct_of_ok hok⟩, hok⟩

/-- The guest as it starts, in a host where the ids are otherwise free. -/
def sigStart : Machine where
  host := update (fun _ => none) 100 (some ⟨100, 1, true, by decide⟩)
  trap := { rootPid := 100, tasks := [100] }

theorem sigStart_none (hx : x ≠ 100) : sigStart.host x = none := by simp [sigStart, hx]

theorem launched_sigStart : Launched sigStart 100 where
  trap := rfl
  leads := ⟨_, rfl, rfl, rfl⟩
  only x k hk _ := by
    by_contra hx
    rw [sigStart_none hx] at hk
    cases hk

/-- A first child is alone in its process. -/
theorem sigStart_child {k : HostTask} {kx : HostTask}
    (hx : update sigStart.host 101 (some k) x = some kx) (ht : kx.tgid = 101) : x = 101 := by
  by_contra hne
  rw [update_of_ne hne] at hx
  by_cases h100 : x = 100
  · subst h100
    cases hx
    exact absurd ht (by decide)
  · rw [sigStart_none h100] at hx
    cases hx

def allow : Deny := fun _ _ => none

/-- A child is made and signalled, its exit is seen, and the session ends. -/
def killRun : List Event :=
  [.spawn 100 101 false, .forked 100 101, .raise 100 (.one 2) 9 allow, .exit 101 false, .deadline]

theorem signals_stay_in_guest_killRun :
    Along (fun s e => (s.step e).1) GuestOnly sigStart killRun := by
  refine signals_stay_in_guest launched_sigStart ?_ ?_
  · exact ⟨⟨⟨_, rfl, rfl⟩, rfl⟩, ⟨_, rfl, rfl⟩, ⟨_, rfl, rfl⟩,
      ⟨⟨_, rfl, rfl⟩, fun _ _ hx _ => sigStart_child hx⟩, trivial, trivial⟩
  · exact ⟨fun _ hg => (nomatch hg), not_foreign_of_guest ⟨_, rfl, rfl⟩, trivial, trivial, trivial,
      trivial⟩

/-- The child exits, its id is given away, and its parent signals it. -/
def recycledRun : List Event :=
  [.spawn 100 101 false, .forked 100 101, .exit 101 false, .outside 101 ⟨101, 1, false, by decide⟩,
    .raise 100 (.one 2) 9 allow]

/-- A thread executes a program, and a process gets the id that the thread had. -/
def execRun : List Event :=
  [.spawn 100 102 true, .cloned 100 102, .exec 100 102, .spawn 100 102 false]

/-- The numbers outlive their tasks, and so does the process a thread was recorded in. -/
theorem recycled_pid_leaks :
    Launched sigStart 100 ∧
      (Along (fun s e => (s.step e).1) Fits sigStart recycledRun ∧
        ¬Along (fun s e => (s.step e).1) GuestOnly sigStart recycledRun) ∧
      Along (fun s e => (s.step e).1) Fits sigStart execRun ∧
      ¬Along (fun s e => (s.step e).1) GuestOnly sigStart execRun := by
  refine ⟨launched_sigStart, ⟨?_, ?_⟩, ?_, ?_⟩
  · exact ⟨⟨⟨_, rfl, rfl⟩, rfl⟩, ⟨_, rfl, rfl⟩, ⟨⟨_, rfl, rfl⟩, fun _ _ hx _ => sigStart_child hx⟩,
      ⟨rfl, rfl⟩, ⟨_, rfl, rfl⟩, trivial⟩
  · rintro ⟨_, _, _, _, ⟨hsent, _⟩, _⟩
    exact hsent ⟨.rtTgsigqueueinfo, 101, 9⟩ (by decide +kernel) ⟨_, rfl, rfl⟩
  · exact ⟨⟨⟨_, rfl, rfl⟩, rfl⟩, ⟨_, rfl, rfl⟩, ⟨_, rfl, rfl, rfl⟩, ⟨⟨_, rfl, rfl⟩, rfl⟩, trivial⟩
  · rintro ⟨_, _, _, ⟨_, hpids⟩, _⟩
    exact hpids 100 102 _ _ rfl rfl rfl rfl (by decide +kernel) 1 (by decide +kernel)
      (by decide +kernel)

end Linuxity.Runtime.Signals

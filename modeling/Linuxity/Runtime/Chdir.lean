import Linuxity.Kernel.Alike
import Linuxity.Kernel.Agree
import Linuxity.Runtime.Fork

/-!
# Runtime.Chdir — the recorded directory and the real one

`chdir` looks the directory up, records it, and then asks the kernel to move the task, whose answer
is not waited for; `fchdir` records the path of the descriptor and passes the call on.  The record
is made first in both, so it stays when the kernel refuses.
-/

namespace Linuxity.Runtime

open Posix Wire Kernel Abi Logic

/-! ## The kernel's side -/

/-- A task may make the directory `l` its own. -/
def enter (h : Host) (l : Loc) : Except Errno Loc :=
  match h.node l with
  | none => .error .enoent
  | some d => if !d.isDir then .error .enotdir else if !d.searchable then .error .eacces else .ok l

def hostChdir (h : Host) (cwd : Loc) (p : Str) : Except Errno Loc :=
  match h.resolveAt cwd p true with
  | .error e => .error e
  | .ok (.free _ _) => .error .enoent
  | .ok (.found l) => enter h l

def hostFchdir (h : Host) (t : Task) (fd : Int) : Except Errno Loc :=
  match t.fd fd with
  | some (.named l) => enter h l
  | some (.unnamed _ _) => .error .enotdir
  | none => .error .ebadf

/-- A call that does not go through, for a reason that is not in the tree. -/
inductive Refusal where
  /-- A request of the tracer failed. -/
  | tracer (e : Errno)
  | kernel (e : Errno)

structure DirCall where
  task : Task
  regs : Regs
  byFd : Bool
  refusal : Option Refusal := none

/-- The supervisor's state, and the real directory of each process. -/
structure Desk where
  world : World
  hostDir : Int → Loc

namespace DirCall

variable (c : DirCall) (s : Desk)

def sysno : Sysno := if c.byFd then .fchdir else .chdir

def caller : Task := { c.task with hostCwd := s.hostDir c.task.pid }

def start : World := setCurrentPid c.task.pid c.task.ppid s.world

/-- Where the kernel moves the task that hands it `x`. -/
def goes (h : Host) (x : Handed) : Except Errno Loc :=
  match x with
  | .asIs => hostFchdir h c.task (int32 (c.regs.arg 0))
  | .paths p _ => hostChdir h (s.hostDir c.task.pid) p.hostPath
  | _ => .error .enosys

def kernel : HostKernel := fun x h =>
  { reply := match c.refusal with
      | some (.tracer e) => .error e
      | some (.kernel e) => .ok (-errnoCode e)
      | none => match c.goes s h x with
        | .ok _ => .ok 0
        | .error e => .ok (-errnoCode e)
    host := h }

/-- What the loop hands to the kernel for a decision. -/
def handed : Outcome → Option Handed
  | .forward _ => some .asIs
  | .redirect rd => some (.paths rd.first rd.second)
  | _ => none

def moved : Option Loc :=
  match c.refusal, handed (dispatch (c.caller s) c.regs c.sysno s.world).1 with
  | none, some x => (c.goes s s.world.host x).toOption
  | _, _ => none

def served : Answer × World := serveCall (c.caller s) c.regs c.sysno (c.kernel s) s.world

end DirCall

def Desk.step (s : Desk) (c : DirCall) : Desk where
  world := (c.served s).2
  hostDir := match c.moved s with
    | none => s.hostDir
    | some l => Function.update s.hostDir c.task.pid l

/-! ## The property -/

def guestDir (w : World) (g : Str) : Option Loc :=
  let pc := (classify g false true .copyLeaf w).1
  if pc.realm = .hostBacked then foundAt w.host pc.hostPath true else none

/-- A recorded directory changes with a call that succeeds, and to where the host has gone. -/
def CwdFollows (s : Desk) (c : DirCall) : Prop :=
  ∀ pid, (s.step c).world.cwdOf pid ≠ (c.start s).cwdOf pid →
    pid = c.task.pid ∧ (c.served s).1 = .ret 0 ∧ ∃ l, c.moved s = some l ∧
    guestDir (c.start s) ((s.step c).world.cwdOf pid) = some l

/-! ## The condition -/

def chdirPath (t : Task) (w : World) (abs : Str) : Option Str :=
  let pc := (classify abs false true .copyLeaf w).1
  let oc := (classify w.cwd false true .copyLeaf w).1
  if pc.realm ≠ .hostBacked then none
  else if pc.hostPath.length < pathMax then some pc.hostPath
  else chdirStep oc (hostCwdIs t w.host oc.hostPath) pc.hostPath

/-- The guest path is one that `chdir` takes. -/
def Taken (w : World) (abs : Str) : Prop :=
  let pc := (classify abs false true .copyLeaf w).1
  dirMissing pc (nodeAnyLength w.host pc.hostPath true) = none

/-- A path that `chdir` takes and that is not the recorded one has a host path that is handed to
the kernel, and the kernel lets the task in, to the directory that the path names. -/
def ChdirAccepted (s : Desk) (c : DirCall) : Prop :=
  ∀ abs, absolutize (c.start s) (c.task.cstr c.regs 0) (c.start s).cwd = some abs →
    Taken (c.start s) abs → abs ≠ (c.start s).cwd →
    c.refusal = none ∧ ∃ hp l, chdirPath (c.caller s) (c.start s) abs = some hp ∧
    hostChdir s.world.host (s.hostDir c.task.pid) hp = .ok l ∧ guestDir (c.start s) abs = some l

/-- A descriptor whose recorded path is not the recorded directory is one of the directory that its
path names, and the kernel lets the task in. -/
def FchdirAccepted (s : Desk) (c : DirCall) : Prop :=
  let gp := pathOfFd (c.start s) (int32 (c.regs.arg 0))
  gp ≠ [] → normalizePath gp ≠ (c.start s).cwd →
    c.refusal = none ∧ ∃ l, hostFchdir s.world.host c.task (int32 (c.regs.arg 0)) = .ok l ∧
    guestDir (c.start s) (normalizePath gp) = some l

def Accepted (s : Desk) (c : DirCall) : Prop :=
  if c.byFd then FchdirAccepted s c else ChdirAccepted s c

/-! ## What the handlers do -/

section Handlers

variable {t : Task} {r : Regs} {w : World} {abs hp : Str}

theorem setCwd_cwdOf (g : Str) (w : World) (pid : Int) :
    (setCwd g w).cwdOf pid = if pid = w.curPid then normalizePath g else w.cwdOf pid := by
  unfold setCwd World.cwdOf
  by_cases hp : pid = w.curPid
  · simp [hp]
  · simp [hp]

/-- How `chdir` ends for the path `abs`. -/
def chdirEnds (t : Task) (w : World) (abs : Str) : Outcome :=
  match chdirPath t w abs with
  | none => .virtualize 0
  | some hp => chdirTo hp

theorem chdirPath_length (h : chdirPath t w abs = some hp) : hp.length < pathMax := by
  unfold chdirPath at h
  dsimp only at h
  split_ifs at h with h1 h2
  · cases h
    exact h2
  · unfold chdirStep at h
    dsimp only at h
    split_ifs at h with hc
    cases h
    rw [List.length_drop]
    omega

theorem runs_ask_bind {arg : Nat} {fo : Bool} {wi : WriteIntent} {f : PathClass → Act World Outcome}
    {Q : Outcome → World → Prop}
    (h : Runs (f (classify abs false fo wi w).1) (w.noteName arg abs) Q) :
    Runs (ask arg abs false fo wi >>= f) w Q := by
  have hw : (ask arg abs false fo wi w).2 = w.noteName arg abs := by
    change (classify abs false fo wi w).2.noteName arg abs = _
    rw [classify_read]
  rw [runs_iff, Act.bind_apply, hw]
  exact h

/-- What `chdir` leaves: the record changes for a path that it takes, and for no other. -/
theorem doChdir_taken (ha : absolutize w (t.cstr r 0) w.cwd = some abs) (ht : Taken w abs) :
    Runs (doChdir t r) w fun o w' => o = chdirEnds t w abs ∧ w'.host = w.host ∧
      ∀ pid, w'.cwdOf pid = if pid = w.curPid then normalizePath abs else w.cwdOf pid := by
  refine runs_read_bind ?_
  refine runs_read_bind ?_
  rw [ha]
  refine runs_ask_bind ?_
  refine runs_read_bind ?_
  beta_reduce
  rw [show (w.noteName 0 abs).host = w.host from rfl, ht]
  refine runs_modify_bind ?_
  have hcwd : ∀ pid, (setCwd abs (w.noteName 0 abs)).cwdOf pid =
      if pid = w.curPid then normalizePath abs else w.cwdOf pid :=
    setCwd_cwdOf abs (w.noteName 0 abs)
  unfold chdirEnds chdirPath
  by_cases hr : (classify abs false true .copyLeaf w).1.realm ≠ .hostBacked
  · rw [if_pos hr, if_pos hr]
    exact ⟨rfl, rfl, hcwd⟩
  rw [if_neg hr, if_neg hr]
  by_cases hl : (classify abs false true .copyLeaf w).1.hostPath.length < pathMax
  · rw [if_pos hl, if_pos hl]
    exact ⟨rfl, rfl, hcwd⟩
  rw [if_neg hl, if_neg hl]
  -- the old directory is asked for after the record has changed, which no lookup reads
  have hview : SameView w (setCwd abs (w.noteName 0 abs)) := ⟨rfl, rfl, rfl, rfl⟩
  refine runs_ask_bind ?_
  rw [hview.classify w.cwd true .copyLeaf]
  refine runs_read_bind ?_
  beta_reduce
  rw [show ((setCwd abs (w.noteName 0 abs)).noteName 0 w.cwd).host = w.host from rfl]
  rcases chdirStep (classify w.cwd false true .copyLeaf w).1
    (hostCwdIs t w.host (classify w.cwd false true .copyLeaf w).1.hostPath)
    (classify abs false true .copyLeaf w).1.hostPath with _ | hp
  · exact ⟨rfl, rfl, hcwd⟩
  · exact ⟨rfl, rfl, hcwd⟩

theorem doChdir_refused (ha : ∀ abs, absolutize w (t.cstr r 0) w.cwd = some abs → ¬Taken w abs) :
    Runs (doChdir t r) w fun o w' => (o = .abort ∨ ∃ e, o = .fail e) ∧ w'.cwds = w.cwds := by
  refine runs_read_bind ?_
  refine runs_read_bind ?_
  rcases habs : absolutize w (t.cstr r 0) w.cwd with _ | abs
  · exact ⟨.inl rfl, rfl⟩
  refine runs_ask_bind ?_
  refine runs_read_bind ?_
  beta_reduce
  have hno := ha abs habs
  rw [show (w.noteName 0 abs).host = w.host from rfl]
  obtain ⟨e, he⟩ := Option.ne_none_iff_exists'.1 hno
  rw [he]
  exact ⟨.inr ⟨e, rfl⟩, rfl⟩

theorem doFchdir_runs :
    Runs (doFchdir r) w fun o w' => o = .fwd ∧ w'.host = w.host ∧
      ∀ pid, w'.cwdOf pid =
        if pid = w.curPid ∧ pathOfFd w (int32 (r.arg 0)) ≠
      [] then normalizePath (pathOfFd w (int32 (r.arg 0))) else w.cwdOf pid := by
  refine runs_read_bind ?_
  split_ifs with hgp
  · exact runs_pure ⟨rfl, rfl, fun pid => by simp [hgp]⟩
  · refine runs_modify_bind (runs_pure ⟨rfl, rfl, fun pid => ?_⟩)
    rw [setCwd_cwdOf]
    simp [hgp]

end Handlers

/-! ## One call -/

section Call

variable {s : Desk} {c : DirCall} {w : World} {x : Handed}

theorem start_host : (c.start s).host = s.world.host := by
  rw [DirCall.start, setCurrentPid_eq]

theorem start_curPid : (c.start s).curPid = c.task.pid := setCurrentPid_curPid

theorem start_cwd : (c.start s).cwdOf c.task.pid = (c.start s).cwd := by
  rw [World.cwd, start_curPid]

theorem recover_ne_zero (e : Errno) : recover e ≠ .ret 0 := by
  have := errnoCode_pos e
  unfold recover
  split_ifs
  · nofun
  · intro he
    have := Answer.ret.inj he
    omega

theorem toOption_some {x : Except Errno Loc} {l : Loc} : x.toOption = some l ↔ x = .ok l := by
  rcases x with e | l' <;> simp [Except.toOption]

/-- The guest is told zero if the host has moved the task. -/
theorem told_zero {h : Host} :
    told (c.kernel s x h).reply = .ret 0 ↔ c.refusal = none ∧ ∃ l, c.goes s h x = .ok l := by
  unfold DirCall.kernel
  rcases c.refusal with _ | e | e
  · rcases c.goes s h x with e | l
    · have := errnoCode_pos e
      simp [told]
      omega
    · simp [told]
  · simp [told, recover_ne_zero]
  · have := errnoCode_pos e
    simp [told]
    omega

/-- The record of the caller is set to `g`. -/
theorem follows_iff_of_set {g : Str}
    (hset : ∀ pid, (c.served s).2.cwdOf pid =
        if pid = c.task.pid then g else (c.start s).cwdOf pid) :
    CwdFollows s c ↔
      (g ≠ (c.start s).cwd → (c.served s).1 = .ret 0 ∧ ∃ l, c.moved s = some l ∧
        guestDir (c.start s) g = some l) := by
  constructor
  · intro hf hg
    have hown : (c.served s).2.cwdOf c.task.pid = g := by rw [hset, if_pos rfl]
    have := (hf c.task.pid (by rw [Desk.step, hown, start_cwd]; exact hg)).2
    rwa [Desk.step, hown] at this
  · intro hg pid hpid
    rw [Desk.step, hset] at hpid ⊢
    by_cases he : pid = c.task.pid
    · subst he
      rw [if_pos rfl] at hpid ⊢
      rw [start_cwd] at hpid
      exact ⟨rfl, hg hpid⟩
    · rw [if_neg he] at hpid
      exact absurd rfl hpid

theorem follows_of_kept
    (hkept : ∀ pid, (c.served s).2.cwdOf pid = (c.start s).cwdOf pid) : CwdFollows s c :=
  fun pid hpid => absurd (hkept pid) hpid

theorem fchdir_follows_iff (hfd : c.byFd) : CwdFollows s c ↔ FchdirAccepted s c := by
  obtain ⟨ho, hhost, hset⟩ := @doFchdir_runs c.regs (c.start s)
  have hsc : c.sysno = .fchdir := if_pos hfd
  have hdisp : dispatch (c.caller s) c.regs c.sysno s.world = doFchdir c.regs (c.start s) := by
    rw [hsc]
    rfl
  have hserved : c.served s = passOn (c.kernel s) .asIs (doFchdir c.regs (c.start s)).2 := by
    unfold DirCall.served serveCall
    rw [Act.bind_apply, hdisp, ho]
    rfl
  have hmoved : c.moved s = match c.refusal with
      | none => (hostFchdir s.world.host c.task (int32 (c.regs.arg 0))).toOption
      | some _ => none := by
    unfold DirCall.moved
    rw [hdisp, ho]
    rcases c.refusal with _ | _ <;> rfl
  have hworld : (c.served s).2 = (doFchdir c.regs (c.start s)).2 := by rw [hserved, passOn_eq]; rfl
  have hzero : (c.served s).1 = .ret 0 ↔
      c.refusal = none ∧ ∃ l, hostFchdir s.world.host c.task (int32 (c.regs.arg 0)) = .ok l := by
    rw [hserved, passOn_eq, told_zero, hhost, start_host]
    rfl
  unfold FchdirAccepted
  dsimp only
  by_cases hgp : pathOfFd (c.start s) (int32 (c.regs.arg 0)) = []
  · refine iff_of_true (follows_of_kept fun pid => ?_) fun hne => absurd hgp hne
    rw [hworld, hset]
    simp [hgp]
  rw [follows_iff_of_set (g := normalizePath (pathOfFd (c.start s) (int32 (c.regs.arg 0))))]
  · rw [hzero, hmoved]
    constructor
    · intro hf _ hne
      obtain ⟨⟨hr, -⟩, l, hl, hg⟩ := hf hne
      rw [hr] at hl
      exact ⟨hr, l, toOption_some.1 hl, hg⟩
    · intro hf hne
      obtain ⟨hr, l, hl, hg⟩ := hf hgp hne
      refine ⟨⟨hr, l, hl⟩, l, ?_, hg⟩
      rw [hr, hl]
      rfl
  · intro pid
    rw [hworld, hset, start_curPid]
    simp [hgp]

/-- The guest gets zero unless a request of the tracer fails. -/
def forced : Except Errno Int → Answer
  | .error e => recover e
  | .ok _ => .ret 0

theorem complete_chdirTo {hp : Str} (hlen : hp.length < pathMax) :
    complete (c.caller s) c.regs c.sysno (c.kernel s) (chdirTo hp) w =
      (forced (c.kernel s (.paths { arg := 0, hostPath := hp } none) w.host).reply, w) := by
  have hrebase : rebaseOnDirfd (c.caller s) c.regs c.sysno { arg := 0, hostPath := hp } w =
      { arg := 0, hostPath := hp } := by
    unfold rebaseOnDirfd
    rw [if_pos (.inl hlen)]
  change runNoting (c.kernel s)
    (.paths (rebaseOnDirfd (c.caller s) c.regs c.sysno { arg := 0, hostPath := hp } w) none)
    (fun _ _ w => w) (some 0) w = _
  rw [hrebase]
  change (match (c.kernel s (.paths { arg := 0, hostPath := hp } none) w.host).reply with
    | .error e => pure (recover e)
    | .ok ret => Act.modify (fun w => w) >>= fun _ =>
        pure (.ret ((some 0).getD ret)) : Act World Answer) w = _
  rcases (c.kernel s (.paths { arg := 0, hostPath := hp } none) w.host).reply with e | v <;> rfl

theorem dispatch_chdir (hfd : c.byFd = false) :
    dispatch (c.caller s) c.regs c.sysno s.world = doChdir (c.caller s) c.regs (c.start s) := by
  have hsc : c.sysno = .chdir := if_neg (by simp [hfd])
  rw [hsc]
  rfl

theorem moved_chdir {abs : Str} (hfd : c.byFd = false)
    (ho : (doChdir (c.caller s) c.regs (c.start s)).1 = chdirEnds (c.caller s) (c.start s) abs) :
    c.moved s = if c.refusal = none then (chdirPath (c.caller s) (c.start s) abs).bind fun hp =>
      (hostChdir s.world.host (s.hostDir c.task.pid) hp).toOption else none := by
  unfold DirCall.moved
  rw [dispatch_chdir hfd, ho, chdirEnds]
  rcases chdirPath (c.caller s) (c.start s) abs with _ | hp
  · rcases c.refusal with _ | _ <;> rfl
  · rcases c.refusal with _ | _ <;> rfl

theorem chdir_follows_iff (hfd : c.byFd = false) : CwdFollows s c ↔ ChdirAccepted s c := by
  have hserved : c.served s = complete (c.caller s) c.regs c.sysno (c.kernel s)
    (doChdir (c.caller s) c.regs (c.start s)).1
      (doChdir (c.caller s) c.regs (c.start s)).2 := by
    unfold DirCall.served serveCall
    rw [Act.bind_apply, dispatch_chdir hfd]
  by_cases hex : ∃ abs, absolutize (c.start s) (c.task.cstr c.regs 0) (c.start s).cwd = some abs ∧
    Taken (c.start s) abs
  swap
  · have hno : ∀ abs, absolutize (c.start s) (c.task.cstr c.regs 0) (c.start s).cwd = some abs →
        ¬Taken (c.start s) abs :=
      fun abs ha ht => hex ⟨abs, ha, ht⟩
    refine iff_of_true (follows_of_kept fun pid => ?_) fun abs ha ht => absurd ht (hno abs ha)
    obtain ⟨ho, hcwds⟩ := @doChdir_refused (c.caller s) c.regs (c.start s) hno
    have hworld : (c.served s).2 = (doChdir (c.caller s) c.regs (c.start s)).2 := by
      rw [hserved]
      rcases ho with ho | ⟨e, ho⟩
      · rw [ho]
        rfl
      · rw [ho]
        rfl
    rw [hworld, World.cwdOf, hcwds]
    rfl
  obtain ⟨abs, ha, ht⟩ := hex
  obtain ⟨ho, hhost, hset⟩ := doChdir_taken (t := c.caller s) ha ht
  have hnormal : normalizePath abs = abs := normalizePath_eq_self_iff.2 (absolutize_normal ha)
  have hworld : (c.served s).2 = (doChdir (c.caller s) c.regs (c.start s)).2 := by
    rw [hserved, ho, chdirEnds]
    rcases hpath : chdirPath (c.caller s) (c.start s) abs with _ | hp
    · rfl
    · exact congrArg Prod.snd (complete_chdirTo (chdirPath_length hpath))
  rw [follows_iff_of_set]
  swap
  · intro pid
    rw [hworld, hset, start_curPid, hnormal]
  unfold ChdirAccepted
  simp only [ha, Option.some.injEq, forall_eq', ht, true_imp_iff]
  refine imp_congr_right fun _ => ?_
  rw [moved_chdir hfd ho]
  constructor
  · rintro ⟨-, l, hl, hg⟩
    rcases hr : c.refusal with _ | _
    · rcases hpath : chdirPath (c.caller s) (c.start s) abs with _ | hp
      · rw [hr, hpath] at hl
        cases hl
      · rw [hr, hpath] at hl
        exact ⟨rfl, hp, l, rfl, toOption_some.1 hl, hg⟩
    · rw [hr] at hl
      cases hl
  · rintro ⟨hr, hp, l, hpath, hl, hg⟩
    refine ⟨?_, l, ?_, hg⟩
    · rw [hserved, ho, chdirEnds, hpath]
      rw [complete_chdirTo (chdirPath_length hpath)]
      unfold DirCall.kernel
      rw [hr]
      rcases c.goes _ _ _ with e | l <;> rfl
    · rw [hr, hpath, if_pos rfl, Option.bind_some, hl]
      rfl

end Call

/-- The record of the directory follows the host in every call of a run just where the host accepts
what the record is set to. -/
theorem cwd_follows_host_iff (s : Desk) (cs : List DirCall) :
    Along Desk.step CwdFollows s cs ↔ Along Desk.step Accepted s cs := by
  refine Along.congr (fun s c _ => ?_) s
  unfold Accepted
  rcases hfd : c.byFd with _ | _
  · simpa using chdir_follows_iff hfd
  · simpa using fchdir_follows_iff hfd

def fileDesk : Desk where
  world :=
    { layeredWorld ∅ with
      fdTables := fun _ => some { paths := fun n => if n = 3 then some "/t" else none } }
  hostDir _ := ["srv", "root"]

def fileFchdir : DirCall where
  task :=
    { mem := .ofText [], fd := fun n => if n = 3 then some (.named ["srv", "root", "t"]) else none }
  regs := ⟨81, fun _ => 3⟩
  byFd := true

/-- `fchdir` to a file fails, and the file becomes the recorded directory. -/
theorem failed_fchdir_moves_cwd :
    (fileFchdir.served fileDesk).1 = .ret (-20) ∧
      (fileDesk.step fileFchdir).world.cwdOf 1 = "/t".toList ∧
      ¬Along Desk.step CwdFollows fileDesk [fileFchdir] := by
  have hret : (fileFchdir.served fileDesk).1 = .ret (-20) := by decide +kernel
  have hcwd : (fileDesk.step fileFchdir).world.cwdOf 1 = "/t" := by decide +kernel
  refine ⟨hret, hcwd, fun hall => ?_⟩
  have hstart : (fileFchdir.start fileDesk).cwdOf 1 = slash := by decide +kernel
  have hzero := (hall.1 1 (by rw [hcwd, hstart]; decide)).2.1
  rw [hret] at hzero
  cases hzero

end Linuxity.Runtime

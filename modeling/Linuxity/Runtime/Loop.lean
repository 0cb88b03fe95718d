import Linuxity.Abi.Dispatch

/-!
# Runtime.Loop — the run loop (`runtime/trap.hpp`)

One turn serves one trapped call: the dispatcher decides, the loop acts on the decision, and what
the kernel answers is used to keep the record of the descriptors.  The kernel is a parameter: it
is given the call, perhaps with other paths, and answers with a result and a tree.
-/

namespace Linuxity.Runtime

open Posix Wire Kernel Abi Logic

/-- What the kernel is given to run. -/
inductive Handed where
  /-- The call as the guest made it. -/
  | asIs
  | paths (first : PathArg) (second : Option PathArg)
  /-- A temporary file or directory in place of the path. -/
  | temp (arg : Nat) (content : Str) (isDir : Bool)
  | sockaddr (addr : Nat) (bytes : Str) (lenArg newLen : Nat)
  | program (arg : Nat) (interpHost progGuest : Str) (before extra : List Str)

/-- What became of it.  An error is one of the tracer's own requests; the call did not run. -/
structure KernelReply where
  reply : Except Errno Int
  host : Host
  /-- The file behind the descriptor the call returned, if it can be opened again. -/
  opened : Option FdFile := none

abbrev HostKernel := Handed → Host → KernelReply

/-- An open that the kernel has not finished. -/
structure PendingOpen where
  pid : Int
  ppid : Int
  path : Str
  flags : Nat
  deriving DecidableEq

/-- What the guest gets. -/
inductive Answer where
  | ret (v : Int)
  /-- The call waits for another task. -/
  | waits (p : PendingOpen)
  /-- The call will be made once more. -/
  | again
  /-- The task is no more. -/
  | gone
  deriving DecidableEq

/-! ## After an open -/

/-- A result read as an `int`. -/
def intOf (v : Int) : Int := v.bmod (2 ^ 32)

def clearPending (w : World) : World :=
  { w with pendingOpen := [], pendingDir := false, pendingLazy := [], pendingEntries := [] }

/-- A new file without the owner's access is opened up, and its mode recorded. -/
def recordCreatedMode (opened : Option FdFile) (w : World) : World :=
  match opened with
  | some (.named l) =>
    match w.host.node l with
    | some ⟨_, mode, .file _⟩ =>
      let want := mode &&& 0o7777
      if want &&& 0o600 = 0o600 then w
      else match w.chmodFd l (want ||| 0o600) with
        | (.error _, w) => w
        | (.ok _, w) => w.setMetaMode w.pendingOpen want none
    | _ => w
  | _ => w

def bindOpened (fd : Int) (opened : Option FdFile) (w : World) : World :=
  let w := w.setFds (w.fds.bindFd fd w.pendingOpen)
  let w :=
    if has w.pendingFlags .creat then recordCreatedMode opened (w.clearWhiteout w.pendingOpen)
    else w
  if !w.pendingDir then w
  else if w.pendingLazy ≠ [] then w.setFds (w.fds.bindLazyDir fd w.pendingLazy)
  else w.setFds (w.fds.bindDir fd w.pendingEntries)

/-- Called with the result of every redirected call. -/
def noteOpenedFd (ret : Int) (opened : Option FdFile) (w : World) : World :=
  if ret < 0 then clearPending w
  else
    let fd := intOf ret
    let w := w.setFds (w.fds.unbindFd fd)
    clearPending (if w.pendingOpen = [] then w else bindOpened fd opened w)

def takePendingOpen (t : Task) (w : World) : PendingOpen × World :=
  (⟨t.pid, t.ppid, w.pendingOpen, w.pendingFlags⟩, clearPending w)

/-- An open that waited has its result. -/
def finishPendingOpen (p : PendingOpen) (ret : Int) (opened : Option FdFile) (w : World) : World :=
  let w := setCurrentPid p.pid p.ppid w
  noteOpenedFd ret opened
    { w with pendingOpen := p.path, pendingFlags := p.flags &&& (2 ^ 64 - 1 - OpenFlag.creat.bits) }

/-! ## Host paths -/

/-- A name in the abstract namespace begins with a NUL, where the path of a `mkdir` would end. -/
def makeHostParents (p : Str) (w : World) : World :=
  if dirOf p = [] ∨ p.head? = some nul then w
  else (cuts [] (dirOf p)).foldl (fun w d => (w.mkdir d 0o755).2) w

/-- The calls whose directory descriptor is in the register before the path. -/
def isAt : Sysno → Bool
  | .openat | .openat2 | .mkdirat | .mknodat | .unlinkat | .newfstatat | .statx | .fchmodat
  | .fchmodat2 | .fchownat | .faccessat | .faccessat2 | .utimensat | .readlinkat | .symlinkat
  | .linkat | .renameat | .renameat2 => true
  | _ => false

/-- The position behind the last slash that both have, up to where they differ. -/
def commonDir : Str → Str → Nat → Nat → Nat
  | a :: as, b :: bs, k, best =>
    if a = b then commonDir as bs (k + 1) (if a = '/' then k + 1 else best) else best
  | _, _, _, best => best

/-- The way from the directory `base` to `host`. -/
def relativeTo (base host : Str) : Str :=
  let common := commonDir base host 0 0
  let rest := ((base.drop common).filter (· == '/')).flatMap (fun _ => "../") ++ host.drop common
  if rest = [] then dot else rest

/-- A path too long for the kernel is made relative to the call's own directory. -/
def rebaseOnDirfd (t : Task) (r : Regs) (sc : Sysno) (p : PathArg) (w : World) : PathArg :=
  if p.hostPath.length < pathMax ∨ p.arg < 0 then p
  else
    let dirfd := if isAt sc ∧ 1 ≤ p.arg then int32 (r.arg (p.arg.toNat - 1)) else atFdCwd
    let gdir := if dirfd = atFdCwd then w.cwd else if 0 ≤ dirfd then pathOfFd w dirfd else []
    let pc := (classify gdir false true .copyLeaf w).1
    let base := if pc.hostPath.getLast? = some '/' then pc.hostPath else pc.hostPath ++ slash
    if gdir = [] ∨ pc.realm ≠ .hostBacked ∨ pc.hostPath = [] then p
    else if p.hostPath = base.dropLast then { p with hostPath := dot }
    else if pathMax ≤ (relativeTo base p.hostPath).length then p
    else if dirfd = atFdCwd ∧ !hostCwdIs t w.host pc.hostPath then p
    else { p with hostPath := relativeTo base p.hostPath }

/-! ## One turn -/

/-- Let the kernel run the call. -/
def runIn (k : HostKernel) (x : Handed) : Act World KernelReply :=
  fun w => (k x w.host, { w with host := (k x w.host).host })

/-- A request of the tracer failed: the guest gets the error, unless there is no guest any more. -/
def recover (e : Errno) : Answer := if e = .esrch then .gone else .ret (-errnoCode e)

/-- Run a call whose result is passed on. -/
def passOn (k : HostKernel) (x : Handed) : Act World Answer := do
  match (← runIn k x).reply with
  | .error e => pure (recover e)
  | .ok ret => pure (.ret ret)

/-- Run a call whose result is looked at first. -/
def runNoting (k : HostKernel) (x : Handed) (note : Int → Option FdFile → World → World)
    (force : Option Int := none) : Act World Answer := do
  let ran ← runIn k x
  match ran.reply with
  | .error e => pure (recover e)
  | .ok ret => do
    Act.modify (note ret ran.opened)
    pure (.ret (force.getD ret))

/-- The new descriptor gets what the old one has. -/
def noteDup (m : DupMirror) (ret : Int) (_ : Option FdFile) (w : World) : World :=
  if ret < 0 then w
  else
    let w :=
      if 0 ≤ m.closeFirst ∧ m.closeFirst ≠ m.src then w.setFds (w.fds.unbindFd m.closeFirst) else w
    w.setFds (w.fds.mirrorFd m.src (intOf ret))

def redirectCall (t : Task) (r : Regs) (sc : Sysno) (k : HostKernel) (rd : Redirect) :
    Act World Answer :=
  if rd.isNoop then passOn k .asIs
  else if rd.mayBlock && rd.second.isNone && rd.scrub.isNone then do
    if rd.makeParents then Act.modify (makeHostParents rd.first.hostPath) else pure ()
    let p ← takePendingOpen t
    match (← runIn k (.paths rd.first none)).reply with
    | .error e => pure (recover e)
    | .ok _ => pure (.waits p)
  else do
    if rd.makeParents then
      Act.modify fun w => (rd.second.map (·.hostPath)).elim (makeHostParents rd.first.hostPath w)
        (makeHostParents · (makeHostParents rd.first.hostPath w))
    else pure ()
    let w ← Act.read id
    runNoting k
      (.paths (rebaseOnDirfd t r sc rd.first w) (rd.second.map (rebaseOnDirfd t r sc · w)))
      (if rd.forceRet.isSome then fun _ _ w => w else noteOpenedFd) rd.forceRet

/-- Act on the decision of the dispatcher. -/
def complete (t : Task) (r : Regs) (sc : Sysno) (k : HostKernel) : Outcome → Act World Answer
  | .virtualize ret ns => pure (if 0 < ns then .again else .ret ret)
  | .forward none => passOn k .asIs
  | .forward (some m) => runNoting k .asIs (noteDup m)
  | .redirect rd => redirectCall t r sc k rd
  | .inject arg content isDir => runNoting k (.temp arg content isDir) noteOpenedFd
  | .sockRewrite addr bytes lenArg newLen => do
    Act.modify (makeHostParents bytes)
    passOn k (.sockaddr addr bytes lenArg newLen)
  | .execInterp arg interp prog before extra => passOn k (.program arg interp prog before extra)
  | .abort => pure .gone

def serveCall (t : Task) (r : Regs) (sc : Sysno) (k : HostKernel) : Act World Answer :=
  dispatch t r sc >>= complete t r sc k

/-! ## Process events -/

/-- A new process has the directory of its parent. -/
def inheritCwd (child parent : Int) (w : World) : World :=
  { w with cwds := Function.update w.cwds child (some ((w.cwds parent).getD slash)) }

/-- The descriptors of a process that is gone stay recorded. -/
def forgetPid (pid : Int) (w : World) : World :=
  { w with
    cwds := Function.update w.cwds pid none
    seededPid := if pid = w.seededPid then 0 else w.seededPid }

inductive ProcEvent where
  | spawn (pid ppid : Int)
  | reap (pid : Int)

def applyProcEvent : ProcEvent → World → World
  | .spawn pid ppid, w => inheritCwd pid ppid w
  | .reap pid, w => if pid = 1 then w else forgetPid pid w

end Linuxity.Runtime

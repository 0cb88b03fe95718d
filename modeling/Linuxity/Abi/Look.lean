import Linuxity.Abi.Resolve

/-!
# Abi.Look — calls that look a path up (`abi/syscall.hpp`)

`stat`, `statx`, `access`, `readlink`, `statfs`, the watches, `exec`, `chdir`, `chroot` and the
extended attributes.  A path of the host tree is handed to the kernel rewritten; a synthesized one
is answered here.
-/

namespace Linuxity.Abi

open Posix Wire Kernel Logic

variable (t : Task) (r : Regs) (arg : Nat)

def stored (addr : Nat) (ret : Int := 0) : Outcome :=
  if t.storable addr then .virtualize ret else .fail .efault

def virtualOf (pc : PathClass) (abs : Str) : Str :=
  if pc.virtualPath = [] then abs else pc.virtualPath

/-! ## `stat` and `statx` -/

def fastStat (hostPath guestPath : Str) : Act World Bool := fun w =>
  if (w.metas.table guestPath).isSome ∨ LinkTable.under "/proc" hostPath then (false, w)
  else match w.host.lstat hostPath with
    | .error _ => (false, w)
    | .ok n =>
      match n.kind with
      | .file _ => (true, w)
      | _ => (true, { w with sockPlaceholders := w.sockPlaceholders.erase guestPath })

def scrubbed (hostPath : Str) (statx : Bool) (buf : Nat) (abs : Str) : Outcome :=
  .redirect { first := { arg := arg, hostPath := hostPath }, scrub := some ⟨statx, buf, abs⟩ }

def hostStat (arg buf : Nat) (statx : Bool) (hostPath abs : Str) : Act World Outcome := do
  if ← fastStat hostPath abs then pure (stored t buf)
  else pure (scrubbed arg hostPath statx buf abs)

/-- `(proc-link)` stands for a link whose target only the dispatcher knows. -/
def produceForStat (vp : Str) (w : World) : Except Errno VirtualFile :=
  match produce w vp with
  | .error e => .error e
  | .ok vf => if vf.symlinkTarget = "(proc-link)" then .error .enoent else .ok vf

def virtualStat (arg buf : Nat) (statx follow : Bool) (vp : Str) : Act World Outcome := do
  match ← Act.read (produceForStat vp) with
  | .ok _ => pure (stored t buf)
  | .error e =>
    let tgt ← Act.read fun w => if procIsLink vp then procSymlinkTarget t w vp else []
    if tgt = [] then pure (.fail e)
    else if follow then do
      let tc ← ask arg tgt false true
      if tc.realm = .hostBacked then pure (scrubbed arg tc.hostPath statx buf tgt)
      else pure (stored t buf)
    else pure (stored t buf)

def statClass (arg buf : Nat) (statx follow : Bool) (abs : Str) (pc : PathClass) :
    Act World Outcome :=
  match pc.realm with
  | .hostBacked => hostStat t arg buf statx pc.hostPath abs
  | .virtualFile => virtualStat t arg buf statx follow (virtualOf pc abs)
  | .absent => pure (.fail pc.error)

def statNeedsDir (arg buf : Nat) (follow : Bool) (abs : Str) (pc : PathClass) : Act World Outcome :=
  match pc.realm with
  | .hostBacked => pure (scrubbed arg (pc.hostPath ++ slash) false buf abs)
  | .virtualFile => do
    match ← Act.read (produce · (virtualOf pc abs)) with
    | .ok vf => if !vf.isDir then pure (.fail .enotdir) else statClass t arg buf false follow abs pc
    | .error _ => statClass t arg buf false follow abs pc
  | .absent => pure (.fail pc.error)

def pathStat (at_ follow : Bool) : Act World Outcome :=
  let raw := t.cstr r arg
  let buf := r.arg (arg + 1)
  if pathSyntax raw = .empty then
    pure (if at_ && hasAt (r.arg 3) .emptyPath then .fwd else .fail .enoent)
  else do
    if at_ && (← Act.read (atDirfdUnresolvable · r raw)) then pure .fwd
    else
      refuseIf (dotPrefixError t r arg at_) <|
      withPath (resolveRaw t r raw at_ follow) fun abs => do
      let pc ← ask arg abs false follow
      if pathSyntax raw = .needsDir then statNeedsDir t arg buf follow abs pc
      else statClass t arg buf false follow abs pc

def statxFd : Act World Outcome := do
  let gp ← Act.read (pathOfFd · (int32 (r.arg 0)))
  if gp = [] then pure .fwd
  else do
    let pc ← ask 1 gp false true
    if pc.realm ≠ .virtualFile then pure .fwd
    else match ← Act.read (produce · (virtualOf pc gp)) with
      | .error e => pure (.fail e)
      | .ok _ => pure (stored t (r.arg 4))

def pathStatx : Act World Outcome :=
  let follow := !hasAt (r.arg 2) .symlinkNofollow
  if t.cstr r 1 = [] ∧ hasAt (r.arg 2) .emptyPath then statxFd t r
  else if emptyPathArg t r 1 then pure (.fail .enoent)
  else
    refuseIf (dotPrefixError t r 1 true) <|
    withPath (resolveArg t r 1 true follow) fun abs => do
    let pc ← ask 1 abs false follow
    statClass t 1 (r.arg 4) true follow abs pc

/-! ## `access` and the watches -/

def pathAt (at_ : Bool) : Act World Outcome :=
  if t.cstr r arg = [] then pure (if at_ then .fwd else .fail .enoent)
  else
    refuseIf (dotPrefixError t r arg at_) <|
    withPath (resolveArg t r arg at_) fun abs => do
    let pc ← ask arg abs false true
    match pc.realm with
    | .hostBacked => pure (.toHost arg pc.hostPath)
    | .virtualFile => pure (.virtualize 0)
    | .absent => pure (.fail pc.error)

def pathWatch (at_ : Bool := false) : Act World Outcome :=
  withPath (resolveSecond t r arg at_) fun abs => do
  let pc ← ask arg abs false true
  match pc.realm with
  | .hostBacked => pure (.toHost arg pc.hostPath)
  | .virtualFile => pure (.fail .enoent)
  | .absent => pure (.fail pc.error)

/-! ## `readlink` -/

def writeLink (buf cap : Nat) (tgt : Str) : Outcome :=
  let n := min tgt.length cap
  if n = 0 then .virtualize 0 else stored t buf n

def positive (n : Nat) : Bool := n % 2 ^ 64 != 0 && decide (n % 2 ^ 64 < 2 ^ 63)

def readlinkClass (arg buf cap : Nat) (abs : Str) (pc : PathClass) : Act World Outcome :=
  match pc.realm with
  | .hostBacked => pure (.toHost arg pc.hostPath)
  | .virtualFile => do
    match ← Act.read (produce · abs) with
    | .error _ => pure (.fail .einval)
    | .ok vf =>
      if vf.symlinkTarget = [] then pure (.fail .einval)
      else if vf.symlinkTarget = "(proc-link)" then pure (.fail .enoent)
      else pure (writeLink t buf cap vf.symlinkTarget)
  | .absent => pure (.fail pc.error)

def doReadlink (at_ : Bool) : Act World Outcome :=
  let raw := t.cstr r arg
  let buf := r.arg (arg + 1)
  let cap := r.arg (arg + 2)
  if raw = [] then pure (if at_ then .fwd else .fail .enoent)
  else if !positive cap then pure (.fail .einval)
  else
    refuseIf (dotPrefixError t r arg at_) <|
    withPath (resolveArg t r arg at_ false) fun abs =>
    refuseIf (guestPrefixLoop arg abs) <|
    withPath (fun w => (absolutize w raw (dirFor w r at_)).map normalizePath) fun before => do
    if before = procSelf then pure (writeLink t buf cap (decimal t.pid))
    else if before = threadSelf then
      pure (writeLink t buf cap (decimal t.pid ++ "/task/" ++ decimal t.tid))
    else
      let tgt ← Act.read (procSymlinkTarget t · abs)
      if tgt ≠ [] then pure (writeLink t buf cap tgt)
      else do
        let pc ← ask arg abs false false
        readlinkClass t arg buf cap abs pc

/-! ## `statfs` and the extended attributes -/

def pathStatfs : Act World Outcome :=
  if emptyPathArg t r 0 then pure (.fail .enoent)
  else withPath (resolveArg t r 0 false) fun abs => do
    let pc ← ask 0 abs false true
    match pc.realm with
    | .hostBacked => pure (.toHost 0 pc.hostPath)
    | .virtualFile => pure (stored t (r.arg 1))
    | .absent => pure (.fail pc.error)

def privilegedXattr (name : Str) : Bool :=
  ["security.".toList, "system.", "trusted."].any (·.isPrefixOf name)

def pathXattr (forWrite follow : Bool) (arg : Nat := 0) (at_ : Bool := false) : Act World Outcome :=
  if emptyPathArg t r arg then pure (.fail .enoent)
  else withPath (resolveArg t r arg at_) fun abs => do
    if forWrite && privilegedXattr (t.cstr r 1) then pure (.virtualize 0)
    else do
      let pc ← ask arg abs forWrite follow
      if pc.realm = .virtualFile then pure (.fail .eopnotsupp)
      else if pc.hostPath = [] then pure (.fail pc.error)
      else pure (.redirect { first := .from arg pc.hostPath abs })

/-! ## Directories -/

/-- The class names a directory that is there. -/
def dirMissing (pc : PathClass) (n : Except Errno Node) : Option Errno :=
  match pc.realm with
  | .absent => some pc.error
  | .virtualFile => none
  | .hostBacked => match n with
    | .error _ => some .enoent
    | .ok n => if n.isDir then none else some .enotdir

def setCwd (c : Str) (w : World) : World :=
  { w with
    cwds := Function.update w.cwds w.curPid (some (normalizePath c))
    lastCwd := normalizePath c }

/-- The step from the old directory, for a host path that is too long for the host. -/
def chdirStep (old : PathClass) (cwdThere : Bool) (hp : Str) : Option Str :=
  let base := old.hostPath ++ slash
  if old.realm ≠ .hostBacked ∨ !base.isPrefixOf hp ∨ pathMax ≤ hp.length - base.length ∨
    !cwdThere then none
  else some (hp.drop base.length)

def hostCwdIs (h : Host) (hostDir : Str) : Bool :=
  match h.resolve hostDir true with
  | .ok (.found l) => l == t.hostCwd
  | _ => false

def chdirTo (hp : Str) : Outcome :=
  .redirect { first := { arg := 0, hostPath := hp }, forceRet := some 0 }

def doChdir : Act World Outcome := do
  let old ← Act.read World.cwd
  withPath (absolutize · (t.cstr r 0) old) fun abs => do
  let pc ← ask 0 abs false true
  refuseIf (onHost fun h => dirMissing pc (nodeAnyLength h pc.hostPath true)) <| do
  Act.modify (setCwd abs)
  if pc.realm ≠ .hostBacked then pure (.virtualize 0)
  else if pc.hostPath.length < pathMax then pure (chdirTo pc.hostPath)
  else do
    let oc ← ask 0 old false true
    match ← onHost fun h => chdirStep oc (hostCwdIs t h oc.hostPath) pc.hostPath with
    | none => pure (.virtualize 0)
    | some hp => pure (chdirTo hp)

/-- The directory of the descriptor becomes the current one, whatever the kernel answers. -/
def doFchdir : Act World Outcome := do
  let gp ← Act.read (pathOfFd · (int32 (r.arg 0)))
  if gp = [] then pure .fwd
  else do
    Act.modify (setCwd gp)
    pure .fwd

def doChroot : Act World Outcome := do
  withPath (fun w => absolutize w (t.cstr r 0) w.cwd) fun abs => do
  let pc ← ask 0 abs false true
  refuseIf (onHost fun h => dirMissing pc (h.stat pc.hostPath)) (pure (.virtualize 0))

def doGetcwd : Act World Outcome := do
  let cwd ← Act.read World.cwd
  let need := cwd.length + 1
  if r.arg 1 = 0 then pure (.fail .einval)
  else if r.arg 1 < need then pure (.fail .erange)
  else pure (stored t (r.arg 0) need)

/-! ## `exec` -/

def argvFrom (mem : GuestMem) : Nat → Nat → List Str
  | 0, _ => []
  | n + 1, a =>
    match mem.copyIn a 8 with
    | none => []
    | some bs =>
      let p := bs.reverse.foldl (fun v c => v * 256 + c.toNat) 0
      if p = 0 then [] else mem.readCstr p :: argvFrom mem n (a + 8)

def transactionIn : List Str → Bool
  | [] => false
  | a :: as =>
    if a = "--" then false
    else if "--".toList.isPrefixOf a then a == "--sync" || a == "--upgrade" || transactionIn as
    else if a.head? = some '-' then (a.drop 1).any (fun c => c == 'S' || c == 'U') ||
      transactionIn as
    else transactionIn as

def extraArgs (abs : Str) : List Str :=
  if leafOf abs = "pacman" ∧ t.pacmanOverwrite ∧ r.arg (arg + 1) ≠ 0 ∧
      transactionIn ((argvFrom t.mem 256 (r.arg (arg + 1))).drop 1) then
    ["--overwrite", "*"]
  else []

def hostOr (pc : PathClass) (p : Str) : Str := if pc.realm = .hostBacked then pc.hostPath else p

/-- A script runs through its interpreter, and that one through its own loader if it has one. -/
def execScript (abs interp sharg : Str) : Act World Outcome :=
  withPath (absolutize · interp []) fun interpAbs => do
  let sic ← ask arg interpAbs false true
  let rest := if sharg = [] then [] else [sharg]
  match t.program (hostOr sic interp) with
  | .dynamic ld =>
    withPath (absolutize · ld []) fun ldAbs => do
    let ldc ← ask arg ldAbs false true
    pure (.execInterp arg (hostOr ldc ld) abs (interpAbs :: rest) [])
  | _ => pure (.execInterp arg (hostOr sic interp) abs rest [])

def pathExec : Act World Outcome :=
  if emptyPathArg t r arg then pure (.fail .enoent)
  else withPath (resolveArg t r arg (arg == 1)) fun abs => do
    let pc ← ask arg abs false true
    match pc.realm with
    | .virtualFile => pure (.fail .eacces)
    | .absent => pure (.fail pc.error)
    | .hostBacked =>
      match t.program pc.hostPath with
      | .foreign => pure (.fail .enoexec)
      | .plain => pure (.toHost arg pc.hostPath)
      | .script interp sharg => execScript t arg abs interp sharg
      | .dynamic interp =>
        withPath (absolutize · interp []) fun interpAbs => do
        let ipc ← ask arg interpAbs false true
        pure (.execInterp arg (hostOr ipc interp) abs [] (extraArgs t r arg abs))

end Linuxity.Abi

import Linuxity.Abi.Look

/-!
# Abi.Mutate — calls that change one path (`abi/syscall.hpp`)

The path is translated to the layer that takes writes, and the call goes to the kernel with it; a
name that only the lower layer has is hidden by a whiteout instead of being removed.  Modes and
owners that the host cannot hold are recorded.
-/

namespace Linuxity.Abi

open Posix Wire Kernel Logic

def uint32 (n : Nat) : Nat := n % 2 ^ 32

def refuse (e : Errno) : Act World Outcome := pure (.fail e)

def answer : Except Errno Unit → Outcome
  | .ok _ => .virtualize 0
  | .error e => .fail e

/-! ## Removing and creating names -/

def unlinkWithLinks (name : Str) : Act World Outcome := do
  let links ← Act.read World.links
  if (links.backingOf name).isSome then do
    match ← fun w => w.unlink name with
    | .error e => refuse e
    | .ok _ => do
      Act.modify fun w => w.putLinks (w.links.drop name)
      pure (.virtualize 0)
  else match links.promote name with
    | some (heir, links') => do
      Act.modify (World.putLinks · links')
      answer <$> fun w => w.rename name heir
    | none => answer <$> fun w => w.unlink name

variable (t : Task) (r : Regs) (arg : Nat) (abs : Str)

/-- The placeholder of a FIFO on a host that has none. -/
def fifoCreate (abs host : Str) (mode : Nat) : Act World Outcome := do
  let now ← ask arg abs false false
  if now.realm == .hostBacked && (← onHost fun h => (hostLexists h now.hostPath).isOk) then
    refuse .eexist
  else do
    Act.modify fun w => (cuts [] (dirOf host)).foldl (fun w d => (w.mkdir d 0o755).2) w
    match ← fun w => w.createExcl host 0o600 with
    | .error e => refuse e
    | .ok _ => do
      Act.modify fun w => (((w.clearWhiteout abs).setMetaMode abs
        (mode &&& 0o7777 &&& (0o7777 ^^^ (t.umask &&& 0o7777))) none).setMetaFifo abs)
      pure (.virtualize 0)

def removedirFlag (at_ rmdirSyscall : Bool) : Bool :=
  if at_ then hasAt (r.arg (arg + 1)) .removedir else rmdirSyscall

def dotTailErrno (removedir : Bool) : DotTail → Option Errno
  | .none => none
  | .dot => some (if removedir then .einval else .eisdir)
  | .dotdot => some (if removedir then .enotempty else .eisdir)

/-- A removal cannot name `.` or `..`; the path to it is walked first. -/
def removeDot (at_ rmdirSyscall : Bool) (k : Act World Outcome) : Act World Outcome :=
  let raw := t.cstr r arg
  match dotTailErrno (removedirFlag r arg at_ rmdirSyscall) (dotTail raw) with
  | none => k
  | some e =>
    withPath (resolveArg t r arg at_) fun abs => do
    let pc ← ask arg abs true false .remove
    if ← onHost (dotTraversalDenied · raw pc.hostPath) then refuse .eacces else refuse e

/-- A synthesized path cannot be changed, but for a few files that set something. -/
def mutVirtual : WriteIntent → Outcome
  | .parentsOnly => .fail (virtualMutErrno abs .existing)
  | .copyLeaf =>
    if virtualIsWritable abs then .virtualize 0 else .fail (virtualMutErrno abs .remove)
  | .remove => .fail (virtualMutErrno abs .remove)

def mutHost (wi : WriteIntent) (strictParent isMknod : Bool) (abs : Str) (pc : PathClass) :
    Act World Outcome := do
  let w ← Act.read id
  if wi = .parentsOnly ∧ w.fifosEmulated ∧ isMknod ∧ r.arg (arg + 1) &&& 0o170000 = 0o010000 then
    fifoCreate t arg abs pc.hostPath (uint32 (r.arg (arg + 1)))
  else if wi = .remove then do
    Act.modify (World.forgetMeta · abs)
    if (w.links.backingOf pc.hostPath).isSome || w.links.hasAliases pc.hostPath then
      unlinkWithLinks pc.hostPath
    else pure (.toHost arg pc.hostPath)
  else
    pure (.redirect { first := { arg := arg, hostPath := pc.hostPath },
                      makeParents := wi == .parentsOnly && !strictParent })

def whiteOut : Act World Unit := Act.modify fun w => (w.addWhiteout abs).forgetMeta abs

def mutClass (wi : WriteIntent) (strictParent isMknod : Bool) (abs : Str) (pc : PathClass) :
    Act World Outcome :=
  if pc.realm = .virtualFile then pure (mutVirtual abs wi)
  else if pc.whiteoutLower then do
    whiteOut abs
    if pc.hostPath = [] then pure (.virtualize 0)
    else mutHost t r arg wi strictParent isMknod abs pc
  else if pc.hostPath = [] then refuse pc.error
  else mutHost t r arg wi strictParent isMknod abs pc

def pathMut (at_ : Bool) (wi : WriteIntent) (strictParent : Bool := false)
    (rmdirSyscall : Bool := false) (isMknod : Bool := false) : Act World Outcome :=
  if emptyPathArg t r arg then refuse .enoent
  else
    refuseIf (dotPrefixError t r arg at_) <|
    (if wi = .remove then removeDot t r arg at_ rmdirSyscall else id) <|
    withPath (resolveArg t r arg at_) fun abs => do
    let pc ← ask arg abs true false wi
    if ← onHost (dotTraversalDenied · (t.cstr r arg) pc.hostPath) then refuse .eacces
    else refuseIf (guestPrefixLoop arg abs) (mutClass t r arg wi strictParent isMknod abs pc)

/-! ## Times -/

def doUtimes (at_ : Bool) (flags : Option Nat) : Act World Outcome :=
  if nullPathArg r arg || flags.any (hasAt · .emptyPath) && emptyCstrArg t r arg then
    if !at_ then refuse .efault
    else if int32 (r.arg 0) = atFdCwd then refuse (if nullPathArg r arg then .efault else .enoent)
    else pure .fwd
  else pathMut t r arg at_ .copyLeaf

/-! ## Modes and owners -/

def linkMode : Act World (Option Errno) := do
  let lc ← ask arg abs false false
  if lc.realm == .hostBacked && (← onHost (hostPathIsSymlink · lc.hostPath)) then
    pure (some .eopnotsupp)
  else pure none

def chmodHost (p : Str) (mode : Nat) : Act World (Except Errno (Option Nat)) := fun w =>
  match w.chmod p mode with
  | (.error e, w) => (.error e, w)
  | (.ok _, w) => (.ok ((w.host.lstat p).toOption.map (·.mode)), w)

/-- The mode goes to the upper copy, as far as it can hold it, and the rest is recorded.  A regular
file stays open to the supervisor. -/
def chmodUpper (mode : Nat) : Act World Outcome := do
  let wc ← ask arg abs true false
  if wc.hostPath ≠ [] && !(← onHost (hostPathIsSymlink · wc.hostPath)) then do
    let keep ← onHost fun h => if hostPathIsRegular h wc.hostPath then 0o600 else 0
    match ← chmodHost wc.hostPath ((mode &&& 0o7777) ||| keep) with
    | .error .enoent => refuse .enoent
    | .error .enotdir => refuse .enotdir
    | .error _ => do
      Act.modify (World.setMetaMode · abs mode none)
      pure (.virtualize 0)
    | .ok landed => do
      Act.modify (World.setMetaMode · abs mode landed)
      pure (.virtualize 0)
  else do
    Act.modify (World.setMetaMode · abs mode none)
    pure (.virtualize 0)

def chmodTarget : Act World (Option Errno) := do
  let pc ← ask arg abs false true
  match pc.realm with
  | .virtualFile => pure (some (virtualMutErrno abs .metadata))
  | .absent =>
    if pc.error = .enoent then do
      let e ← resolveFailureErrno arg abs pc.error
      pure (some e)
    else pure (some pc.error)
  | .hostBacked =>
    onHost fun h =>
      if !parentIsDir h pc.hostPath then some .enotdir
      else match hostTargetExists h pc.hostPath with
        | .error e => some e
        | .ok _ => none

def chmodPath (mode : Nat) : Act World Outcome :=
  refuseIf (chmodTarget arg abs) (chmodUpper arg abs mode)

def chmodFd (arg mode : Nat) : Act World Outcome := do
  let fd := int32 (r.arg 0)
  let gp ← Act.read (pathOfFd · fd)
  if gp = [] then
    match t.fd fd with
    | none => refuse .ebadf
    | some (.unnamed _ _) => pure (.virtualize 0)
    | some (.named l) => answer <$> fun w => w.chmodFd l (mode &&& 0o7777)
  else refuseIf (if t.oPath fd then linkMode arg gp else pure none) (chmodPath arg gp mode)

def doChmod (at_ : Bool) (withFlags : Bool := false) : Act World Outcome :=
  let flags := if withFlags then r.arg (arg + 2) else 0
  let mode := uint32 (r.arg (arg + 1))
  if withFlags && emptyCstrArg t r arg && hasAt flags .emptyPath then chmodFd t r arg mode
  else if emptyPathArg t r arg then refuse .enoent
  else
    refuseIf (dotPrefixError t r arg at_) <|
    withPath (resolveArg t r arg at_) fun abs =>
    refuseIf (if hasAt flags .symlinkNofollow then linkMode arg abs else pure none)
      (chmodPath arg abs mode)

/-- A failure is not reported: the mode is recorded all the same. -/
def chmodLanded (p : Str) (mode : Nat) : Act World (Option Nat) :=
  if p = [] then pure none else do
    match ← chmodHost p mode with
    | .error _ => pure none
    | .ok landed => pure landed

def doFchmod : Act World Outcome := do
  let gp ← Act.read (pathOfFd · (int32 (r.arg 0)))
  let mode := uint32 (r.arg 1)
  if gp = [] then pure .fwd
  else if t.oPath (int32 (r.arg 0)) then refuse .ebadf
  else
    refuseIf (linkMode 0 gp) <| do
    let wc ← ask 0 gp true false
    let landed ← chmodLanded wc.hostPath (mode &&& 0o7777)
    Act.modify (World.setMetaMode · gp mode landed)
    pure (.virtualize 0)

def chownError (h : Host) (abs : Str) (follow : Bool) (pc : PathClass) : Option Outcome :=
  match pc.realm with
  | .virtualFile =>
    some (if virtualIsWritable abs then .virtualize 0 else .fail (virtualMutErrno abs .metadata))
  | .absent => some (.fail pc.error)
  | .hostBacked =>
    if !parentIsDir h pc.hostPath then some (.fail .enotdir)
    else match h.lstat pc.hostPath, hostTargetExists h pc.hostPath with
      | .error _, .error e => some (.fail e)
      | .error _, .ok _ => some (.fail .enoent)
      | .ok _, .error e => if follow then some (.fail e) else none
      | .ok _, .ok _ => none

def recordOwner (uid gid : Nat) : Act World Outcome := do
  Act.modify (World.setMetaOwner · abs uid gid)
  pure (.virtualize 0)

def doChown (arg uidArg gidArg : Nat) (at_ follow : Bool) : Act World Outcome :=
  let uid := uint32 (r.arg uidArg)
  let gid := uint32 (r.arg gidArg)
  if at_ && emptyCstrArg t r arg && hasAt (r.arg 4) .emptyPath then do
    let gp ← Act.read (pathOfFd · (int32 (r.arg 0)))
    if gp = [] then pure .fwd else recordOwner gp uid gid
  else if emptyPathArg t r arg then refuse .enoent
  else withPath (resolveArg t r arg at_) fun abs => do
    let pc ← ask arg abs false follow
    match ← onHost (chownError · abs follow pc) with
    | some o => pure o
    | none => recordOwner abs uid gid

def doFchown : Act World Outcome := do
  let gp ← Act.read (pathOfFd · (int32 (r.arg 0)))
  if gp = [] then pure .fwd else recordOwner gp (uint32 (r.arg 1)) (uint32 (r.arg 2))

/-! ## Symbolic links -/

def linkName (at_ : Bool) (w : World) : Option Str :=
  if at_ then resolveSecond t r arg true w else absolutize w (t.cstr r arg) w.cwd

/-- A trailing slash asks for a directory, which a new link is not. -/
def symlinkSlash (link : Str) : Act World Outcome := do
  let pc ← ask arg (stripSlashes link) false false
  match pc.realm with
  | .virtualFile => refuse .eexist
  | .absent => refuse .enoent
  | .hostBacked =>
    if ← onHost fun h => (hostLexists h pc.hostPath).isOk then refuse .eexist
    else if !(← onHost (hostDirSearchable · pc.hostPath)) then refuse .eacces
    else refuse .enoent

def pathSymlink (targetArg linkArg : Nat) (at_ : Bool) : Act World Outcome :=
  let raw := t.cstr r linkArg
  if emptyPathArg t r linkArg then refuse .enoent
  else if emptyPathArg t r targetArg then refuse .enoent
  else
    refuseIf (dotPrefixError t r linkArg at_) <|
    withPath (linkName t r linkArg at_) fun link =>
    if pathSyntax raw = .needsDir then symlinkSlash linkArg link
    else do
      let pc ← ask linkArg link true false .parentsOnly
      if ← onHost (dotTraversalDenied · raw pc.hostPath) then refuse .eacces
      else refuseIf (guestPrefixLoop linkArg link) <|
        if pc.realm = .virtualFile then refuse (virtualMutErrno link .existing)
        else if pc.hostPath = [] then refuse pc.error
        else pure (.toHost linkArg pc.hostPath)

end Linuxity.Abi

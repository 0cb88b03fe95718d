import Linuxity.Abi.Look

/-!
# Abi.Open — `open`, `openat`, `openat2` and `creat` (`abi/syscall.hpp`)

An open leaves the path, the flags and the directory listing that belong to the new descriptor in
the pending fields, to be recorded once the kernel has given its number.
-/

namespace Linuxity.Abi

open Posix Wire Kernel Logic

def exclusive (flags : Nat) : Bool := has flags .creat && has flags .excl

def openIntent (flags : Nat) : WriteIntent :=
  if writable flags && (exclusive flags || has flags .trunc) then .parentsOnly else .copyLeaf

def setPending (path : Str) (flags : Nat) (w : World) : World :=
  { w with pendingOpen := path, pendingFlags := flags }

def setPendingLazy (abs : Str) (w : World) : World :=
  { w with pendingDir := true, pendingLazy := abs }

def setPendingDir (isDir : Bool) (entries : List VirtualDirent) (w : World) : World :=
  { w with pendingDir := isDir, pendingEntries := entries }

variable (t : Task) (arg flags : Nat)

def exclusiveError (raw abs : Str) (pc : PathClass) : Act World (Option Errno) :=
  if !exclusive flags then pure none
  else do
    if pathSyntax raw == .needsDir && (← onHost (hostPathIsDir · pc.hostPath)) then
      pure (some .eisdir)
    else if pc.realm == .hostBacked && (← onHost fun h => (hostLexists h pc.hostPath).isOk) then
      pure (some .eexist)
    else do
      let named ← ask arg abs false false
      if named.realm == .hostBacked && (← onHost (hostPathIsSymlink · named.hostPath)) then
        pure (some .eexist)
      else pure none

def nofollowLink (abs : Str) : Act World (Option Str) :=
  if !hasFor t.arch flags .nofollow then pure none
  else do
    let named ← ask arg abs false false
    if ← onHost (hostPathIsSymlink · named.hostPath) then pure (some named.hostPath) else pure none

/-- Root may write a file whose mode says that nobody may. -/
def grantRootWrite (abs host : Str) (w : World) : World :=
  match w.host.stat host with
  | .error _ => w
  | .ok n =>
    match n.kind with
    | .file _ =>
      if n.mode &&& 0o600 = 0o600 then w
      else
        let real := n.mode &&& 0o7777
        match w.chmod host (real ||| 0o600) with
        | (.error _, w) => w
        | (.ok _, w) =>
          if (w.metas.table abs).any (·.hasMode) then w else w.setMetaMode abs real none
    | _ => w

def isFifoAt (h : Host) (p : Str) : Bool := (h.stat p).toOption.any (·.kind == .special true)

def fifoOpen (abs : Str) : Act World Outcome :=
  match t.fifoTurn with
  | .retry => pure (.virtualize 0 10000000)
  | .refused e => pure (.fail e)
  | .pipe path => do
    Act.modify (setPending abs flags)
    pure (.toHost arg path)

def openHost (abs hostPath : Str) : Act World Outcome := do
  let emulated ← Act.read fun w =>
    w.fifosEmulated && !hasFor t.arch flags .path && w.metas.isFifo abs &&
      hostPathIsRegular w.host hostPath
  if emulated then fifoOpen t arg flags abs
  else do
    Act.modify (setPending abs flags)
    if writable flags then Act.modify (grantRootWrite abs hostPath)
    else Act.modify (setPendingLazy abs)
    let mayBlock ← onHost fun h =>
      !hasFor t.arch flags .nonblock && !hasFor t.arch flags .path && isFifoAt h hostPath
    pure (.redirect { first := { arg := arg, hostPath := hostPath }, mayBlock := mayBlock })

def isProcMaps (p : Str) : Bool := proc.isPrefixOf p && "/maps".toList.isSuffixOf p

def openVirtual (vp : Str) : Act World Outcome := do
  if writable flags && !virtualIsWritable vp then pure (.fail .eacces)
  else match ← Act.read (produce · vp) with
    | .error e => pure (.fail e)
    | .ok vf => do
      Act.modify (setPending vp 0)
      Act.modify (setPendingDir vf.isDir vf.entries)
      pure (.inject arg (if vf.bytes = [] ∧ isProcMaps vp then t.maps else vf.bytes) vf.isDir)

def openClass (abs : Str) (pc : PathClass) : Act World Outcome :=
  match pc.realm with
  | .hostBacked => openHost t arg flags abs pc.hostPath
  | .virtualFile => openVirtual t arg flags (virtualOf pc abs)
  | .absent => pure (.fail pc.error)

/-- The link itself is opened with `O_PATH`, and refused without. -/
def openLink (abs link : Str) : Act World Outcome :=
  if !hasFor t.arch flags .path then pure (.fail .eloop)
  else do
    Act.modify (setPending abs 0)
    pure (.toHost arg link)

def pathOpenFlags (r : Regs) (arg : Nat) (at_ : Bool) (flags : Nat) : Act World Outcome :=
  let raw := t.cstr r arg
  if raw = [] then pure (if hasAt flags .emptyPath then .fwd else .fail .enoent)
  else
    refuseIf (dotPrefixError t r arg at_) <|
    withPath (resolveArg t r arg at_) fun abs => do
    let pc ← ask arg abs (writable flags) true (openIntent flags)
    refuseIf (exclusiveError arg flags raw abs pc) <| do
    match ← nofollowLink t arg flags abs with
    | some link => openLink t arg flags abs link
    | none =>
      if openIntent flags == .parentsOnly && (← onHost (dotTraversalDenied · raw pc.hostPath)) then
        pure (.fail .eacces)
      else openClass t arg flags abs pc

def pathOpen (r : Regs) (arg : Nat) (at_ : Bool) : Act World Outcome :=
  pathOpenFlags t r arg at_ (r.arg (arg + 1))

/-- The flags are the first word of a structure in memory, and zero if it cannot be read. -/
def pathOpenat2 (r : Regs) : Act World Outcome :=
  let flags := ((t.mem.copyIn (r.arg 2) 8).getD []).reverse.foldl (fun v c => v * 256 + c.toNat) 0
  pathOpenFlags t r 1 true flags

def creatFlags : Nat := OpenFlag.creat.bits ||| OpenFlag.wronly.bits ||| OpenFlag.trunc.bits

end Linuxity.Abi

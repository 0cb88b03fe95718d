import Linuxity.Abi.Open
import Linuxity.Abi.Rename
import Linuxity.Abi.Sockaddr
import Linuxity.Kernel.Listing

/-!
# Abi.Dispatch — one trapped call (`abi/syscall.hpp`)

The calls that name a path or a descriptor.  `passed` stands for those the dispatcher forwards as
they are.
-/

namespace Linuxity.Abi

open Posix Wire Kernel Logic

inductive Sysno where
  | open_ | openat | creat | openat2 | stat | lstat | newfstatat | statx
  | access | faccessat | faccessat2
  | readlink | readlinkat | getcwd | getdents64 | lseek | statfs | fstatfs | chroot | chdir | fchdir
  | getxattr | listxattr | lgetxattr | llistxattr
  | setxattr | removexattr | lsetxattr | lremovexattr
  | getxattrat | listxattrat | setxattrat | removexattrat | inotifyAddWatch | fanotifyMark
  | mount | umount2 | execve | execveat | close | dup | dup2 | dup3 | fcntl
  | mkdir | mkdirat | mknod | mknodat | rmdir | unlink | unlinkat | truncate | utimes | utime
  | utimensat | futimesat
  | chmod | fchmodat | fchmodat2 | fchmod | chown | lchown | fchownat | fchown
  | rename | renameat | renameat2 | link | linkat | symlink | symlinkat | bind | connect
  | passed
  deriving DecidableEq

/-! ## Descriptors -/

/-- A process seen for the first time has the directory and the descriptors of its parent, or else
of the process served last. -/
def setCurrentPid (pid ppid : Int) (w : World) : World :=
  let w := { w with curPid := pid }
  if pid = w.seededPid then w
  else
    let w :=
      if (w.cwds pid).isSome then w
      else
        let parent := if (w.cwds ppid).isSome then ppid else w.lastPid
        { w with
          cwds := Function.update w.cwds pid (some ((w.cwds ppid).getD w.lastCwd))
          fdTables := match w.fdTables parent with
            | none => w.fdTables
            | some t => Function.update w.fdTables pid (some t) }
    { w with
      seededPid := pid, lastPid := pid
      lastCwd := if w.cwdOf pid = [] then w.lastCwd else w.cwdOf pid }

variable (t : Task) (r : Regs)

def doClose : Act World Outcome := do
  Act.modify fun w => w.setFds (w.fds.unbindFd (int32 (r.arg 0)))
  pure .fwd

def doDup : Outcome := .forward (some { src := int32 (r.arg 0) })

def doDup2 : Outcome := .forward (some { src := int32 (r.arg 0), closeFirst := int32 (r.arg 1) })

def doFcntl : Outcome :=
  if r.arg 1 = 0 ∨ r.arg 1 = 1030 then .forward (some { src := int32 (r.arg 0) }) else .fwd

def doFstatfs : Act World Outcome := do
  let w ← Act.read id
  let gp := pathOfFd w (int32 (r.arg 0))
  pure (if gp ≠ [] && underVirtualMount w.mounts gp then stored t (r.arg 1) else .fwd)

/-! ## Directory streams -/

def direntReclen (name : Str) : Nat := (19 + name.length + 1 + 7) / 8 * 8

def setDirStream (fd : Int) (ds : DirStream) (w : World) : World :=
  w.setFds { w.fds with dirs := Function.update w.fds.dirs fd (some ds) }

def seekFrom (target : Nat) : List VirtualDirent → Nat → Nat → Nat × Nat
  | [], i, cur => (i, cur)
  | e :: es, i, cur =>
    if target ≤ cur then (i, cur) else seekFrom target es (i + 1) (cur + direntReclen e.name)

def int64 (n : Nat) : Int :=
  if n % 2 ^ 64 < 2 ^ 63 then n % 2 ^ 64 else (n % 2 ^ 64 : Nat) - (2 ^ 64 : Int)

def doLseek : Act World Outcome := do
  let fd := int32 (r.arg 0)
  match ← dirStream fd with
  | none => pure .fwd
  | some ds =>
    let whence := int32 (r.arg 2)
    let target :=
      if whence = 0 then int64 (r.arg 1)
      else if whence = 1 then ds.byteOff + int64 (r.arg 1)
      else -1
    if target < 0 then refuse .einval
    else do
      let (i, cur) := seekFrom target.toNat ds.entries 0 0
      Act.modify (setDirStream fd { ds with pos := i, byteOff := cur })
      pure (.virtualize cur)

def fillFrom (cap : Nat) : List VirtualDirent → Nat → Nat → Nat × Nat
  | [], out, k => (out, k)
  | e :: es, out, k =>
    if cap < out + direntReclen e.name then (out, k)
    else fillFrom cap es (out + direntReclen e.name) (k + 1)

def doGetdents64 : Act World Outcome := do
  let fd := int32 (r.arg 0)
  match ← dirStream fd with
  | none => pure .fwd
  | some ds => do
    let (out, k) := fillFrom (r.arg 2) (ds.entries.drop ds.pos) 0 0
    Act.modify (setDirStream fd { ds with pos := ds.pos + k, byteOff := ds.byteOff + out })
    if out = 0 then pure (if ds.pos < ds.entries.length then .fail .einval else .virtualize 0)
    else pure (stored t (r.arg 1) out)

/-! ## Mounts of the guest -/

def knownFsType (ty : Str) : Bool :=
  ["proc", "sysfs", "tmpfs", "ext4", "devtmpfs", "devpts", "overlay", "ramfs", "bind", "none"].any
    (·.toList == ty)

def isMountPoint (mounts : List Mount) (abs : Str) : Bool := mounts.any (·.pre == normalizePath abs)

def bindSource (k : Act World Outcome) : Act World Outcome :=
  let src := t.cstr r 0
  if r.arg 3 &&& 0x1000 = 0 ∨ src = [] then k
  else withPath (fun w => absolutize w src w.cwd) fun abs => do
    let pc ← ask 0 abs false true
    if pc.realm = .absent then refuse pc.error
    else if pc.realm == .hostBacked && pc.hostPath != [] &&
      !(← onHost fun h => (h.lstat pc.hostPath).isOk) then
      refuse .enoent
    else k

/-- A mount is accepted and remembered, and does nothing. -/
def doMount : Act World Outcome :=
  if t.cstr r 2 ≠ [] ∧ !knownFsType (t.cstr r 2) then refuse .enodev
  else bindSource t r <|
    if t.cstr r 1 = [] then pure (.virtualize 0)
    else withPath (fun w => absolutize w (t.cstr r 1) w.cwd) fun tgt => do
      Act.modify fun w => { w with guestMounts := insert tgt w.guestMounts }
      pure (.virtualize 0)

def doUmount2 : Act World Outcome :=
  if t.cstr r 0 = [] then refuse .efault
  else withPath (fun w => absolutize w (t.cstr r 0) w.cwd) fun tgt => do
    let w ← Act.read id
    Act.modify fun w => { w with guestMounts := w.guestMounts.erase tgt }
    if tgt ∈ w.guestMounts ∨ isMountPoint w.mounts tgt then pure (.virtualize 0) else refuse .einval

/-! ## The dispatcher -/

def followAt (flags : Nat) : Bool := !hasAt flags .symlinkNofollow

def serve : Sysno → Act World Outcome
  | .open_ => pathOpen t r 0 false
  | .openat => pathOpen t r 1 true
  | .creat => pathOpenFlags t r 0 false creatFlags
  | .openat2 => pathOpenat2 t r
  | .stat => pathStat t r 0 false true
  | .lstat => pathStat t r 0 false false
  | .newfstatat => pathStat t r 1 true (followAt (r.arg 3))
  | .statx => pathStatx t r
  | .access => pathAt t r 0 false
  | .faccessat | .faccessat2 => pathAt t r 1 true
  | .readlink => doReadlink t r 0 false
  | .readlinkat => doReadlink t r 1 true
  | .getcwd => doGetcwd t r
  | .getdents64 => doGetdents64 t r
  | .lseek => doLseek r
  | .statfs => pathStatfs t r
  | .fstatfs => doFstatfs t r
  | .chroot => doChroot t r
  | .chdir => doChdir t r
  | .fchdir => doFchdir r
  | .getxattr | .listxattr => pathXattr t r false true
  | .lgetxattr | .llistxattr => pathXattr t r false false
  | .setxattr | .removexattr => pathXattr t r true true
  | .lsetxattr | .lremovexattr => pathXattr t r true false
  | .getxattrat | .listxattrat => pathXattr t r false (followAt (r.arg 2)) 1 true
  | .setxattrat | .removexattrat => pathXattr t r true (followAt (r.arg 2)) 1 true
  | .inotifyAddWatch => pathWatch t r 1
  | .fanotifyMark => pathWatch t r 4 true
  | .mount => doMount t r
  | .umount2 => doUmount2 t r
  | .execve => pathExec t r 0
  | .execveat => pathExec t r 1
  | .close => doClose r
  | .dup => pure (doDup r)
  | .dup2 | .dup3 => pure (doDup2 r)
  | .fcntl => pure (doFcntl r)
  | .mkdir => pathMut t r 0 false .parentsOnly true
  | .mkdirat => pathMut t r 1 true .parentsOnly true
  | .mknod => pathMut t r 0 false .parentsOnly true false true
  | .mknodat => pathMut t r 1 true .parentsOnly true false true
  | .rmdir => pathMut t r 0 false .remove false true
  | .unlink => pathMut t r 0 false .remove
  | .unlinkat => pathMut t r 1 true .remove
  | .truncate => pathMut t r 0 false .copyLeaf
  | .utimes | .utime => doUtimes t r 0 false none
  | .utimensat => doUtimes t r 1 true (some (r.arg 3))
  | .futimesat => doUtimes t r 1 true none
  | .chmod => doChmod t r 0 false
  | .fchmodat => doChmod t r 1 true
  | .fchmodat2 => doChmod t r 1 true true
  | .fchmod => doFchmod t r
  | .chown => doChown t r 0 1 2 false true
  | .lchown => doChown t r 0 1 2 false false
  | .fchownat => doChown t r 1 2 3 true (followAt (r.arg 4))
  | .fchown => doFchown r
  | .rename => pathMut2 t r 0 1 false true
  | .renameat => pathMut2 t r 1 3 true true
  | .renameat2 => pathMut2 t r 1 3 true true none (uint32 (r.arg 4))
  | .link => pathMut2 t r 0 1 false false
  | .linkat => pathMut2 t r 1 3 true false (some (r.arg 4))
  | .symlink => pathSymlink t r 0 1 false
  | .symlinkat => pathSymlink t r 0 2 true
  | .bind => fun w => doSockaddrUn w t.mem r true
  | .connect => fun w => doSockaddrUn w t.mem r false
  | .passed => pure .fwd

def dispatch (sc : Sysno) : Act World Outcome := do
  Act.modify (setCurrentPid t.pid t.ppid)
  serve t r sc

end Linuxity.Abi

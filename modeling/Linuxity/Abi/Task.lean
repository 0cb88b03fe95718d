import Linuxity.Abi.Outcome
import Linuxity.Kernel.Absolutize
import Linuxity.Logic.Act
import Linuxity.Wire.Flags

/-!
# Abi.Task — the trapped task, and how a handler asks its questions (`abi/syscall.hpp`)

A handler reads the task's registers and memory, asks the file namespace about guest paths and the
host about host paths, and ends in an `Outcome`.
-/

namespace Linuxity.Abi

open Posix Wire Kernel Logic

/-- The file behind a descriptor of the task, as `/proc` shows it. -/
inductive FdFile where
  | named (l : Loc)
  /-- A file without a name (`O_TMPFILE`). -/
  | unnamed (mode : Nat) (data : Str)

inductive Program where
  | plain | foreign
  | dynamic (interp : Str)
  | script (interp arg : Str)
  deriving DecidableEq

/-- How an open of an emulated FIFO stands: its other end is awaited, it fails, or it goes on to a
pipe of the supervisor. -/
inductive FifoTurn where
  | retry
  | refused (e : Errno)
  | pipe (path : Str)

/-- What the backend tells the dispatcher about the task whose call is being served. -/
structure Task where
  mem : GuestMem
  pid : Int := 1
  tid : Int := 1
  ppid : Int := 0
  arch : Arch := .x8664
  /-- The first argument each guest process was started with. -/
  argv0 : Int → Option Str := fun _ => none
  /-- The descriptors that can be reopened through `/proc`. -/
  fd : Int → Option FdFile := fun _ => none
  oPath : Int → Bool := fun _ => false
  deleted : Int → Bool := fun _ => false
  umask : Nat := 0o22
  hostCwd : Loc := []
  linkAllowed : Bool := true
  fifoTurn : FifoTurn := .refused .enxio
  maps : Str := []
  /-- What the file at a host path starts with. -/
  program : Str → Program := fun _ => .plain
  /-- The environment asks for `--overwrite` to be given to the package manager. -/
  pacmanOverwrite : Bool := false
  /-- Whether a result can be stored at an address of the task. -/
  storable : Nat → Bool := fun _ => true

namespace GuestMem

/-- At most `n` characters from `a`, up to a zero byte or to memory that cannot be read. -/
def cstrFrom (mem : GuestMem) : Nat → Nat → Str
  | 0, _ => []
  | n + 1, a =>
    match mem.byte a with
    | none => []
    | some b => if b = 0 then [] else Char.ofNat b.toNat :: cstrFrom mem n (a + 1)

/-- `read_cstr`: the chunks it reads end at page boundaries, and where one fails it goes on byte
by byte, so it finds every character before the first byte that cannot be read. -/
def readCstr (mem : GuestMem) (a : Nat) : Str := mem.cstrFrom 4097 a

def ofText (s : Str) : GuestMem where
  byte
    | 0 => none
    | a + 1 => s[a]?.map fun c => c.toNat.toUInt8
  null := rfl

end GuestMem

def Task.cstr (t : Task) (r : Regs) (arg : Nat) : Str := t.mem.readCstr (r.arg arg)

/-! ## Paths as they are written -/

inductive PathSyntax where
  | ok | empty | needsDir
  deriving DecidableEq

def pathSyntax (raw : Str) : PathSyntax :=
  if raw = [] then .empty else if 1 < raw.length ∧ raw.getLast? = some '/' then .needsDir else .ok

inductive DotTail where
  | none | dot | dotdot
  deriving DecidableEq

variable (h : Host) (p : Str) (w : World)

/-- Slashes at the end do not count, but for a path of one slash. -/
def stripSlashes : Str :=
  match p with
  | [] => []
  | c :: p => c :: (p.reverse.dropWhile (· == '/')).reverse

def dotTail : DotTail :=
  let p := stripSlashes p
  if p = dot ∨ ('/' :: dot) <:+ p then .dot
  else if p = dotdot ∨ ('/' :: dotdot) <:+ p then .dotdot
  else .none

def nullPathArg (r : Regs) (arg : Nat) : Bool := r.arg arg == 0

/-- `flags` is the flags word of a call that knows `AT_EMPTY_PATH`. -/
def emptyPathArg (t : Task) (r : Regs) (arg : Nat) (flags : Option Nat := none) : Bool :=
  !nullPathArg r arg && t.cstr r arg == [] && !flags.any (hasAt · .emptyPath)

def emptyCstrArg (t : Task) (r : Regs) (arg : Nat) : Bool :=
  !nullPathArg r arg && t.cstr r arg == []

def virtualIsWritable : Bool := "/comm".toList.isSuffixOf p

inductive VMut where
  | create | existing | remove | metadata
  deriving DecidableEq

def virtualMutErrno (abs : Str) : VMut → Errno
  | .create => .enoent
  | .existing => .eexist
  | .metadata => .eperm
  | .remove => if (abs.dropWhile (· == '/')).count '/' ≤ 1 then .eacces else .eperm

/-! ## Questions to the host -/

def noSearch : Bool :=
  match h.stat p with
  | .error e => e == .eacces
  | .ok n => !n.searchable

def accessErrno : Errno → Errno
  | .eacces => .eacces
  | .eloop => .eloop
  | .enotdir => .enotdir
  | .enametoolong => .enametoolong
  | _ => .enoent

def hostPathIsDir : Bool := p != [] && (h.stat p).toOption.any Node.isDir

def hostPathIsDirNofollow : Bool := p != [] && (h.lstat p).toOption.any Node.isDir

def hostPathIsSymlink : Bool := p != [] && (h.lstat p).toOption.any Node.isLink

def hostPathIsRegular : Bool :=
  p != [] && (h.stat p).toOption.any fun n => match n.kind with | .file _ => true | _ => false

/-- The answer is the reason where the name is not there. -/
def hostLexists : Except Errno Unit :=
  if p = [] then .error .enoent
  else match h.lstat p with
    | .ok _ => .ok ()
    | .error e => .error (accessErrno e)

def hostTargetExists : Except Errno Unit :=
  if p = [] then .error .enoent
  else match h.stat p with
    | .ok _ => .ok ()
    | .error e => .error (accessErrno e)

def parentIsDir : Bool :=
  dirOf p == [] || match h.stat (dirOf p) with | .error _ => true | .ok n => n.isDir

def parentResolves : Except Errno Unit :=
  if dirOf p = [] then .ok () else hostTargetExists h (dirOf p)

def hostDirSearchable : Bool :=
  dirOf p == [] || match h.stat (dirOf p) with
    | .error _ => true | .ok n => !n.isDir || n.searchable

def pathIsAncestor (anc p : Str) : Bool :=
  anc != [] && p != [] && decide (anc.length < p.length) && anc.isPrefixOf p &&
    (p[anc.length]? == some '/' || anc.getLast? == some '/')

def dotTraversalDenied (raw hostPath : Str) : Bool :=
  dotTail raw != .none && hostPath != [] && noSearch h hostPath

/-! ## Questions to the namespace -/

def ask (arg : Nat) (abs : Str) (forWrite follow : Bool) (wi : WriteIntent := .copyLeaf) :
    Act World PathClass :=
  fun w =>
    ((classify abs forWrite follow wi w).1, (classify abs forWrite follow wi w).2.noteName arg abs)

def askName (arg : Nat) (abs : Str) (forWrite follow : Bool) (wi : WriteIntent) :
    Act World PathClass :=
  fun w =>
    ((classifyName abs forWrite follow wi w).1,
    (classifyName abs forWrite follow wi w).2.noteName arg abs)

def onHost {α : Type} (f : Host → α) : Act World α := Act.read fun w => f w.host

def refuseIf (x : Act World (Option Errno)) (k : Act World Outcome) : Act World Outcome :=
  x >>= fun
    | some e => pure (.fail e)
    | none => k

def withPath (x : World → Option Str) (k : Str → Act World Outcome) : Act World Outcome :=
  Act.read x >>= fun
    | none => pure .abort
    | some abs => k abs

def produce (abs : Str) : Except Errno VirtualFile :=
  match deepest w.mounts abs with
  | none => .error .enoent
  | some m => match m.producer with
    | none => .error .enoent
    | some prod => prod abs

def underVirtualMount (mounts : List Mount) (abs : Str) : Bool :=
  mounts.any fun m => m.producer.isSome && m.pre.isPrefixOf abs &&
    (abs.length == m.pre.length || abs[m.pre.length]? == some '/')

/-! ## The directory a path starts from -/

def pathOfFd (fd : Int) : Str := w.fds.pathOfFd fd

/-- Empty for `AT_FDCWD`, and for a descriptor without a record as well. -/
def dirOfFd (dirfd : Nat) : Str := if int32 dirfd = atFdCwd then [] else pathOfFd w (int32 dirfd)

/-- The directory descriptor of an `*at` call is in its first register. -/
def dirFor (r : Regs) (at_ : Bool) : Str := if at_ then dirOfFd w (r.arg 0) else []

def atDirfdUnresolvable (r : Regs) (raw : Str) : Bool :=
  int32 (r.arg 0) != atFdCwd && raw != [] && !isAbs raw && dirOfFd w (r.arg 0) == []

def dirBase (r : Regs) (at_ : Bool) : Str :=
  let d := dirFor w r at_
  if d ≠ [] then d else if w.cwd = [] then slash else w.cwd

end Linuxity.Abi

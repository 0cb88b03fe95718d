import Linuxity.Abi.Task

/-!
# Abi.Resolve — from a path argument to a guest path (`abi/syscall.hpp`)

A path argument is joined to the directory of its descriptor, made absolute, and led through the
magic links of `/proc`.  Before that, the components in front of a `.` or `..` are walked, since
writing the path without them would forget that they have to be directories.
-/

namespace Linuxity.Abi

open Posix Wire Kernel Logic

def proc : Str := "/proc/"

def procSelf : Str := "/proc/self"

def threadSelf : Str := "/proc/thread-self"

def decimal (n : Int) : Str := (toString n).toList

/-- The number is an `int`, and wraps. -/
def atoiSafe (s : Str) : Int :=
  if s = [] ∨ !s.all Char.isDigit then -1
  else int32 (s.foldl (fun v c => v * 10 + (c.toNat - 48)) 0)

/-! ## The links of `/proc` -/

variable (t : Task)

/-- The task's own descriptors keep, or get, the form that the host resolves for the task. -/
def ownFdForm (abs : Str) : Option Str :=
  [procSelf, proc ++ decimal t.pid].findSome? fun who =>
    ["/fd", "/fdinfo"].findSome? fun leaf =>
      if LinkTable.under (who ++ leaf) abs
        then some (procSelf ++ leaf ++ abs.drop (who ++ leaf).length) else none

/-- `/proc/self` is the task that makes the call. -/
def bindProcSelf (abs : Str) : Str :=
  if !proc.isPrefixOf abs then abs
  else match ownFdForm t abs with
    | some p => p
    | none =>
      if LinkTable.under procSelf abs then proc ++ decimal t.pid ++ abs.drop procSelf.length
      else if LinkTable.under threadSelf abs then
        proc ++ decimal t.pid ++ "/task/" ++ decimal t.tid ++ abs.drop threadSelf.length
      else abs

/-- One of the links `exe`, `cwd` and `root` of a process. -/
def procIsLink (p : Str) : Bool :=
  let who := (dirOf p).drop proc.length
  proc.isPrefixOf p && ["exe".toList, "cwd", "root"].contains (leafOf p) &&
    (who == "self" || who == "thread-self" || who != [] && who.all Char.isDigit)

/-- Only an absolute first argument says what a process runs. -/
def exeOf (pid : Int) : Str :=
  match t.argv0 pid with
  | none => []
  | some a => if isAbs a ∧ a ≠ "(spawning)" then a else []

/-- The target of a link of `/proc`; empty if `abs` is not one. -/
def procSymlinkTarget (w : World) (abs : Str) : Str :=
  let rest := abs.drop proc.length
  let who := rest.takeWhile (· != '/')
  let tail := (rest.dropWhile (· != '/')).drop 1
  let pid := if who = "self" ∨ who = "thread-self" then t.pid else atoiSafe who
  if !proc.isPrefixOf abs ∨ '/' ∉ rest ∨ pid ≤ 0 then []
  else if tail = "exe" then exeOf t pid
  else if tail = "cwd" then w.cwd
  else if tail = "root" then slash
  else if "fd/".toList.isPrefixOf tail ∧ pid = t.pid then
    let fd := atoiSafe (tail.drop 3)
    if fd < 0 ∨ pathOfFd w fd = [] then []
    else pathOfFd w fd ++ if t.deleted fd then " (deleted)".toList else []
  else []

/-- The kernel follows the magic links in the middle of a path, and at its end if asked to. -/
def expandProcLinks (w : World) (abs : Str) (followLeaf : Bool) : Str :=
  let body := abs.drop proc.length
  let who := body.takeWhile (· != '/')
  let below := (body.dropWhile (· != '/')).drop 1
  let leaf := below.takeWhile (· != '/')
  let rest := below.dropWhile (· != '/')
  let link := proc ++ who ++ '/' :: leaf
  if !proc.isPrefixOf abs ∨ '/' ∉ body ∨ !procIsLink link then abs
  else if rest = [] ∧ !followLeaf then abs
  else
    let tgt := procSymlinkTarget t w link
    if !isAbs tgt then abs else normalizePath (tgt ++ rest)

def resolveRaw (r : Regs) (raw : Str) (at_ followLeaf : Bool) (w : World) : Option Str :=
  (absolutize w raw (dirFor w r at_)).map fun abs =>
    expandProcLinks t w (bindProcSelf t abs) followLeaf

def resolveArg (r : Regs) (arg : Nat) (at_ : Bool) (followLeaf : Bool := true)
    (w : World) : Option Str :=
  resolveRaw t r (t.cstr r arg) at_ followLeaf w

def resolveSecond (r : Regs) (arg : Nat) (at_ : Bool) (w : World) : Option Str :=
  absolutize w (t.cstr r arg) (if at_ then dirOfFd w (r.arg (arg - 1)) else [])

/-- The descriptor of a path such as `/proc/self/fd/7`. -/
def magicFdOf (p : Str) : Int :=
  let pres := [procSelf ++ "/fd/", threadSelf ++ "/fd/", proc ++ decimal t.pid ++ "/fd/"]
  match pres.find? (·.isPrefixOf p) with
  | none => -1
  | some pre => let s := p.drop pre.length; if 9 < s.length then -1 else atoiSafe s

/-! ## Components in front of a dot -/

def dirProblem (h : Host) (pc : PathClass) : Option Errno :=
  if pc.realm ≠ .hostBacked ∨ pc.hostPath = [] then none
  else match h.stat pc.hostPath with
    | .error e => some (accessErrno e)
    | .ok n => if !n.isDir then some .enotdir else if !n.searchable then some .eacces else none

def joinComp (cur c : Str) : Str := (if cur.getLast? = some '/' then cur else cur ++ slash) ++ c

def dotWalk (arg : Nat) : List Str → Str → Act World (Option Errno)
  | [], _ => pure none
  | c :: cs, cur => do
    let pc ← ask arg (normalizePath (joinComp cur c)) false true
    match ← onHost (dirProblem · pc) with
    | some e => pure (some e)
    | none => dotWalk arg cs (joinComp cur c)

def isDot (c : Str) : Bool := c == dot || c == dotdot

/-- A path that is one dot: the directory it starts from has to be searchable. -/
def dotOnly (arg : Nat) (base : Str) : Act World (Option Errno) := do
  let pc ← ask arg base false true
  let denied ← onHost fun h =>
    pc.realm == .hostBacked && pc.hostPath != [] && noSearch h pc.hostPath
  pure (if denied then some .eacces else none)

def walkStart (r : Regs) (raw : Str) (at_ : Bool) (w : World) : Str :=
  if isAbs raw then slash else dirBase w r at_

/-- The error of walking the components in front of the first dot. -/
def dotPrefixError (r : Regs) (arg : Nat) (at_ : Bool) : Act World (Option Errno) :=
  let raw := t.cstr r arg
  let cs := comps raw
  if !cs.any isDot then pure none
  else if cs.head?.any isDot then
    if 1 < cs.length then pure none
    else Act.read (walkStart r raw at_) >>= dotOnly arg
  else Act.read (walkStart r raw at_) >>= dotWalk arg (cs.takeWhile (!isDot ·))

/-! ## Why a path does not resolve -/

/-- A cycle of links in front of the last component. -/
def guestPrefixLoop (arg : Nat) (abs : Str) : Act World (Option Errno) :=
  if dirOf abs = [] then pure none
  else do
    let pc ← ask arg (dirOf abs) false true
    pure (if pc.error = .eloop then some .eloop else none)

def resolveFailureErrno (arg : Nat) (abs : Str) (fallback : Errno) : Act World Errno := do
  let mapped ← ask arg abs false false
  onHost fun h =>
    if mapped.hostPath = [] then fallback
    else match hostTargetExists h mapped.hostPath with
      | .ok _ => fallback
      | .error e => if e = .enoent then fallback else e

end Linuxity.Abi

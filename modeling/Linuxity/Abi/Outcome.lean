import Linuxity.Kernel.World

/-!
# Abi.Outcome — a trapped call, and what is to become of it (`abi/outcome.hpp`)
-/

namespace Linuxity.Abi

open Posix

/-- A trapped call: its number and its argument registers. -/
structure Regs where
  nr : Nat := 0
  arg : Nat → Nat

/-- The guest's memory as the supervisor reads it.  Page zero is never mapped. -/
structure GuestMem where
  byte : Nat → Option UInt8
  null : byte 0 = none

namespace GuestMem

def copyIn (mem : GuestMem) (a n : Nat) : Option Str :=
  (List.range n).mapM fun i => (mem.byte (a + i)).map fun b => Char.ofNat b.toNat

/-- Little endian, and zero where the memory cannot be read. -/
def getU16 (mem : GuestMem) (a : Nat) : Nat :=
  match mem.byte a, mem.byte (a + 1) with
  | some lo, some hi => lo.toNat + 256 * hi.toNat
  | _, _ => 0

end GuestMem

def errnoCode : Errno → Int
  | .eperm => 1 | .enoent => 2 | .eio => 5 | .enxio => 6 | .ebadf => 9 | .eacces => 13
  | .efault => 14
  | .eexist => 17 | .exdev => 18 | .enotdir => 20 | .eisdir => 21 | .einval => 22 | .erofs => 30
  | .erange => 34 | .enametoolong => 36 | .enosys => 38 | .enotempty => 39 | .eloop => 40
  | .enodata => 61 | .eopnotsupp => 95 | .esrch => 3 | .enoexec => 8 | .ebusy => 16 | .enodev => 19

theorem errnoCode_pos (e : Errno) : 0 < errnoCode e := by
  cases e <;> decide

/-- Which buffer to overlay with the guest's idea of mode and owner, and for which path. -/
structure Scrub where
  statx : Bool
  buf : Nat
  guestPath : Str
  deriving DecidableEq

structure PathArg where
  arg : Int
  hostPath : Str
  rewrites : Bool := true
  deriving DecidableEq

/-- The form that knows the guest path the host path came from. -/
def PathArg.from (arg : Int) (hostPath guestPath : Str) : PathArg :=
  { arg := arg, hostPath := hostPath, rewrites := decide (hostPath ≠ guestPath) }

structure DupMirror where
  src : Int
  closeFirst : Int := -1
  deriving DecidableEq

structure Redirect where
  first : PathArg
  second : Option PathArg := none
  makeParents : Bool := false
  mayBlock : Bool := false
  forceRet : Option Int := none
  scrub : Option Scrub := none
  deriving DecidableEq

namespace Redirect

def isNoop (rd : Redirect) : Bool :=
  rd.second.isNone && !rd.makeParents && rd.scrub.isNone && rd.forceRet.isNone &&
    decide (0 ≤ rd.first.arg) && !rd.first.rewrites

end Redirect

inductive Outcome where
  | virtualize (ret : Int) (retryNs : Int := 0)
  | forward (mirror : Option DupMirror := none)
  | redirect (rd : Redirect)
  | inject (pathArg : Nat) (content : Str) (isDir : Bool)
  | sockRewrite (pathAddr : Nat) (bytes : Str) (lenArg newLen : Nat)
  | execInterp (pathArg : Nat) (interpHost progGuest : Str) (before extra : List Str)
  /-- An uncaught exception: the supervisor ends, and no call runs. -/
  | abort
  deriving DecidableEq

namespace Outcome

def fail (e : Errno) : Outcome := .virtualize (-errnoCode e)

def fwd : Outcome := .forward

def toHost (arg : Nat) (hostPath : Str) : Outcome :=
  .redirect { first := { arg := arg, hostPath := hostPath } }

end Outcome

end Linuxity.Abi

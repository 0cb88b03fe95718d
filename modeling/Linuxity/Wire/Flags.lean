import Linuxity.Posix.Path

/-!
# Wire.Flags — the flag words of the guest's calls (`abi/wire/open_flags.hpp`, `at_flags.hpp`)
-/

namespace Linuxity.Wire

inductive Arch where
  | x8664 | aarch64
  deriving DecidableEq

inductive OpenFlag where
  | wronly | rdwr | creat | excl | noctty | trunc | nonblock | nofollow | path
  deriving DecidableEq

def OpenFlag.bits : OpenFlag → Nat
  | .wronly => 0o1 | .rdwr => 0o2 | .creat => 0o100 | .excl => 0o200 | .noctty => 0o400
  | .trunc => 0o1000 | .nonblock => 0o4000 | .nofollow => 0o400000 | .path => 0o10000000

def has (flags : Nat) (f : OpenFlag) : Bool := flags &&& f.bits != 0

/-- Some flags sit at other bits on aarch64. -/
def openFlagFor (a : Arch) (f : OpenFlag) : Nat :=
  match a, f with
  | .aarch64, .nofollow => 0o100000
  | _, _ => f.bits

def hasFor (a : Arch) (flags : Nat) (f : OpenFlag) : Bool := flags &&& openFlagFor a f != 0

/-- The low two bits are a mode; creating and truncating change the file system in any mode. -/
def writable (flags : Nat) : Bool :=
  flags &&& 3 == OpenFlag.wronly.bits || flags &&& 3 == OpenFlag.rdwr.bits || has flags .creat ||
    has flags .trunc

inductive AtFlag where
  | symlinkNofollow | removedir | symlinkFollow | emptyPath
  deriving DecidableEq

def AtFlag.bits : AtFlag → Nat
  | .symlinkNofollow => 0x100 | .removedir => 0x200 | .symlinkFollow => 0x400 | .emptyPath => 0x1000

def hasAt (flags : Nat) (f : AtFlag) : Bool := flags &&& f.bits != 0

/-- The value of a register read as an `int`. -/
def int32 (n : Nat) : Int :=
  if n % 2 ^ 32 < 2 ^ 31 then n % 2 ^ 32 else (n % 2 ^ 32 : Nat) - (2 ^ 32 : Int)

/-- `AT_FDCWD`. -/
def atFdCwd : Int := -100

end Linuxity.Wire

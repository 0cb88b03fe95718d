import Linuxity.Runtime.Loop

/-!
# Runtime.Native — a kernel that runs the calls that make, move and remove names
-/

namespace Linuxity.Runtime

open Posix Wire Kernel Abi Logic

def renameByFlags (flags : Nat) (h : Host) (src dst : Str) : Except Errno Host :=
  if flags = 0 then h.rename src dst
  else if flags = noReplace then h.renameNoReplace src dst
  else if flags = exchangeFlag then h.exchange src dst
  else .error .einval

/-- The call on the paths it is given. -/
def nativeCall (t : Task) (r : Regs) (sc : Sysno) (x : Handed) (h : Host) : Except Errno Host :=
  match sc, x with
  | .mkdir, .paths p none => h.mkdir p.hostPath (r.arg 1)
  | .mkdirat, .paths p none => h.mkdir p.hostPath (r.arg 2)
  | .mknod, .paths p none => h.mknod p.hostPath (r.arg 1)
  | .mknodat, .paths p none => h.mknod p.hostPath (r.arg 2)
  | .symlink, .paths p none => h.symlink (t.cstr r 0) p.hostPath
  | .symlinkat, .paths p none => h.symlink (t.cstr r 0) p.hostPath
  | .unlink, .paths p none => h.unlink p.hostPath
  | .rmdir, .paths p none => h.rmdir p.hostPath
  | .unlinkat, .paths p none =>
    if hasAt (r.arg 2) .removedir then h.rmdir p.hostPath else h.unlink p.hostPath
  | .rename, .paths p (some q) => h.rename p.hostPath q.hostPath
  | .renameat, .paths p (some q) => h.rename p.hostPath q.hostPath
  | .renameat2, .paths p (some q) => renameByFlags (uint32 (r.arg 4)) h p.hostPath q.hostPath
  | .link, .paths p (some q) => h.link p.hostPath q.hostPath
  | .linkat, .paths p (some q) => h.link p.hostPath q.hostPath
  | _, _ => .error .enosys

/-- The kernel's answer, with the tree it leaves. -/
def nativeKernel (t : Task) (r : Regs) (sc : Sysno) : HostKernel := fun x h =>
  match nativeCall t r sc x h with
  | .ok h' => { reply := .ok 0, host := h' }
  | .error e => { reply := .ok (-errnoCode e), host := h }

/-- A task with two texts in its memory, the first one at address 1. -/
def twoTexts (a b : Str) : Task where
  mem := .ofText (a ++ Char.ofNat 0 :: b)

/-- The registers of a call on both, with `flags` in register 4. -/
def twoPaths (a : Str) : Regs where
  arg n := if n = 0 then 1 else if n = 1 then a.length + 2 else 0

/-- The same for a call with descriptors, which are not used. -/
def twoPathsAt (a : Str) (flags : Nat) : Regs where
  arg n := if n = 1 then 1 else if n = 3 then a.length + 2 else if n = 4 then flags else 0

end Linuxity.Runtime

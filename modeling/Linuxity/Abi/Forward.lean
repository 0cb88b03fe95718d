import Linuxity.Abi.Opens
import Linuxity.Kernel.LastTurn

/-!
# Abi.Forward — paths that reach the kernel as the guest wrote them

A call with a path is rewritten to the translated path.  Two handlers let the guest's own string
through: `newfstatat` where the directory descriptor has no record, and the extended attributes
where the translation is the path itself.  The kernel then walks the string from the task's real
directory.
-/

namespace Linuxity.Abi

open Posix Wire Kernel Logic List

/-! ## Path operands -/

/-- A register with a path, and how the path is looked up. -/
structure Operand where
  arg : Nat
  /-- The register of the descriptor that a relative path starts at. -/
  dir : Option Nat
  follow : Bool
  forWrite : Bool
  /-- The magic links of `/proc` are expanded, and the last one if so asked. -/
  expand : Option Bool

def isXattr : Sysno → Bool
  | .getxattr | .listxattr | .lgetxattr | .llistxattr
  | .setxattr | .removexattr | .lsetxattr | .lremovexattr
  | .getxattrat | .listxattrat | .setxattrat | .removexattrat => true
  | _ => false

/-- The paths of a call.  The text of a symbolic link is none, nor is the address of a socket. -/
def operands (r : Regs) : Sysno → List Operand
  | .open_ | .access | .statfs | .execve | .stat | .getxattr | .listxattr =>
    [⟨0, none, true, false, some true⟩]
  | .chroot | .chdir | .umount2 => [⟨0, none, true, false, none⟩]
  | .mount => [⟨0, none, true, false, none⟩, ⟨1, none, true, false, none⟩]
  | .creat | .truncate | .utimes | .utime | .chmod | .chown | .setxattr | .removexattr =>
    [⟨0, none, true, true, some true⟩]
  | .openat | .openat2 | .faccessat | .faccessat2 | .execveat =>
    [⟨1, some 0, true, false, some true⟩]
  | .lstat | .readlink => [⟨0, none, false, false, some false⟩]
  | .lgetxattr | .llistxattr => [⟨0, none, false, false, some true⟩]
  | .mkdir | .mknod | .rmdir | .unlink | .lchown | .lsetxattr | .lremovexattr =>
    [⟨0, none, false, true, some true⟩]
  | .mkdirat | .mknodat | .unlinkat => [⟨1, some 0, false, true, some true⟩]
  | .newfstatat => [⟨1, some 0, followAt (r.arg 3), false, some (followAt (r.arg 3))⟩]
  | .statx => [⟨1, some 0, followAt (r.arg 2), false, some (followAt (r.arg 2))⟩]
  | .readlinkat => [⟨1, some 0, false, false, some false⟩]
  | .getxattrat | .listxattrat => [⟨1, some 0, followAt (r.arg 2), false, some true⟩]
  | .setxattrat | .removexattrat => [⟨1, some 0, followAt (r.arg 2), true, some true⟩]
  | .utimensat | .futimesat | .fchmodat | .fchmodat2 => [⟨1, some 0, true, true, some true⟩]
  | .fchownat => [⟨1, some 0, followAt (r.arg 4), true, some true⟩]
  | .inotifyAddWatch => [⟨1, none, true, false, none⟩]
  | .fanotifyMark => [⟨4, some 3, true, false, none⟩]
  | .rename | .link => [⟨0, none, false, true, some true⟩, ⟨1, none, false, true, none⟩]
  | .renameat | .renameat2 | .linkat =>
    [⟨1, some 0, false, true, some true⟩, ⟨3, some 2, false, true, none⟩]
  | .symlink => [⟨1, none, false, true, none⟩]
  | .symlinkat => [⟨2, some 1, false, true, none⟩]
  | .getcwd | .getdents64 | .lseek | .fstatfs | .fchdir | .close | .dup | .dup2 | .dup3 | .fcntl
  | .fchmod | .fchown | .bind | .connect | .passed => []

def Operand.name (op : Operand) (t : Task) (r : Regs) (w : World) : Option Str :=
  (absolutize w (t.cstr r op.arg) ((op.dir.map fun k => dirOfFd w (r.arg k)).getD [])).map
      fun abs =>
    match op.expand with
    | none => abs
    | some leaf => expandProcLinks t w (bindProcSelf t abs) leaf

/-! ## The kernel's walk of the guest's string -/

/-- Where the kernel starts: the root, the real place of the descriptor, or the real directory of
the task. -/
def Operand.start (op : Operand) (t : Task) (r : Regs) : Option Loc :=
  if isAbs (t.cstr r op.arg) then some []
  else match op.dir.filter fun k => int32 (r.arg k) != atFdCwd with
    | none => some t.hostCwd
    | some k =>
      match t.fd (int32 (r.arg k)) with
      | some (.named l) => some l
      | _ => none

def Operand.kernelPlace (op : Operand) (t : Task) (r : Regs) (h : Host) : Except Errno Place :=
  match op.start t r with
  | none => .error .ebadf
  | some l => h.resolveAt l (t.cstr r op.arg) op.follow

/-- The walk of `hp` ends at `p`, inside the mounts or at the host node that a producer or a hard
link stands for. -/
def Operand.EndsAt (op : Operand) (w : World) (h : Host) (hp : Str) (p : Place) : Prop :=
  h.resolve hp op.follow = .ok p ∧
    (Inside h w.mounts p.loc ∨ IsRedirect w.mounts hp ∨ ∃ a, w.links.backingOf a = some hp)

/-- What the kernel reaches by the guest's string in `w'` is what the namespace's translation in
`w` names. -/
def Operand.Lands (op : Operand) (t : Task) (r : Regs) (w w' : World) : Prop :=
  ∀ p, op.kernelPlace t r w'.host = .ok p → ∃ abs hp, op.name t r w = some abs ∧
    (classify abs op.forWrite op.follow .copyLeaf w).1.hostPath = hp ∧ op.EndsAt w w'.host hp p

/-- The two ways past the translation. Where a `newfstatat` at a descriptor without a record ends,
the path ends that the namespace reads from the guest's own directory. Where the string of an
extended attribute ends, in the tree the call is made in, the path ends that is its own
translation. -/
structure ForwardOk (op : Operand) (t : Task) (r : Regs) (sc : Sysno) (w : World) : Prop where
  stat : sc = .newfstatat → atDirfdUnresolvable w r (t.cstr r 1) →
    ∀ p, op.kernelPlace t r w.host = .ok p → ∃ abs, op.name t r w = some abs ∧
      op.EndsAt w w.host (classify abs op.forWrite op.follow .copyLeaf w).1.hostPath p
  xattr : isXattr sc → (op.forWrite && privilegedXattr (t.cstr r 1)) = false →
    ∀ abs, op.name t r w = some abs →
      (classify abs op.forWrite op.follow .copyLeaf w).1.hostPath = abs →
      let h := (classify abs op.forWrite op.follow .copyLeaf w).2.host
      ∀ p, op.kernelPlace t r h = .ok p → op.EndsAt w h abs p

/-! ## Who lets a string through -/

section Raw

variable {t : Task} {r : Regs} {sc : Sysno} {w : World} {op : Operand}

theorem cstr_of_null {arg : Nat} (h : nullPathArg r arg ∨ emptyCstrArg t r arg) :
    t.cstr r arg = [] := by
  rcases h with h | h
  · have h0 : r.arg arg = 0 := by simpa [nullPathArg] using h
    rw [Task.cstr, h0, GuestMem.readCstr, GuestMem.cstrFrom, t.mem.null]
  · simpa using (Bool.and_eq_true_iff.1 h).2

/-- Only the two kinds of call forward a string that is not empty. -/
theorem serve_raw (hop : op ∈ operands r sc) (hne : t.cstr r op.arg ≠ [])
    (hraw : IsRaw (serve t r sc w).1) :
    sc = .newfstatat ∧ atDirfdUnresolvable w r (t.cstr r 1) ∨ isXattr sc := by
  have one {o : Operand} (h : op ∈ [o]) : t.cstr r o.arg ≠ [] := mem_singleton.1 h ▸ hne
  cases sc
  case newfstatat => exact .inl ⟨rfl, (pathStat_raw t r (one hop) hraw).2⟩
  case stat | lstat => exact absurd (pathStat_raw t r (one hop) hraw).1 (by decide)
  case open_ | openat | creat | openat2 =>
    exact absurd ((pathOpenFlags_ends t r _ _ _).raw w hraw) (one hop)
  case statx => exact absurd ((pathStatx_ends t r).raw w hraw) (one hop)
  case access | faccessat | faccessat2 => exact absurd ((pathAt_ends t r _ _).raw w hraw) (one hop)
  case readlink | readlinkat => exact absurd ((doReadlink_ends t r _ _).raw w hraw) (one hop)
  case utimes | utime | utimensat | futimesat =>
    exact absurd (cstr_of_null ((doUtimes_ends t r _ _ _).raw w hraw)) (one hop)
  case chown | lchown | fchownat => exact absurd ((doChown_ends t r _ _ _ _ _).raw w hraw) (one hop)
  case statfs => exact False.elim ((pathStatfs_ends t r).raw w hraw)
  case chroot => exact False.elim ((doChroot_ends t r).raw w hraw)
  case chdir => exact False.elim ((doChdir_ends t r).raw w hraw)
  case inotifyAddWatch | fanotifyMark => exact False.elim ((pathWatch_ends t r _ _).raw w hraw)
  case mount => exact False.elim ((doMount_ends t r).raw w hraw)
  case umount2 => exact False.elim ((doUmount2_ends t r).raw w hraw)
  case execve | execveat => exact False.elim ((pathExec_ends t r _).raw w hraw)
  case mkdir | mkdirat | mknod | mknodat | rmdir | unlink | unlinkat | truncate =>
    exact False.elim ((pathMut_ends t r _ _ _ _ _ _).raw w hraw)
  case chmod | fchmodat | fchmodat2 => exact False.elim ((doChmod_ends t r _ _ _).raw w hraw)
  case rename | renameat | renameat2 | link | linkat =>
    exact False.elim ((pathMut2_ends t r _ _ _ _ _ _).raw w hraw)
  case symlink | symlinkat => exact False.elim ((pathSymlink_ends t r _ _ _).raw w hraw)
  case getcwd | getdents64 | lseek | fstatfs | fchdir | close | dup | dup2 | dup3 | fcntl | fchmod
    | fchown | bind
    | connect | passed => exact absurd hop not_mem_nil
  all_goals exact .inr rfl

theorem isNoop_from {arg : Nat} {hp abs : Str}
    (h : IsRaw (.redirect { first := .from arg hp abs })) : hp = abs := by
  rcases h with _ | h
  simpa [Redirect.isNoop, PathArg.from] using h

/-- An extended attribute is looked up by the guest's string if the path is its own translation. -/
theorem pathXattr_raw {fw fo at_ : Bool} {arg : Nat}
    (hraw : IsRaw (pathXattr t r fw fo arg at_ w).1) :
    ∃ abs, resolveArg t r arg at_ true w = some abs ∧ (fw && privilegedXattr (t.cstr r 1)) = false ∧
      (classify abs fw fo .copyLeaf w).1.hostPath = abs ∧ abs ≠ [] ∧
      (pathXattr t r fw fo arg at_ w).2.host = (classify abs fw fo .copyLeaf w).2.host := by
  unfold pathXattr at hraw ⊢
  by_cases h0 : emptyPathArg t r arg
  · rw [if_pos h0] at hraw
    cases hraw
  simp only [if_neg h0, withPath, Act.read_bind] at hraw ⊢
  rcases habs : resolveArg t r arg at_ true w with _ | abs
  · rw [habs] at hraw
    cases hraw
  rw [habs] at hraw
  dsimp only at hraw ⊢
  split_ifs at hraw ⊢ with hp
  · cases hraw
  refine ⟨abs, rfl, by simpa using hp, ?_⟩
  rw [Act.bind_apply] at hraw ⊢
  split_ifs at hraw ⊢ with hv he
  · cases hraw
  · cases hraw
  · have hnoop := isNoop_from hraw
    exact ⟨hnoop, fun h => he (hnoop.trans h), rfl⟩

/-- All calls on extended attributes have one handler. -/
theorem serve_xattr (hx : isXattr sc) (hop : op ∈ operands r sc) :
    serve t r sc = pathXattr t r op.forWrite op.follow op.arg op.dir.isSome ∧
      op.name t r w = resolveArg t r op.arg op.dir.isSome true w := by
  cases sc <;> simp only [isXattr, Bool.false_eq_true] at hx <;> obtain rfl :=
    mem_singleton.1 hop <;>
    exact ⟨rfl, rfl⟩

/-- The converse: a path that is its own translation leaves the string alone. -/
theorem pathXattr_own {fw fo at_ : Bool} {arg : Nat} {abs : Str} (hne : t.cstr r arg ≠ [])
    (habs : resolveArg t r arg at_ true w = some abs)
    (hpriv : (fw && privilegedXattr (t.cstr r 1)) = false)
    (hhp : (classify abs fw fo .copyLeaf w).1.hostPath = abs) :
    IsRaw (pathXattr t r fw fo arg at_ w).1 := by
  have hnil := resolveArg_ne_nil habs
  have hback : (classify abs fw fo .copyLeaf w).1.realm = .hostBacked :=
    classify_hostBacked (by rw [hhp]; exact hnil)
  have h0 : ¬emptyPathArg t r arg := by simp [emptyPathArg, hne]
  unfold pathXattr
  simp only [if_neg h0, withPath, Act.read_bind, habs, hpriv, Bool.false_eq_true, if_false]
  rw [Act.bind_apply]
  have hv : (classify abs fw fo .copyLeaf w).1.realm ≠ .virtualFile := by rw [hback]; decide
  split_ifs with hvirtual hempty
  · exact absurd hvirtual hv
  · exact absurd (hhp.symm.trans hempty) hnil
  · refine .noop ?_
    simp [Redirect.isNoop, PathArg.from]
    exact hhp

/-- A `newfstatat` at a descriptor without a record goes to the kernel, and nothing changes. -/
theorem pathStat_unknown {arg : Nat} {fo : Bool} (hne : t.cstr r arg ≠ [])
    (hu : atDirfdUnresolvable w r (t.cstr r arg)) : pathStat t r arg true fo w = (.fwd, w) := by
  unfold pathStat
  simp only [pathSyntax_ne_empty hne, if_false, Act.read_bind, hu, Bool.and_self, if_true]
  rfl

end Raw

/-- Descriptor 7 is the mounted `/srv/root`, and the namespace has no record of it. -/
def strayTask : Task where
  mem := .ofText "../../etc/passwd"
  fd n := if n = 7 then some (.named ["srv", "root"]) else none

def strayRegs : Regs where
  arg n := if n = 0 then 7 else if n = 1 then 1 else 0

end Linuxity.Abi

import Linuxity.Abi.Frame.Look
import Linuxity.Abi.Frame.Change

/-!
# Abi.Frame.Serve — what serving a call leaves alone, and the decisions that no descriptor comes of

Only an open is served with a file of the supervisor's own or may have to wait, and only a
duplication asks for a record to be copied.
-/

namespace Linuxity.Abi

open Posix Wire Kernel Logic World

/-- Making a process the current one changes who it is, and what is recorded for it. -/
theorem setCurrentPid_eq (pid ppid : Int) (w : World) :
    setCurrentPid pid ppid w = { w with
      curPid := (setCurrentPid pid ppid w).curPid, seededPid := (setCurrentPid pid ppid w).seededPid
      lastPid := (setCurrentPid pid ppid w).lastPid, lastCwd := (setCurrentPid pid ppid w).lastCwd
      cwds := (setCurrentPid pid ppid w).cwds
      fdTables := (setCurrentPid pid ppid w).fdTables } := by
  unfold setCurrentPid
  by_cases h : pid = w.seededPid
  · simp only [if_pos h]
  · by_cases hc : (w.cwds pid).isSome
    · simp only [if_neg h, if_pos hc]
    · simp only [if_neg h, if_neg hc]

theorem dirStream_own (fd : Int) : Keeps OwnDirs (dirStream fd) := by
  intro w
  unfold dirStream
  rcases w.fds.dirs fd with _ | ds
  · exact refl_of OwnDirs w
  · dsimp only
    split_ifs
    · exact refl_of OwnDirs w
    · exact .setFds _ _
    · exact .setFds _ _

variable (t : Task) (r : Regs)

theorem doLseek_ends : Ends OwnDirs True Modest (doLseek r) := by
  refine .bind (dirStream_own _) fun ds => ?_
  rcases ds with _ | ds
  · exact .fwd trivial
  · exact .ite (fun _ => .fail _) fun _ => .bind (.modify fun w => .setFds w _) fun _ => .value _

theorem doGetdents64_ends : Ends OwnDirs True Modest (doGetdents64 t r) := by
  refine .bind (dirStream_own _) fun ds => ?_
  rcases ds with _ | ds
  · exact .fwd trivial
  · refine .bind (.modify fun w => .setFds w _) fun _ =>
      .ite (fun _ => .settled ?_) fun _ => .stored _ _ _
    split_ifs <;> exact ⟨_, _⟩

/-- Only the calls that are there for it change a directory, a descriptor or a pending field. -/
inductive Touches : Sysno → Prop
  | open_ : Touches .open_
  | openat : Touches .openat
  | creat : Touches .creat
  | openat2 : Touches .openat2
  | chdir : Touches .chdir
  | fchdir : Touches .fchdir
  | close : Touches .close
  | lseek : Touches .lseek
  | getdents64 : Touches .getdents64

theorem bindPlaceholder_steady (w : World) (g : Str) : Steady w (bindPlaceholder w g) := by
  unfold bindPlaceholder
  have hc : Steady w (classify g true false .parentsOnly w).2 :=
    .of_files (classify_files _ _ _ _ w)
  generalize classify g true false .parentsOnly w = c at hc ⊢
  obtain ⟨pc, w1⟩ := c
  dsimp only at hc ⊢
  split_ifs with hpc
  · have hu : Steady w (w1.unlink pc.hostPath).2 := hc.trans (.sys _ _ _ _ _)
    have hx := hu.trans (createExcl_steady pc.hostPath 0o600 (w1.unlink pc.hostPath).2)
    dsimp only at hx
    generalize (w1.unlink pc.hostPath).2.createExcl pc.hostPath 0o600 = x at hx ⊢
    obtain ⟨_ | _, w2⟩ := x
    · exact hx
    · exact hx.trans rfl
  · exact hc

theorem sockAbstract_steady (w : World) (addr : Nat) (g : Str) (b : Bool) :
    Steady w (sockAbstract w addr g b).2 := by
  have h : Steady w (if b then bindPlaceholder w g else w) := by
    split_ifs
    · exact bindPlaceholder_steady w g
    · rfl
  unfold sockAbstract
  dsimp only
  generalize (if b then bindPlaceholder w g else w) = w1 at h ⊢
  split_ifs <;> exact h

theorem sockFilesystem_steady (w : World) (addr : Nat) (g : Str) (b : Bool) :
    Steady w (sockFilesystem w addr g b).2 := by
  unfold sockFilesystem
  have hc : Steady w (classify g b false (if b then .parentsOnly else .copyLeaf) w).2 :=
    .of_files (classify_files _ _ _ _ w)
  generalize classify g b false (if b then .parentsOnly else .copyLeaf) w = c at hc ⊢
  obtain ⟨pc, w1⟩ := c
  by_cases hv : pc.realm = .virtualFile ∨ pc.hostPath = []
  · simpa only [if_pos hv] using hc
  by_cases hl : sunPathMax < pc.hostPath.length + 1
  · simpa only [if_neg hv, if_pos hl] using hc
  simp only [if_neg hv, if_neg hl]
  rcases b with _ | _
  · exact hc
  · have hu : Steady w (w1.unlink pc.hostPath).2 := hc.trans (.sys _ _ _ _ _)
    simp only [if_true]
    split_ifs
    · exact hu.trans (.sys _ _ _ _ _)
    · exact hu

theorem doSockaddrUn_steady (b : Bool) : Steadies (fun w => doSockaddrUn w t.mem r b) := by
  intro w
  dsimp only
  unfold doSockaddrUn
  rcases sockGuestPath w t.mem r with _ | _ | g
  · rfl
  · rfl
  · dsimp only
    split_ifs
    · rfl
    · rcases w.socketNs with _ | _
      · exact sockFilesystem_steady w _ g b
      · exact sockAbstract_steady w _ g b

/-- The decision has one of the forms that no descriptor comes of. -/
def Modestly (x : Act World Outcome) : Prop := ∀ w, Modest (x w).1

theorem doSockaddrUn_modest (b : Bool) : Modestly fun w => doSockaddrUn w t.mem r b := by
  intro w
  change Modest (doSockaddrUn w t.mem r b).1
  unfold doSockaddrUn
  rcases sockGuestPath w t.mem r with _ | _ | g
  · rfl
  · trivial
  · dsimp only
    split_ifs
    · rfl
    · rcases w.socketNs with _ | _
      · unfold sockFilesystem
        dsimp only
        split_ifs <;> first
          | rfl
          | trivial
      · unfold sockAbstract
        split_ifs <;> first
          | rfl
          | trivial

/-- Duplications apart, what is served with the descriptors as they are gives none either. -/
theorem serve_ends {sc : Sysno} (h : ¬Touches sc) (hdup : sc ∉ [.dup, .dup2, .dup3, .fcntl]) :
    Ends Steady True Modest (serve t r sc) := by
  cases sc with
  | open_ => exact absurd .open_ h
  | openat => exact absurd .openat h
  | creat => exact absurd .creat h
  | openat2 => exact absurd .openat2 h
  | chdir => exact absurd .chdir h
  | fchdir => exact absurd .fchdir h
  | close => exact absurd .close h
  | lseek => exact absurd .lseek h
  | getdents64 => exact absurd .getdents64 h
  | dup | dup2 | dup3 | fcntl => exact absurd (by decide) hdup
  | stat | lstat | newfstatat => exact pathStat_ends t r _ _ _
  | statx => exact (pathStatx_ends t r).any
  | access | faccessat | faccessat2 => exact (pathAt_ends t r _ _).any
  | readlink | readlinkat => exact (doReadlink_ends t r _ _).any
  | getcwd => exact doGetcwd_ends t r
  | statfs => exact pathStatfs_ends t r
  | fstatfs =>
    refine .bind (.read _) fun f => .pure (fun _ => trivial) ?_
    split_ifs
    · exact (Settled.stored _ _ _).modest
    · rfl
  | chroot => exact doChroot_ends t r
  | getxattr | listxattr | lgetxattr | llistxattr | setxattr | removexattr | lsetxattr
  | lremovexattr
  | getxattrat | listxattrat | setxattrat | removexattrat => exact pathXattr_ends t r _ _ _ _
  | inotifyAddWatch | fanotifyMark => exact pathWatch_ends t r _ _
  | mount => exact doMount_ends t r
  | umount2 => exact doUmount2_ends t r
  | execve | execveat => exact pathExec_ends t r _
  | passed => exact .fwd trivial
  | mkdir | mkdirat | mknod | mknodat | rmdir | unlink | unlinkat | truncate =>
    exact pathMut_ends t r _ _ _ _ _ _
  | utimes | utime | utimensat | futimesat => exact (doUtimes_ends t r _ _ _).any
  | chmod => exact doChmod_ends t r 0 false false
  | fchmodat => exact doChmod_ends t r 1 true false
  | fchmodat2 => exact doChmod_ends t r 1 true true
  | fchmod => exact doFchmod_ends t r
  | chown => exact (doChown_ends t r 0 1 2 false true).any
  | lchown => exact (doChown_ends t r 0 1 2 false false).any
  | fchownat => exact (doChown_ends t r 1 2 3 true _).any
  | fchown => exact doFchown_ends r
  | rename | renameat | renameat2 | link | linkat => exact pathMut2_ends t r _ _ _ _ _ _
  | symlink | symlinkat => exact pathSymlink_ends t r _ _ _
  | bind | connect =>
    exact ⟨doSockaddrUn_steady t r _, fun _ _ => trivial, doSockaddrUn_modest t r _⟩

theorem serve_steady {sc : Sysno} (h : ¬Touches sc) : Steadies (serve t r sc) := by
  by_cases hdup : sc ∈ [.dup, .dup2, .dup3, .fcntl]
  · simp only [List.mem_cons, List.not_mem_nil, or_false] at hdup
    rcases hdup with rfl | rfl | rfl | rfl <;> exact .pure _
  · exact (serve_ends t r h hdup).keeps

theorem serve_own (sc : Sysno) : Keeps OwnDirs (serve t r sc) := by
  by_cases h : Touches sc
  · cases h with
    | open_ | openat | creat | openat2 =>
      exact (pathOpenFlags_ends t r _ _ _).keeps.mono fun _ _ => Opening.ownDirs
    | chdir => exact (doChdir_ends (F := True) t r).keeps.mono fun _ _ => Moving.ownDirs
    | fchdir => exact (doFchdir_ends r).keeps.mono fun _ _ => Moving.ownDirs
    | close => exact .bind (.modify fun w => .setFds w _) fun _ => .pure _
    | lseek => exact (doLseek_ends r).keeps
    | getdents64 => exact (doGetdents64_ends t r).keeps
  · exact (serve_steady t r h).mono fun _ _ => Lax.steady

/-- Only opens and duplications give a descriptor. -/
theorem serve_modest {sc : Sysno} (hopen : sc ∉ [.open_, .openat, .creat, .openat2])
    (hdup : sc ∉ [.dup, .dup2, .dup3]) (hfcntl : sc = .fcntl → doFcntl r = .fwd) :
    Modestly (serve t r sc) := by
  by_cases h : Touches sc
  · cases h with
    | open_ | openat | creat | openat2 => exact absurd (by decide) hopen
    | chdir => exact (doChdir_ends (F := True) t r).decides
    | fchdir => exact (doFchdir_ends r).decides
    | close => exact fun _ => rfl
    | lseek => exact (doLseek_ends r).decides
    | getdents64 => exact (doGetdents64_ends t r).decides
  · by_cases hf : sc = .fcntl
    · subst hf
      show ∀ w : World, Modest (doFcntl r)
      rw [hfcntl rfl]
      exact fun _ => rfl
    · exact (serve_ends t r h (by simpa [hf] using hdup)).decides

end Linuxity.Abi

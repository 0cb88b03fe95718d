import Linuxity.Logic.Slots
import Linuxity.Whp.Paths

/-!
# Whp.PathCalls — the calls that name a file on a Windows host (`runtime/windows/sys.hpp`, `fd.hpp`)

A descriptor remembers the guest path it was opened with; a duplicate does not.  The string
reader answers what it could read, and the empty path stands for the guest's directory.  The host
is any file system that answers the Win32 calls.
-/

namespace Linuxity.Whp

open Logic Posix Wire List

/-! ## Strings of the guest -/

structure GuestBytes where
  /-- What the guest may read. -/
  byte : ℕ → Option Char
  /-- Whether the answer to a `stat` can be stored. -/
  canPut : ℕ → Bool

def nulByte : Char := '\x00'

namespace GuestBytes

def cstrFrom (mem : GuestBytes) : ℕ → ℕ → Str
  | 0, _ => []
  | n + 1, a =>
    match mem.byte a with
    | none => []
    | some c => if c = nulByte then [] else c :: mem.cstrFrom n ((a + 1) % 2 ^ 64)

def cstr (mem : GuestBytes) (gva : ℕ) : Str := mem.cstrFrom 4096 gva

/-- A byte in front of the terminator cannot be read. -/
def faultsFrom (mem : GuestBytes) : ℕ → ℕ → Bool
  | 0, _ => false
  | n + 1, a =>
    match mem.byte a with
    | none => true
    | some c => if c = nulByte then false else mem.faultsFrom n ((a + 1) % 2 ^ 64)

def faults (mem : GuestBytes) (gva : ℕ) : Bool := mem.faultsFrom 4096 gva

/-- The pointer is unreadable or the path is empty. -/
def Bad (mem : GuestBytes) (gva : ℕ) : Prop := mem.cstr gva = [] ∨ mem.faults gva

end GuestBytes

/-! ## The host and the table -/

/-- The Win32 calls; a call that fails gives an errno and changes nothing. -/
structure Win32 (σ : Type) where
  /-- `CreateFileW`, with the guest's flags translated. -/
  createFile : σ → Str → ℕ → Except ℕ (ℕ × σ)
  /-- `CreateFileW` once more, for a directory that is there. -/
  openDirectory : σ → Str → Except ℕ ℕ
  /-- `GetFileAttributesW`: whether it is a directory. -/
  attributes : σ → Str → Option Bool
  /-- `GetFileInformationByHandle`: whether it is a directory. -/
  information : σ → ℕ → Except ℕ Bool
  /-- `GetFileAttributesExW`. -/
  stat : σ → Str → Except ℕ Unit
  createDirectory : σ → Str → Except ℕ σ
  removeDirectory : σ → Str → Except ℕ σ
  deleteFile : σ → Str → Except ℕ σ
  moveFile : σ → Str → Str → Except ℕ σ

structure Slot where
  /-- The handle, shared with the duplicates. -/
  file : Option ℕ := none
  cloexec : Bool := false
  append : Bool := false
  isTty : Bool := false
  path : Str := []
  deriving DecidableEq

def kMaxFds : ℕ := 1024

abbrev FdTable := List Slot

namespace FdTable

variable (t : FdTable)

/-- The open slot of guest fd `int(a)`. -/
def host (a : UInt64) : Option Slot :=
  if a.toNat % 2 ^ 32 < 2 ^ 31 then (t[a.toNat % 2 ^ 32]?).filter (·.file.isSome) else none

def path (a : UInt64) : Str := ((t.host a).map (·.path)).getD []

def isFree (s : Slot) : Bool := s.file.isNone

def install (s : Slot) : Except ℕ (ℕ × FdTable) :=
  match addSlot isFree kMaxFds t s with
  | some placed => .ok placed
  | none => .error 24

/-- No place is free and none can be added. -/
def Full : Prop := room isFree kMaxFds t = 0

theorem install_cases (s : Slot) :
    t.Full ∧ t.install s = .error 24 ∨ ¬t.Full ∧ ∃ g t', t.install s = .ok (g, t') := by
  unfold Full install
  rw [← addSlot_eq_none_iff]
  rcases addSlot isFree kMaxFds t s with _ | ⟨g, t'⟩
  · exact .inl ⟨rfl, rfl⟩
  · exact .inr ⟨nofun, g, t', rfl⟩

/-- `dup(g)`: the handle and two flags, not the path. -/
def dup (a : UInt64) (cloexec : Bool) : Except ℕ (ℕ × FdTable) :=
  match t.host a with
  | none => .error 9
  | some s => t.install { file := s.file, cloexec := cloexec, append := s.append, isTty := s.isTty }

end FdTable

structure Sys (σ : Type) where
  root : Str
  cwd : Str
  fds : FdTable
  host : σ

/-! ## The calls -/

/-- The answer, what is left, and every path that `host_path` was asked for. -/
structure Reply (σ : Type) where
  ret : Except ℕ ℕ
  sys : Sys σ
  named : List Str

/-- `openat` and `newfstatat`: a relative path is appended to the path of the descriptor. -/
def atPath (t : FdTable) (dirfd : UInt64) (gp : Str) : Str :=
  if gp ≠ [] ∧ isAbs gp = false ∧ dirfd.toNat < 2 ^ 63 then
    if t.path dirfd ≠ [] then t.path dirfd ++ '/' :: gp else gp
  else gp

def oDirectory : ℕ := 0o200000

def oAppend : ℕ := 0o2000

def oCloexec : ℕ := 0o2000000

def openedSlot (h flags : ℕ) (path : Str) : Slot :=
  { file := some h, cloexec := flags &&& oCloexec ≠ 0, append := flags &&& oAppend ≠ 0,
    path := path }

inductive Call where
  | openFile (path flags : ℕ)
  | openat (dirfd : UInt64) (path flags : ℕ)
  | newfstatat (dirfd : UInt64) (path out : ℕ)
  | faccessat (dirfd : UInt64) (path : ℕ)
  | chdir (path : ℕ)
  | mkdir (path : ℕ)
  | rmdir (path : ℕ)
  | unlink (path : ℕ)
  | unlinkat (dirfd : UInt64) (path flags : ℕ)
  | rename (src dst : ℕ)

section Service

variable {σ : Type} (os : Win32 σ) (u : Utf8) (mem : GuestBytes) (s : Sys σ)

/-- The path handed to the host. -/
def winPath (gp : Str) : Str := toWinPath u (hostPath s.root s.cwd gp)

/-- `do_open` up to the place in the table: a handle, and the files as they are then. -/
def openHandle (w : Str) (flags : ℕ) : Except ℕ ℕ × σ :=
  let opened : Except ℕ (ℕ × σ) :=
    match os.createFile s.host w flags with
    | .ok hs => .ok hs
    | .error e =>
      if os.attributes s.host w = some true then (os.openDirectory s.host w).map (·, s.host)
      else .error e
  match opened with
  | .error e => (.error e, s.host)
  | .ok (h, host) =>
    match os.information host h with
    | .ok false => if flags &&& oDirectory ≠ 0 then (.error 20, host) else (.ok h, host)
    | _ => (.ok h, host)

def doOpen (gp : Str) (flags : ℕ) : Reply σ :=
  let w := winPath u s gp
  let named := [hostPath s.root s.cwd gp]
  match openHandle os s w flags with
  | (.error e, host) => ⟨.error e, { s with host := host }, named⟩
  | (.ok h, host) =>
    match s.fds.install (openedSlot h flags (absolutizePath gp s.cwd)) with
    | .error e => ⟨.error e, { s with host := host }, named⟩
    | .ok (g, fds) => ⟨.ok g, { s with host := host, fds := fds }, named⟩

/-- A call that changes the files, or fails. -/
def change (r : Except ℕ σ) (named : List Str) : Reply σ :=
  match r with
  | .ok host => ⟨.ok 0, { s with host := host }, named⟩
  | .error e => ⟨.error e, s, named⟩

def statPath (gp : Str) (out : ℕ) : Reply σ :=
  match os.stat s.host (winPath u s gp) with
  | .error e => ⟨.error e, s, [hostPath s.root s.cwd gp]⟩
  | .ok () => ⟨if mem.canPut out then .ok 0 else .error 14, s, [hostPath s.root s.cwd gp]⟩

def doChdir (gp : Str) : Reply σ :=
  match os.attributes s.host (winPath u s gp) with
  | none => ⟨.error 2, s, [hostPath s.root s.cwd gp]⟩
  | some false => ⟨.error 20, s, [hostPath s.root s.cwd gp]⟩
  | some true => ⟨.ok 0, { s with cwd := absolutizePath gp s.cwd }, [hostPath s.root s.cwd gp]⟩

def service : Call → Reply σ
  | .openFile path flags =>
    let gp := mem.cstr path
    if gp = [] then ⟨.error 14, s, []⟩ else doOpen os u s gp flags
  | .openat dirfd path flags =>
    let gp := mem.cstr path
    if gp = [] then ⟨.error 14, s, []⟩ else doOpen os u s (atPath s.fds dirfd gp) flags
  | .newfstatat dirfd path out =>
    let gp := mem.cstr path
    if gp = [] ∧ dirfd.toNat < 2 ^ 63 then
      match (s.fds.host dirfd).bind (·.file) with
      | none => ⟨.error 9, s, []⟩
      | some h =>
        match os.information s.host h with
        | .error e => ⟨.error e, s, []⟩
        | .ok _ => ⟨if mem.canPut out then .ok 0 else .error 14, s, []⟩
    else statPath os u mem s (atPath s.fds dirfd gp) out
  | .faccessat _ path =>
    let gp := mem.cstr path
    ⟨if (os.attributes s.host (winPath u s gp)).isSome then .ok 0 else .error 2, s,
      [hostPath s.root s.cwd gp]⟩
  | .chdir path => doChdir os u s (mem.cstr path)
  | .mkdir path =>
    let gp := mem.cstr path
    change s (os.createDirectory s.host (winPath u s gp)) [hostPath s.root s.cwd gp]
  | .rmdir path =>
    let gp := mem.cstr path
    change s (os.removeDirectory s.host (winPath u s gp)) [hostPath s.root s.cwd gp]
  | .unlink path =>
    let gp := mem.cstr path
    change s (os.deleteFile s.host (winPath u s gp)) [hostPath s.root s.cwd gp]
  | .unlinkat _ path flags =>
    let gp := mem.cstr path
    if flags &&& 0x200 ≠ 0 then
      change s (os.removeDirectory s.host (winPath u s gp)) [hostPath s.root s.cwd gp]
    else change s (os.deleteFile s.host (winPath u s gp)) [hostPath s.root s.cwd gp]
  | .rename src dst =>
    change s (os.moveFile s.host (winPath u s (mem.cstr src)) (winPath u s (mem.cstr dst)))
      [hostPath s.root s.cwd (mem.cstr src), hostPath s.root s.cwd (mem.cstr dst)]

end Service

/-! ## What the calls should do -/

/-- The descriptor and the path of a call relative to a descriptor. -/
def Call.relative : Call → Option (UInt64 × ℕ)
  | .openat dirfd path _ | .newfstatat dirfd path _ | .faccessat dirfd path
  | .unlinkat dirfd path _ => some (dirfd, path)
  | _ => none

/-- The paths of a call that may change a file or the current directory. -/
def Call.changing : Call → List ℕ
  | .openFile path _ | .openat _ path _ | .chdir path | .mkdir path | .rmdir path | .unlink path
  | .unlinkat _ path _ => [path]
  | .rename src dst => [src, dst]
  | _ => []

section Law

variable {σ : Type} (os : Win32 σ) (u : Utf8) (mem : GuestBytes) (place : ℕ → Str) (s : Sys σ)

/-- A relative path is taken from the directory that is open; `place` is where each handle's
directory is. -/
def Resolves (c : Call) : Prop :=
  ∀ dirfd path, c.relative = some (dirfd, path) → mem.cstr path ≠ [] →
    isAbs (mem.cstr path) = false → mem.faults path = false →
    ∀ slot h, s.fds.host dirfd = some slot → slot.file = some h →
    ∀ n ∈ (service os u mem s c).named, n = hostPath s.root (place h) (mem.cstr path)

/-- A call without a path fails and changes nothing. -/
def Refuses (c : Call) : Prop :=
  (∃ path ∈ c.changing, mem.Bad path) → (∃ e, (service os u mem s c).ret = .error e) ∧
    (service os u mem s c).sys.host = s.host ∧ (service os u mem s c).sys.cwd = s.cwd

/-! ## When they do -/

/-- The names of a directory. -/
def dirNames (d : Str) : List Str := (comps d).foldl normalizeStep []

/-- What a relative path leaves of the directory it starts in. -/
def leaves (dirs : List Str) (p : Str) : List Str :=
  dirs.take (dirs.length - (net dot dotdot (comps p)).1)

/-- The directory that the call starts in. -/
def startDir (dirfd : UInt64) : Call → List Str
  | .openat _ _ _ | .newfstatat _ _ _ =>
    if dirfd.toNat < 2 ^ 63 ∧ s.fds.path dirfd ≠ [] then hostParts s.cwd (s.fds.path dirfd)
    else dirNames s.cwd
  | _ => dirNames s.cwd

/-- The recorded directory, or the guest's, and the one that is open differ only in what the path
climbs out of. -/
def Recorded (c : Call) : Prop :=
  ∀ dirfd path, c.relative = some (dirfd, path) → mem.cstr path ≠ [] →
    isAbs (mem.cstr path) = false → mem.faults path = false →
    ∀ slot h, s.fds.host dirfd = some slot → slot.file = some h →
    leaves (startDir s dirfd c) (mem.cstr path) = leaves (dirNames (place h)) (mem.cstr path)

/-- The host has nothing to open under this name, or the table is full and nothing was made. -/
def NothingOpened (gp : Str) (flags : ℕ) : Prop :=
  ((∃ e, (openHandle os s (winPath u s gp) flags).1 = .error e) ∨ s.fds.Full) ∧
  (openHandle os s (winPath u s gp) flags).2 = s.host

/-- Without a path the host refuses the call on the guest's directory, or on the piece of the path
that could be read. -/
def HostRefuses : Call → Prop
  | .openFile path flags => mem.cstr path = [] ∨ NothingOpened os u s (mem.cstr path) flags
  | .openat dirfd path flags =>
    mem.cstr path = [] ∨ NothingOpened os u s (atPath s.fds dirfd (mem.cstr path)) flags
  | .chdir path => os.attributes s.host (winPath u s (mem.cstr path)) ≠ some true
  | .mkdir path => ∃ e, os.createDirectory s.host (winPath u s (mem.cstr path)) = .error e
  | .rmdir path => ∃ e, os.removeDirectory s.host (winPath u s (mem.cstr path)) = .error e
  | .unlink path => ∃ e, os.deleteFile s.host (winPath u s (mem.cstr path)) = .error e
  | .unlinkat _ path flags =>
    if flags &&& 0x200 ≠ 0 then
      ∃ e, os.removeDirectory s.host (winPath u s (mem.cstr path)) = .error e
    else ∃ e, os.deleteFile s.host (winPath u s (mem.cstr path)) = .error e
  | .rename src dst =>
    ∃ e, os.moveFile s.host (winPath u s (mem.cstr src)) (winPath u s (mem.cstr dst)) = .error e
  | _ => True

end Law

/-! ## Names -/

theorem normalizeStep_eq (out : List Str) (c : Str) :
    normalizeStep out c = collapseStep dot dotdot 0 out c := by
  unfold normalizeStep collapseStep
  split_ifs with hdot hup hlen
  · rfl
  · rfl
  · rw [length_eq_zero_iff.1 (Nat.eq_zero_of_not_pos hlen)]
    rfl
  · rfl

theorem foldl_normalizeStep_eq (dirs : List Str) (p : Str) :
    (comps p).foldl normalizeStep dirs = leaves dirs p ++ (net dot dotdot (comps p)).2 := by
  have h : collapse dot dotdot 0 dirs (comps p) = _ := collapse_eq (Nat.zero_le _) (comps p)
  rw [Nat.zero_max] at h
  rw [leaves, ← h, collapse]
  congr 1
  funext out c
  exact normalizeStep_eq out c

theorem hostParts_relative {cwd p : Str} (hne : p ≠ []) (hrel : isAbs p = false) :
    hostParts cwd p = (comps p).foldl normalizeStep (dirNames cwd) := by
  simp only [hostParts, if_neg hne, hrel, Bool.false_eq_true, if_false]
  have hcomps :
      comps (if cwd = ['/'] then '/' :: p else cwd ++ '/' :: p) = comps cwd ++ comps p := by
    split_ifs with hroot
    · rw [hroot]
      simp
    · exact comps_append_slash cwd p
  rw [hcomps, foldl_append]
  rfl

theorem hostParts_join {cwd base p : Str} (hne : base ≠ []) :
    hostParts cwd (base ++ '/' :: p) = (comps p).foldl normalizeStep (hostParts cwd base) := by
  have habs : isAbs (base ++ '/' :: p) = isAbs base := by
    rcases base with _ | ⟨c, base⟩
    · exact absurd rfl hne
    · rfl
  have hlong : base ++ '/' :: p ≠ [] := append_ne_nil_of_left_ne_nil hne _
  simp only [hostParts, if_neg hne, if_neg hlong, habs, ← foldl_append]
  congr 1
  split_ifs
  · exact comps_append_slash base p
  · rw [comps_slash, comps_slash]
    exact comps_append_slash base p
  · rw [comps_append_slash, comps_append_slash, comps_append_slash, append_assoc]

theorem isName_hostParts (cwd p : Str) : ∀ c ∈ hostParts cwd p, IsName c :=
  isName_of_mem_foldl (fun _ hc => ⟨ne_nil_of_mem_comps hc, noSlash_of_mem_comps hc⟩) (by simp)

theorem hostPath_inj {root cwd cwd' p p' : Str} :
    hostPath root cwd p = hostPath root cwd' p' ↔ hostParts cwd p = hostParts cwd' p' := by
  have hcomps : ∀ cwd p,
      comps (if hostParts cwd p = [] ∧ root = [] then ['/'] else root ++ render (hostParts cwd p)) =
      comps root ++ hostParts cwd p := by
    intro cwd p
    split_ifs with hnil
    · rw [hnil.1, hnil.2]
      rfl
    · exact comps_append_render root fun c hc =>
        ⟨(isName_hostParts cwd p c hc).1, (isName_hostParts cwd p c hc).2.1⟩
  constructor
  · intro h
    have hc := congrArg comps h
    rw [hostPath, hostPath, hcomps, hcomps] at hc
    exact append_cancel_left hc
  · intro h
    rw [hostPath, hostPath, h]

section Replies

variable {σ : Type} {os : Win32 σ} {u : Utf8} {mem : GuestBytes} {place : ℕ → Str} {s : Sys σ}

theorem named_doOpen (gp : Str) (flags : ℕ) :
    (doOpen os u s gp flags).named = [hostPath s.root s.cwd gp] := by
  dsimp only [doOpen]
  rcases openHandle os s (winPath u s gp) flags with ⟨_ | h, host⟩
  · rfl
  · dsimp only
    split <;> rfl

theorem named_change (r : Except ℕ σ) (named : List Str) : (change s r named).named = named := by
  cases r <;> rfl

/-- The names of the path of `openat` and `newfstatat`. -/
theorem hostParts_atPath {dirfd : UInt64} {gp : Str} (hne : gp ≠ []) (hrel : isAbs gp = false) :
    hostParts s.cwd (atPath s.fds dirfd gp) =
      (comps gp).foldl normalizeStep
      (if dirfd.toNat < 2 ^ 63 ∧ s.fds.path dirfd ≠ [] then hostParts s.cwd (s.fds.path dirfd)
        else dirNames s.cwd) := by
  unfold atPath
  by_cases hpos : dirfd.toNat < 2 ^ 63
  · rw [if_pos ⟨hne, hrel, hpos⟩]
    by_cases hrec : s.fds.path dirfd ≠ []
    · rw [if_pos hrec, if_pos ⟨hpos, hrec⟩]
      exact hostParts_join hrec
    · rw [if_neg hrec, if_neg fun h => hrec h.2]
      exact hostParts_relative hne hrel
  · rw [if_neg fun h => hpos h.2.2, if_neg fun h => hpos h.1]
    exact hostParts_relative hne hrel

/-- A call relative to a descriptor names one path, and starts in `startDir`. -/
theorem named_relative {c : Call} {dirfd : UInt64} {path : ℕ} (hc : c.relative = some (dirfd, path))
    (hne : mem.cstr path ≠ []) (hrel : isAbs (mem.cstr path) = false) :
    ∃ gp, (service os u mem s c).named = [hostPath s.root s.cwd gp] ∧
      hostParts s.cwd gp = (comps (mem.cstr path)).foldl normalizeStep (startDir s dirfd c) := by
  cases c with
  | openat fd ptr flags =>
    cases hc
    exact ⟨_, by rw [service, if_neg hne, named_doOpen], hostParts_atPath hne hrel⟩
  | newfstatat fd ptr out =>
    cases hc
    refine ⟨_, ?_, hostParts_atPath hne hrel⟩
    rw [service, if_neg fun h => hne h.1, statPath]
    split <;> rfl
  | faccessat fd ptr =>
    cases hc
    exact ⟨_, rfl, hostParts_relative hne hrel⟩
  | unlinkat fd ptr flags =>
    cases hc
    refine ⟨mem.cstr path, ?_, hostParts_relative hne hrel⟩
    simp only [service]
    split_ifs
    · exact named_change _ _
    · exact named_change _ _
  | openFile | chdir | mkdir | rmdir | unlink | rename => cases hc

theorem resolves_iff {c : Call} : Resolves os u mem place s c ↔ Recorded mem place s c := by
  refine forall_congr' fun dirfd => forall_congr' fun path =>
      forall_congr' fun hc => forall_congr' fun hne =>
    forall_congr' fun hrel => forall_congr' fun _ =>
        forall_congr' fun slot => forall_congr' fun h =>
      forall_congr' fun _ => forall_congr' fun _ => ?_
  obtain ⟨gp, hnamed, hparts⟩ := @named_relative σ os u mem s c dirfd path hc hne hrel
  rw [hnamed]
  calc (∀ n ∈ [hostPath s.root s.cwd gp], n = hostPath s.root (place h) (mem.cstr path))
      ↔ hostPath s.root s.cwd gp = hostPath s.root (place h) (mem.cstr path) := forall_mem_singleton
    _ ↔ hostParts s.cwd gp = hostParts (place h) (mem.cstr path) := hostPath_inj
    _ ↔ leaves (startDir s dirfd c) (mem.cstr path) =
          leaves (dirNames (place h)) (mem.cstr path) := by
      rw [hparts, hostParts_relative hne hrel, foldl_normalizeStep_eq, foldl_normalizeStep_eq]
      exact append_left_inj _

/-! ## Calls without a path -/

theorem change_refuses_iff (r : Except ℕ σ) (named : List Str) :
    ((∃ e, (change s r named).ret = .error e) ∧ (change s r named).sys.host = s.host ∧
        (change s r named).sys.cwd = s.cwd) ↔ ∃ e, r = .error e := by
  cases r with
  | ok host => exact iff_of_false (fun h => nomatch h.1) (fun h => nomatch h)
  | error e => exact iff_of_true ⟨⟨e, rfl⟩, rfl, rfl⟩ ⟨e, rfl⟩

theorem chdir_refuses_iff (gp : Str) :
    ((∃ e, (doChdir os u s gp).ret = .error e) ∧ (doChdir os u s gp).sys.host = s.host ∧
        (doChdir os u s gp).sys.cwd = s.cwd) ↔
      os.attributes s.host (winPath u s gp) ≠ some true := by
  unfold doChdir
  rcases os.attributes s.host (winPath u s gp) with _ | _ | _
  · exact iff_of_true ⟨⟨2, rfl⟩, rfl, rfl⟩ nofun
  · exact iff_of_true ⟨⟨20, rfl⟩, rfl, rfl⟩ nofun
  · exact iff_of_false (fun h => nomatch h.1) fun h => h rfl

theorem open_refuses_iff (gp : Str) (flags : ℕ) :
    ((∃ e, (doOpen os u s gp flags).ret = .error e) ∧ (doOpen os u s gp flags).sys.host = s.host ∧
      (doOpen os u s gp flags).sys.cwd = s.cwd) ↔ NothingOpened os u s gp flags := by
  dsimp only [doOpen, NothingOpened]
  rcases openHandle os s (winPath u s gp) flags with ⟨e | h, host⟩
  · exact ⟨fun hr => ⟨.inl ⟨e, rfl⟩, hr.2.1⟩, fun hn => ⟨⟨e, rfl⟩, hn.2, rfl⟩⟩
  · obtain ⟨hfull, hi⟩ | ⟨hfull, g, fds, hi⟩ :=
      s.fds.install_cases (openedSlot h flags (absolutizePath gp s.cwd))
    · simp only [hi]
      exact ⟨fun hr => ⟨.inr hfull, hr.2.1⟩, fun hn => ⟨⟨24, rfl⟩, hn.2, trivial⟩⟩
    · simp only [hi]
      refine iff_of_false (fun hr => nomatch hr.1) fun hn => ?_
      obtain ⟨e, he⟩ | h := hn.1
      · cases he
      · exact hfull h

theorem refuses_iff {c : Call} :
    Refuses os u mem s c ↔ ((∃ path ∈ c.changing, mem.Bad path) → HostRefuses os u mem s c) := by
  refine forall_congr' fun hbad => ?_
  have hopen : ∀ (gp : Str) (r : Reply σ) (P : Prop),
      (((∃ e, r.ret = .error e) ∧ r.sys.host = s.host ∧ r.sys.cwd = s.cwd) ↔ P) →
      (((∃ e, (if gp = [] then ⟨.error 14, s, []⟩ else r : Reply σ).ret = .error e) ∧
        (if gp = [] then ⟨.error 14, s, []⟩ else r : Reply σ).sys.host = s.host ∧
        (if gp = [] then ⟨.error 14, s, []⟩ else r : Reply σ).sys.cwd = s.cwd) ↔ gp = [] ∨ P) := by
    intro gp r P hr
    split_ifs with hgp
    · exact iff_of_true ⟨⟨14, rfl⟩, rfl, rfl⟩ (.inl hgp)
    · rw [hr, or_iff_right hgp]
  cases c with
  | openFile | openat => exact hopen _ _ _ (open_refuses_iff _ _)
  | newfstatat | faccessat =>
    obtain ⟨path, hmem, -⟩ := hbad
    cases hmem
  | chdir path => exact chdir_refuses_iff _
  | mkdir | rmdir | unlink => exact change_refuses_iff _ _
  | unlinkat dirfd path flags =>
    simp only [service, HostRefuses]
    split_ifs
    · exact change_refuses_iff _ _
    · exact change_refuses_iff _ _
  | rename src dst => exact change_refuses_iff _ _

end Replies

/-- A host where every directory is there. -/
def anyHost : Win32 Unit where
  createFile _ _ _ := .ok (7, ())
  openDirectory _ _ := .ok 7
  attributes _ _ := some true
  information _ _ := .ok true
  stat _ _ := .ok ()
  createDirectory _ _ := .error 17
  removeDirectory _ _ := .ok ()
  deleteFile _ _ := .error 13
  moveFile _ _ _ := .ok ()

/-- `"/d"` at 16, `"x"` at 32 and the empty string at 48. -/
def threeStrings : GuestBytes where
  byte a :=
    ([(16, '/'), (17, 'd'), (18, nulByte), (32, 'x'), (33, nulByte), (48, nulByte)] :
      List (ℕ × Char)).lookup a
  canPut _ := true

/-- `/d` is open as descriptor 0, and descriptor 1 is its duplicate. -/
def duplicated : Sys Unit :=
  let s : Sys Unit := { root := "C:/r", cwd := "/", fds := [], host := () }
  let fds := (service anyHost .plain threeStrings s (.openFile 16 oDirectory)).sys.fds
  { s with fds := match fds.dup 0 false with
      | .ok (_, fds) => fds
      | .error _ => fds }

end Linuxity.Whp

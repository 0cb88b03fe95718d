import Linuxity.Abi.Dispatch
import Linuxity.Wire.Bytes
import Mathlib.Data.List.Perm.Subperm

/-!
# Runtime.Parked — a fork into a fresh process (`kernel/file_namespace.hpp`)

Where a fork is a new host process, the parent writes its directory and its descriptors as bytes,
and the child reads them before it knows its own number.  They are parked, and the first process
that makes a call is to adopt them.
-/

namespace Linuxity.Runtime

open Posix Wire Kernel Abi Function List

/-! ## The bytes -/

/-- A string behind its length. -/
def putStr (s : Str) : Str := le 4 s.length ++ s

/-- An `int`, as four bytes. -/
def putInt (n : Int) : Str := le 4 (n % 2 ^ 32).toNat

/-- `export_process_state`, with the descriptors in the order of the table. -/
def exportProcessState (cwd : Str) (paths : List (Int × Str)) : Str :=
  putStr cwd ++ le 4 paths.length ++ paths.flatMap fun p => putInt p.1 ++ putStr p.2

/-- Zero, where there are no four bytes. -/
def getU32 (rest : Str) : Nat × Str :=
  (if 4 ≤ rest.length then unle (rest.take 4) else 0, rest.drop 4)

def getStr (rest : Str) : Str × Str :=
  let (n, rest) := getU32 rest
  (rest.take n, rest.drop n)

/-- `paths[fd] = path`. -/
def bindPath (paths : Int → Option Str) (p : Int × Str) : Int → Option Str :=
  update paths p.1 (some p.2)

/-- The loop over the descriptors. -/
def getPaths : Nat → Str → (Int → Option Str) → Int → Option Str
  | 0, _, paths => paths
  | n + 1, rest, paths =>
    if rest = [] then paths
    else
      let (s, rest') := getStr (rest.drop 4)
      getPaths n rest' (bindPath paths (int32 (unle (rest.take 4)), s))

/-! ## The namespace of a process that may have been forked -/

/-- The state of the supervisor, with what `import_process_state` has parked. -/
structure Namespace where
  world : World
  inheritedCwd : Str := slash
  inheritedFds : FdTable := {}
  haveInheritedFds : Bool := false

namespace Namespace

/-- `import_process_state`. -/
def importProcessState (bytes : Str) (n : Namespace) : Namespace :=
  let (cwd, rest) := getStr bytes
  let (count, rest) := getU32 rest
  { world := { n.world with cwds := fun _ => none, seededPid := 0, fdTables := fun _ => none }
    inheritedCwd := normalizePath cwd
    inheritedFds := { paths := getPaths count rest fun _ => none }
    haveInheritedFds := true }

/-- `set_current_pid`: a process that is seen first gets what is parked, if there is something. -/
def setCurrentPid (pid ppid : Int) (n : Namespace) : Namespace :=
  let w := { n.world with curPid := pid }
  if pid = w.seededPid then { n with world := w }
  else
    let n :=
      if (w.cwds pid).isSome then { n with world := w }
      else
        let cwds := update w.cwds pid (some ((w.cwds ppid).getD w.lastCwd))
        let parent := if (w.cwds ppid).isSome then ppid else w.lastPid
        if n.haveInheritedFds then
          { n with
            world :=
              { w with cwds := cwds, fdTables := update w.fdTables pid (some n.inheritedFds) }
            inheritedFds := {}
            haveInheritedFds := false }
        else
          { n with
            world := { w with
              cwds := cwds
              fdTables := match w.fdTables parent with
                | none => w.fdTables
                | some t => update w.fdTables pid (some t) } }
    let w := n.world
    { n with world := { w with
        seededPid := pid, lastPid := pid
        lastCwd := if w.cwdOf pid = [] then w.lastCwd else w.cwdOf pid } }

/-- Without parked state, it is what the dispatcher does. -/
theorem setCurrentPid_of_not_parked {n : Namespace} (h : n.haveInheritedFds = false)
    (pid ppid : Int) :
    n.setCurrentPid pid ppid = { n with world := Abi.setCurrentPid pid ppid n.world } := by
  unfold setCurrentPid Abi.setCurrentPid
  dsimp only
  by_cases hs : pid = n.world.seededPid
  · rw [if_pos hs, if_pos hs]
  · rw [if_neg hs, if_neg hs]
    by_cases hc : (n.world.cwds pid).isSome
    · rw [if_pos hc, if_pos hc]
    · cases n.world.fdTables (if (n.world.cwds ppid).isSome then ppid else n.world.lastPid) <;>
        simp [hc, h]

/-- A call of some process, with all that serving it does to the world. -/
structure Served where
  pid : Int
  ppid : Int
  acts : World → World

def serve (n : Namespace) (c : Served) : Namespace :=
  let n := n.setCurrentPid c.pid c.ppid
  { n with world := c.acts n.world }

theorem foldl_of_not_parked (calls : List Served) {n : Namespace} (h : n.haveInheritedFds = false) :
    (calls.foldl serve n).world =
      calls.foldl (fun w c => c.acts (Abi.setCurrentPid c.pid c.ppid w)) n.world := by
  induction calls generalizing n with
  | nil => rfl
  | cons c calls ih =>
    rw [foldl_cons, foldl_cons, serve, setCurrentPid_of_not_parked h, ih (by exact h)]

end Namespace

/-! ## Reading back -/

theorem getU32_le {n : Nat} (h : n < 2 ^ 32) (rest : Str) :
    getU32 (le 4 n ++ rest) = (n, rest) := by
  unfold getU32
  rw [if_pos (by rw [length_append, length_le]; omega), take_left' (length_le 4 n),
    drop_left' (length_le 4 n), unle_le_of_lt h]

theorem getStr_putStr {s : Str} (h : s.length < 2 ^ 32) (rest : Str) :
    getStr (putStr s ++ rest) = (s, rest) := by
  unfold getStr putStr
  rw [append_assoc, getU32_le h]
  dsimp only
  rw [take_left, drop_left]

theorem int32_putInt {n : Int} (h : -2 ^ 31 ≤ n ∧ n < 2 ^ 31) : int32 (unle (putInt n)) = n := by
  have hlt : (n % 2 ^ 32).toNat < 2 ^ 32 := by omega
  rw [putInt, unle_le_of_lt hlt, int32, Nat.mod_eq_of_lt hlt]
  split_ifs <;> omega

/-- A descriptor is an `int`. -/
def IntRange (paths : List (Int × Str)) : Prop := ∀ p ∈ paths, -2 ^ 31 ≤ p.1 ∧ p.1 < 2 ^ 31

variable {paths : List (Int × Str)}

theorem getPaths_put (hr : IntRange paths) (hlen : ∀ p ∈ paths, p.2.length < 2 ^ 32)
    (m : Int → Option Str) :
    getPaths paths.length (paths.flatMap fun p => putInt p.1 ++ putStr p.2) m =
      paths.foldl bindPath m := by
  induction paths generalizing m with
  | nil => rfl
  | cons p paths ih =>
    rw [flatMap_cons, append_assoc, length_cons, getPaths]
    have hint : (putInt p.1).length = 4 := length_le _ _
    have hne :
        putInt p.1 ++ (putStr p.2 ++ paths.flatMap fun p => putInt p.1 ++ putStr p.2) ≠ [] := by
      intro h
      have := congrArg List.length h
      rw [length_append, hint, length_nil] at this
      omega
    rw [if_neg hne, drop_left' hint, getStr_putStr (hlen p (by simp)), take_left' hint,
      int32_putInt (hr p (by simp))]
    exact ih (fun q hq => hr q (.tail _ hq)) (fun q hq => hlen q (.tail _ hq)) _

/-- The list has the entries of the table, each once. -/
def Lists (m : Int → Option Str) (paths : List (Int × Str)) : Prop :=
  (paths.map Prod.fst).Nodup ∧ ∀ fd p, (fd, p) ∈ paths ↔ m fd = some p

theorem foldl_bindPath_of_not_mem {fd : Int} (h : fd ∉ paths.map Prod.fst) (m : Int → Option Str) :
    paths.foldl bindPath m fd = m fd := by
  induction paths generalizing m with
  | nil => rfl
  | cons p paths ih =>
    rw [map_cons, mem_cons, not_or] at h
    rw [foldl_cons, ih h.2, bindPath, update_of_ne h.1]

theorem foldl_bindPath_of_mem (hnd : (paths.map Prod.fst).Nodup) {fd : Int} {s : Str}
    (h : (fd, s) ∈ paths) (m : Int → Option Str) : paths.foldl bindPath m fd = some s := by
  induction paths generalizing m with
  | nil => cases h
  | cons p paths ih =>
    rw [map_cons, nodup_cons] at hnd
    rw [foldl_cons]
    rcases mem_cons.1 h with rfl | h
    · rw [foldl_bindPath_of_not_mem hnd.1, bindPath, update_self]
    · exact ih hnd.2 h _

theorem foldl_bindPath_lists {m : Int → Option Str} (hl : Lists m paths) :
    paths.foldl bindPath (fun _ => none) = m := by
  funext fd
  rcases hm : m fd with _ | s
  · refine foldl_bindPath_of_not_mem (fun hmem => ?_) _
    obtain ⟨⟨fd', s⟩, hp, rfl⟩ := mem_map.1 hmem
    rw [(hl.2 fd' s).1 hp] at hm
    cases hm
  · exact foldl_bindPath_of_mem hl.1 ((hl.2 fd s).2 hm) _

/-! ## What can be read at all -/

theorem getU32_lt (rest : Str) : (getU32 rest).1 < 2 ^ 32 := by
  unfold getU32
  dsimp only
  split_ifs with h
  · have hlt := unle_lt (rest.take 4)
    rw [length_take, Nat.min_eq_left h] at hlt
    exact hlt
  · decide

/-- The loop reads `n` entries at most, none of them longer than a length can say. -/
theorem getPaths_bounded (n : Nat) (rest : Str) {m : Int → Option Str} {keys : List Int}
    (hm : ∀ fd s, m fd = some s → fd ∈ keys ∧ s.length < 2 ^ 32) :
    ∃ more : List Int, more.length ≤ n ∧ ∀ fd s, getPaths n rest m fd = some s →
      fd ∈ more ++ keys ∧ s.length < 2 ^ 32 := by
  induction n generalizing rest m keys with
  | zero => exact ⟨[], le_rfl, fun fd s h => hm fd s h⟩
  | succ n ih =>
    rw [getPaths]
    split_ifs with h0
    · exact ⟨[], Nat.zero_le _, fun fd s h => hm fd s h⟩
    · have hstep : ∀ fd s, bindPath m (int32 (unle (rest.take 4)), (getStr (rest.drop 4)).1) fd =
            some s → fd ∈ int32 (unle (rest.take 4)) :: keys ∧ s.length < 2 ^ 32 := by
        intro fd s h
        by_cases hfd : fd = int32 (unle (rest.take 4))
        · subst hfd
          rw [bindPath, update_self] at h
          cases h
          refine ⟨by simp, ?_⟩
          have h := getU32_lt (rest.drop 4)
          rw [getStr, length_take]
          omega
        · rw [bindPath, update_of_ne hfd] at h
          exact ⟨.tail _ (hm fd s h).1, (hm fd s h).2⟩
      obtain ⟨more, hlen, hmore⟩ := ih (getStr (rest.drop 4)).2 hstep
      refine ⟨more ++
        [int32 (unle (rest.take 4))], by rw [length_append]; exact Nat.succ_le_succ hlen,
        fun fd s h => ?_⟩
      obtain ⟨h1, h2⟩ := hmore fd s h
      exact ⟨by simpa using h1, h2⟩

/-! ## The round trip -/

/-- A namespace before its first call. -/
structure Fresh (n : Namespace) : Prop where
  cwds : n.world.cwds = fun _ => none
  fdTables : n.world.fdTables = fun _ => none
  lastCwd : n.world.lastCwd = slash
  parked : n.haveInheritedFds = false

/-- The child's namespace at its first call. -/
def childOf (cwd : Str) (paths : List (Int × Str)) (n : Namespace) (pid ppid : Int) : Namespace :=
  (n.importProcessState (exportProcessState cwd paths)).setCurrentPid pid ppid

/-- The child has the directory and the descriptors of its parent, and nothing is parked any more:
whoever is served later is served as if nothing had ever been. -/
structure RoundTrip (parent : World) (paths : List (Int × Str)) (n : Namespace)
    (pid ppid : Int) : Prop where
  cwd : (childOf parent.cwd paths n pid ppid).world.cwdOf pid = parent.cwd
  fds :
    ((childOf parent.cwd paths n pid ppid).world.fdTables pid).map (·.paths) = some parent.fds.paths
  once : ∀ calls : List Namespace.Served,
    (calls.foldl Namespace.serve (childOf parent.cwd paths n pid ppid)).world =
      calls.foldl (fun w c => c.acts (Abi.setCurrentPid c.pid c.ppid w))
        (childOf parent.cwd paths n pid ppid).world

section RoundTrip

variable {n : Namespace} {pid ppid : Int} {paths : List (Int × Str)}

/-- The first call adopts the parked descriptors, and the directory of a namespace in which nothing
has been served. -/
theorem childOf_spec (hp : pid ≠ 0) (cwd : Str) (paths : List (Int × Str)) (n : Namespace)
    (ppid : Int) :
    (childOf cwd paths n pid ppid).world.cwds pid = some n.world.lastCwd ∧
      (childOf cwd paths n pid ppid).world.fdTables pid =
        some (n.importProcessState (exportProcessState cwd paths)).inheritedFds ∧
      (childOf cwd paths n pid ppid).haveInheritedFds = false := by
  unfold childOf Namespace.setCurrentPid Namespace.importProcessState
  simp [hp]

/-- What is parked is the table, exactly if every length fits its four bytes. -/
theorem inherited_paths_iff {m : Int → Option Str} (hl : Lists m paths) (hr : IntRange paths)
    (n : Namespace) {cwd : Str} (hcwd : cwd.length < 2 ^ 32) :
    (n.importProcessState (exportProcessState cwd paths)).inheritedFds.paths = m ↔
      (∀ p ∈ paths, p.2.length < 2 ^ 32) ∧ paths.length < 2 ^ 32 := by
  obtain ⟨bs, hbs⟩ : ∃ bs, bs = le 4 paths.length ++ paths.flatMap fun p =>
      putInt p.1 ++ putStr p.2 := ⟨_, rfl⟩
  have himp : (n.importProcessState (exportProcessState cwd paths)).inheritedFds.paths =
      getPaths (getU32 bs).1 (getU32 bs).2 fun _ => none := by
    unfold Namespace.importProcessState exportProcessState
    rw [append_assoc, getStr_putStr hcwd, hbs]
  rw [himp]
  constructor
  · intro h
    obtain ⟨more, hlen, hmore⟩ := getPaths_bounded (getU32 bs).1 (getU32 bs).2
      (show ∀ fd s, (fun _ => none : Int → Option Str) fd = some s →
          fd ∈ ([] : List Int) ∧ s.length < 2 ^ 32 from nofun)
    rw [h] at hmore
    refine ⟨fun p hp => (hmore p.1 p.2 ((hl.2 p.1 p.2).1 hp)).2, ?_⟩
    -- the descriptors are among those the loop has read
    have hsub : paths.map Prod.fst ⊆ more := by
      intro fd hfd
      obtain ⟨p, hp, rfl⟩ := mem_map.1 hfd
      simpa using (hmore p.1 p.2 ((hl.2 p.1 p.2).1 hp)).1
    have hle := (hl.1.subperm hsub).length_le
    have hlt := getU32_lt bs
    rw [length_map] at hle
    omega
  · rintro ⟨hlen, hcount⟩
    rw [hbs, getU32_le hcount, getPaths_put hr hlen, foldl_bindPath_lists hl]

/-- A fork is a round trip exactly if the parent is in the root directory and every length fits its
four bytes. -/
theorem fork_round_trip_iff (parent : World) (hl : Lists parent.fds.paths paths)
    (hr : IntRange paths) (hn : Fresh n) (hp : 0 < pid) : RoundTrip parent paths n pid ppid ↔
    parent.cwd = slash ∧ (∀ p ∈ paths, p.2.length < 2 ^ 32) ∧ paths.length < 2 ^ 32 := by
  obtain ⟨hcwd, hfds, hpark⟩ := childOf_spec (by omega : pid ≠ 0) parent.cwd paths n ppid
  have hself : (childOf parent.cwd paths n pid ppid).world.cwdOf pid = slash := by
    rw [World.cwdOf, hcwd, hn.lastCwd]
    rfl
  have hslash : slash.length < 2 ^ 32 := by decide
  constructor
  · intro h
    have hroot : parent.cwd = slash := by rw [← h.cwd, hself]
    have hpaths := h.fds
    rw [hfds, Option.map_some, Option.some.injEq, hroot] at hpaths
    exact ⟨hroot, (inherited_paths_iff hl hr n hslash).1 hpaths⟩
  · rintro ⟨hroot, hfit⟩
    refine ⟨by rw [hself, hroot], ?_, fun calls => Namespace.foldl_of_not_parked calls hpark⟩
    rw [hfds, hroot, Option.map_some, (inherited_paths_iff hl hr n hslash).2 hfit]

end RoundTrip

/-- A parent in the directory `cwd` with one descriptor. -/
def forkParent (cwd : Str) : World :=
  { sockWorld with
    cwds := fun _ => some cwd
    fdTables := fun _ => some { paths := fun fd => if fd = 3 then some "/tmp" else none } }

def forkPaths : List (Int × Str) := [(3, "/tmp")]

theorem forkParent_lists (cwd : Str) : Lists (forkParent cwd).fds.paths forkPaths := by
  refine ⟨nodup_singleton _, fun fd p => ?_⟩
  have hpaths : (forkParent cwd).fds.paths fd = if fd = 3 then some "/tmp".toList else none := rfl
  rw [hpaths, forkPaths, mem_singleton, Prod.mk.injEq]
  split_ifs with hfd
  · simp [hfd, eq_comm]
  · simp [hfd]

theorem fork_round_trip_iff_root :
    RoundTrip (forkParent slash) forkPaths { world := sockWorld } 2 1 := by
  refine (fork_round_trip_iff (forkParent slash) (forkParent_lists slash) ?_ ⟨rfl, rfl, rfl, rfl⟩
      (by decide)).2 ⟨rfl, ?_, by decide⟩
  · intro p hp
    rw [mem_singleton.1 hp]
    decide
  · intro p hp
    rw [mem_singleton.1 hp]
    decide

/-- The parent is in `/etc`, and its child is in the root directory. -/
theorem fork_loses_cwd :
    (forkParent "/etc".toList).cwd = "/etc".toList ∧
      (childOf "/etc".toList forkPaths { world := sockWorld } 2 1).world.cwdOf 2 = slash ∧
      ¬RoundTrip (forkParent "/etc") forkPaths { world := sockWorld } 2 1 := by
  have hchild : (childOf "/etc" forkPaths { world := sockWorld } 2 1).world.cwdOf 2 = slash := by
    rw [World.cwdOf, (childOf_spec (by decide) _ _ _ _).1]
    rfl
  refine ⟨rfl, hchild, fun h => ?_⟩
  have hcwd : (childOf "/etc" forkPaths { world := sockWorld } 2 1).world.cwdOf 2 = "/etc" := h.cwd
  rw [hchild] at hcwd
  exact absurd hcwd (by decide)

end Linuxity.Runtime

import Linuxity.Logic.Slots
import Mathlib.Data.Int.Notation

/-!
# Hvf.FdTable — the guest's descriptors on a macOS host (`runtime/darwin/fd.hpp`, `trap.hpp`)

A descriptor shares an open host file with its duplicates; the file is closed with the last of
them, and also when `install` finds no place for it.  The calls that make descriptors keep the
numbers of the host's descriptors and close those themselves.
-/

namespace Linuxity.Hvf

open Logic

structure HostFd where
  id : ℕ
  fd : ℕ
  deriving DecidableEq

structure FdSlot where
  file : Option HostFd := none
  cloexec : Bool := false
  peer : Option HostFd := none
  deriving DecidableEq

abbrev FdTable := List FdSlot

def kMaxFds : ℕ := 1024

namespace FdTable

def isFree (s : FdSlot) : Bool := s.file.isNone

def host (t : FdTable) (g : ℤ) : Option HostFd :=
  if g < 0 then none else (t[g.toNat]?).bind (·.file)

def install (t : FdTable) (h : HostFd) (cloexec : Bool) : Option (ℕ × FdTable) :=
  addSlot isFree kMaxFds t { file := some h, cloexec := cloexec }

def installEventfd (t : FdTable) (readEnd writeEnd : HostFd) (cloexec : Bool) :
    Option (ℕ × FdTable) :=
  addSlot isFree kMaxFds t { file := some readEnd, cloexec := cloexec, peer := some writeEnd }

def roomLeft (t : FdTable) : ℕ := room isFree kMaxFds t

end FdTable

/-! ## Calls that make descriptors -/

inductive HostEvent where
  | opened (fd : ℕ)
  | closed (fd : ℕ)
  deriving DecidableEq

structure Pipe where
  readEnd : HostFd
  writeEnd : HostFd
  apart : readEnd.fd ≠ writeEnd.fd

/-- A call, with what the host answers; an error of the host is an errno. -/
inductive Create where
  /-- With whether the two numbers can be stored. -/
  | pipe2 (cloexec : Bool) (p : Except ℕ Pipe) (put : Bool)
  | eventfd2 (cloexec : Bool) (p : Except ℕ Pipe)
  | timerfdCreate (cloexec : Bool) (p : Except ℕ Pipe)
  /-- With whether the mask can be read, and whether the guest fd is a signalfd already. -/
  | signalfd4 (cloexec : Bool) (maskRead : Bool) (rearm : Option ℕ) (p : Except ℕ Pipe)
  | epollCreate1 (cloexec : Bool) (kqueue : Except ℕ HostFd) (devNull : Except ℕ HostFd)
  | memfdCreate (cloexec : Bool) (file : Except ℕ HostFd)
  | inotifyInit1 (cloexec : Bool) (kqueue : Except ℕ HostFd) (dup : Except ℕ HostFd)

structure Created where
  ret : Except ℕ ℕ
  fds : FdTable
  log : List HostEvent

def emfile : ℕ := 24

/-- An object of two ends under one guest fd: without a place `install_eventfd` closes both, and so
does the caller. -/
def createPair (t : FdTable) (cloexec : Bool) : Except ℕ Pipe → Created
  | .error e => ⟨.error e, t, []⟩
  | .ok p =>
    let opened := [.opened p.readEnd.fd, .opened p.writeEnd.fd]
    match t.installEventfd p.readEnd p.writeEnd cloexec with
    | some (g, t) => ⟨.ok g, t, opened⟩
    | none => ⟨.error emfile, t, opened ++ [.closed p.writeEnd.fd, .closed p.readEnd.fd] ++
        [.closed p.readEnd.fd, .closed p.writeEnd.fd]⟩

/-- `install_or_close`: without a place `install` closes the file, and then the caller does. -/
def installOrClose (t : FdTable) (h : HostFd) (cloexec : Bool) : Created :=
  match t.install h cloexec with
  | some (g, t) => ⟨.ok g, t, []⟩
  | none => ⟨.error emfile, t, [.closed h.fd, .closed h.fd]⟩

/-- A file beside a kqueue that is closed with its object when the call fails. -/
def createBeside (t : FdTable) (cloexec : Bool) (kqueue file : Except ℕ HostFd) : Created :=
  match kqueue with
  | .error e => ⟨.error e, t, []⟩
  | .ok kq =>
    match file with
    | .error e => ⟨.error e, t, [.opened kq.fd, .closed kq.fd]⟩
    | .ok h =>
      let r := installOrClose t h cloexec
      match r.ret with
      | .ok g => ⟨.ok g, r.fds, [.opened kq.fd, .opened h.fd] ++ r.log⟩
      | .error e => ⟨.error e, r.fds, [.opened kq.fd, .opened h.fd] ++ r.log ++ [.closed kq.fd]⟩

def create (t : FdTable) : Create → Created
  | .pipe2 _ (.error e) _ => ⟨.error e, t, []⟩
  | .pipe2 cloexec (.ok p) put =>
    let opened := [.opened p.readEnd.fd, .opened p.writeEnd.fd]
    match t.install p.readEnd cloexec with
    | some (_, t) =>
      match t.install p.writeEnd cloexec with
      | some (_, t) => ⟨if put then .ok 0 else .error 14, t, opened⟩
      | none => ⟨.error emfile, t, opened ++ [.closed p.writeEnd.fd]⟩
    | none =>
      match t.install p.writeEnd cloexec with
      | some (_, t) => ⟨.error emfile, t, opened ++ [.closed p.readEnd.fd]⟩
      | none => ⟨.error emfile, t, opened ++ [.closed p.readEnd.fd, .closed p.writeEnd.fd]⟩
  | .eventfd2 cloexec p => createPair t cloexec p
  | .timerfdCreate cloexec p => createPair t cloexec p
  | .signalfd4 _ false _ _ => ⟨.error 14, t, []⟩
  | .signalfd4 _ true (some g) _ => ⟨.ok g, t, []⟩
  | .signalfd4 cloexec true none p => createPair t cloexec p
  | .epollCreate1 cloexec kqueue devNull => createBeside t cloexec kqueue devNull
  | .memfdCreate _ (.error e) => ⟨.error e, t, []⟩
  | .memfdCreate cloexec (.ok h) =>
    let r := installOrClose t h cloexec
    { r with log := .opened h.fd :: r.log }
  | .inotifyInit1 cloexec kqueue dup => createBeside t cloexec kqueue dup

/-- Every host fd that was opened has been closed just once. -/
def ClosedOnce (log : List HostEvent) : Prop := ∀ fd, .opened fd ∈ log → log.count (.closed fd) = 1

def AllOrNothing (t : FdTable) (c : Create) : Prop :=
  (∃ e, (create t c).ret = .error e) → (create t c).fds = t ∧ ClosedOnce (create t c).log

/-- There is a place for what the host has opened; a pipe also fails as it should when there is none
at all. -/
def Fits (t : FdTable) : Create → Prop
  | .pipe2 _ (.ok _) put => 2 ≤ t.roomLeft ∧ put ∨ t.roomLeft = 0
  | .eventfd2 _ (.ok _) | .timerfdCreate _ (.ok _) | .signalfd4 _ true none (.ok _)
  | .epollCreate1 _ (.ok _) (.ok _) | .memfdCreate _ (.ok _)
  | .inotifyInit1 _ (.ok _) (.ok _) => 1 ≤ t.roomLeft
  | _ => True

section Laws

variable {t : FdTable} {c : Bool}

theorem install_eq_none_iff {h : HostFd} : t.install h c = none ↔ t.roomLeft = 0 :=
  addSlot_eq_none_iff

theorem installEventfd_eq_none_iff {r w : HostFd} :
    t.installEventfd r w c = none ↔ t.roomLeft = 0 := addSlot_eq_none_iff

theorem roomLeft_install {h : HostFd} {g : ℕ} {t' : FdTable} (hi : t.install h c = some (g, t')) :
    t'.roomLeft + 1 = t.roomLeft :=
  room_addSlot hi rfl

theorem not_closedOnce (fd : ℕ) {log : List HostEvent} (ho : .opened fd ∈ log)
    (hc : 2 ≤ log.count (.closed fd)) : ¬ClosedOnce log := by
  intro h
  have hone := h fd ho
  omega

theorem createPair_iff (p : Pipe) :
    ((∃ e, (createPair t c (.ok p)).ret = .error e) →
        (createPair t c (.ok p)).fds = t ∧ ClosedOnce (createPair t c (.ok p)).log) ↔
      1 ≤ t.roomLeft := by
  dsimp only [createPair]
  cases hi : t.installEventfd p.readEnd p.writeEnd c with
  | some placed =>
    have hroom := mt installEventfd_eq_none_iff.2 (by rw [hi]; exact nofun)
    exact iff_of_true nofun (by omega)
  | none =>
    have hroom := installEventfd_eq_none_iff.1 hi
    refine iff_of_false (fun h => ?_) (by omega)
    refine not_closedOnce p.readEnd.fd List.mem_cons_self ?_ (h ⟨_, rfl⟩).2
    simp [p.apart.symm]

theorem installOrClose_cases (t : FdTable) (h : HostFd) (c : Bool) :
    1 ≤ t.roomLeft ∧ (∃ g t', installOrClose t h c = ⟨.ok g, t', []⟩) ∨
      t.roomLeft = 0 ∧ installOrClose t h c = ⟨.error emfile, t, [.closed h.fd, .closed h.fd]⟩ := by
  unfold installOrClose
  cases hi : t.install h c with
  | some placed =>
    have hroom := mt install_eq_none_iff.2 (by rw [hi]; exact nofun)
    exact .inl ⟨by omega, _, _, rfl⟩
  | none => exact .inr ⟨install_eq_none_iff.1 hi, rfl⟩

theorem createBeside_iff (kq h : HostFd) :
    ((∃ e, (createBeside t c (.ok kq) (.ok h)).ret = .error e) →
        (createBeside t c (.ok kq) (.ok h)).fds = t ∧
        ClosedOnce (createBeside t c (.ok kq) (.ok h)).log) ↔ 1 ≤ t.roomLeft := by
  obtain ⟨hroom, g, t', hi⟩ | ⟨hroom, hi⟩ := installOrClose_cases t h c
  · dsimp only [createBeside]
    rw [hi]
    exact iff_of_true nofun hroom
  · dsimp only [createBeside]
    rw [hi]
    refine iff_of_false (fun hr => ?_) (by omega)
    refine not_closedOnce h.fd (.tail _ (.head _)) ?_ (hr ⟨_, rfl⟩).2
    simp

theorem memfd_iff (h : HostFd) : AllOrNothing t (.memfdCreate c (.ok h)) ↔ 1 ≤ t.roomLeft := by
  unfold AllOrNothing
  dsimp only [create]
  obtain ⟨hroom, g, t', hi⟩ | ⟨hroom, hi⟩ := installOrClose_cases t h c
  · rw [hi]
    exact iff_of_true nofun hroom
  · rw [hi]
    refine iff_of_false (fun hr => ?_) (by omega)
    refine not_closedOnce h.fd List.mem_cons_self ?_ (hr ⟨_, rfl⟩).2
    simp

theorem ne_of_roomLeft {t' : FdTable} (h : t'.roomLeft < t.roomLeft) : t' ≠ t := by
  rintro rfl
  exact Nat.lt_irrefl _ h

theorem pipe2_iff (p : Pipe) (put : Bool) :
    AllOrNothing t (.pipe2 c (.ok p) put) ↔ 2 ≤ t.roomLeft ∧ put ∨ t.roomLeft = 0 := by
  unfold AllOrNothing
  dsimp only [create]
  cases hfirst : t.install p.readEnd c with
  | none =>
    -- neither end finds a place, and `install` has closed both
    have hroom := install_eq_none_iff.1 hfirst
    rw [install_eq_none_iff.2 hroom]
    refine iff_of_true (fun _ => ⟨rfl, fun fd hfd => ?_⟩) (.inr hroom)
    obtain rfl | rfl : fd = p.readEnd.fd ∨ fd = p.writeEnd.fd := by simpa using hfd
    · simp [p.apart.symm]
    · simp [p.apart]
  | some placed =>
    obtain ⟨g, t1⟩ := placed
    have hroom1 := roomLeft_install hfirst
    dsimp only
    cases hsecond : t1.install p.writeEnd c with
    | none =>
      have hroom := install_eq_none_iff.1 hsecond
      refine iff_of_false (fun h => ?_) (by omega)
      have hlt : t1.roomLeft < t.roomLeft := by omega
      exact ne_of_roomLeft hlt (h ⟨_, rfl⟩).1
    | some placed =>
      obtain ⟨g', t2⟩ := placed
      have hroom2 := roomLeft_install hsecond
      cases put with
      | true => exact iff_of_true nofun (.inl ⟨by omega, rfl⟩)
      | false =>
        refine iff_of_false (fun h => ?_) (fun h => ?_)
        · have hlt : t2.roomLeft < t.roomLeft := by omega
          exact ne_of_roomLeft hlt (h ⟨_, rfl⟩).1
        · obtain ⟨-, hput⟩ | hroom := h
          · cases hput
          · omega

end Laws

/-- **A call that fails leaves the table as it was and no host fd open** just if the table has a
place for what the host has opened, or the host itself refuses, or it is a pipe and there is no
place at all. -/
theorem creation_atomic_iff (t : FdTable) (c : Create) : AllOrNothing t c ↔ Fits t c := by
  have hnone : ∀ {e : ℕ} {log : List HostEvent}, ClosedOnce log →
      ((∃ e', (⟨.error e, t, log⟩ : Created).ret = .error e') →
        (⟨.error e, t, log⟩ : Created).fds = t ∧ ClosedOnce (⟨.error e, t, log⟩ : Created).log) :=
    fun h _ => ⟨rfl, h⟩
  have hlog : ClosedOnce [] := nofun
  have hkq : ∀ fd, ClosedOnce [.opened fd, .closed fd] := by
    intro fd fd' hmem
    obtain rfl : fd' = fd := by simpa using hmem
    simp
  cases c with
  | pipe2 cloexec p put =>
    cases p with
    | error e => exact iff_of_true (hnone hlog) trivial
    | ok p => exact pipe2_iff p put
  | eventfd2 cloexec p | timerfdCreate cloexec p =>
    cases p with
    | error e => exact iff_of_true (hnone hlog) trivial
    | ok p => exact createPair_iff p
  | signalfd4 cloexec maskRead rearm p =>
    cases maskRead with
    | false => exact iff_of_true (hnone hlog) trivial
    | true =>
      cases rearm with
      | some g => exact iff_of_true nofun trivial
      | none =>
        cases p with
        | error e => exact iff_of_true (hnone hlog) trivial
        | ok p => exact createPair_iff p
  | epollCreate1 cloexec kqueue devNull =>
    cases kqueue with
    | error e => exact iff_of_true (hnone hlog) trivial
    | ok kq =>
      cases devNull with
      | error e => exact iff_of_true (hnone (hkq kq.fd)) trivial
      | ok h => exact createBeside_iff kq h
  | memfdCreate cloexec file =>
    cases file with
    | error e => exact iff_of_true (hnone hlog) trivial
    | ok h => exact memfd_iff h
  | inotifyInit1 cloexec kqueue dup =>
    cases kqueue with
    | error e => exact iff_of_true (hnone hlog) trivial
    | ok kq =>
      cases dup with
      | error e => exact iff_of_true (hnone (hkq kq.fd)) trivial
      | ok h => exact createBeside_iff kq h

def nearlyFull : FdTable := List.replicate 1023 { file := some ⟨0, 3⟩ }

def hostPipe : Pipe := ⟨⟨1, 50⟩, ⟨2, 51⟩, by decide⟩

/-- One end of the pipe stays in the table. -/
theorem pipe_half_installed : ¬AllOrNothing nearlyFull (.pipe2 false (.ok hostPipe) true) := by
  rw [pipe2_iff]
  have hroom : nearlyFull.roomLeft = 1 := by
    have hcount : nearlyFull.countP FdTable.isFree = 0 := List.countP_eq_zero.2 fun s hs => by
      rw [List.eq_of_mem_replicate hs]
      exact Bool.false_ne_true
    have hlen : nearlyFull.length = 1023 := List.length_replicate
    rw [FdTable.roomLeft, room, hcount, hlen, kMaxFds]
  omega

end Linuxity.Hvf

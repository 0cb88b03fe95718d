import Linuxity.Posix.Move
import Linuxity.Kernel.FdTable
import Linuxity.Kernel.LinkTable
import Linuxity.Kernel.MetaStore
import Mathlib.Data.Finset.Insert
import Mathlib.Data.Finset.Basic

/-!
# Kernel.World — the supervisor's state over a host tree

One record holds the host tree, the file namespace and the dispatcher's own fields.  There are
two ghost logs.  `calls` has every call by which the supervisor can change the host, with the
place its path named at that moment; `named` has every guest path a handler asked the namespace
about, with the register of the argument it came from.
-/

namespace Linuxity.Kernel

open Posix

inductive SocketNs where
  | filesystem | abstractNs
  deriving DecidableEq

inductive HostOp where
  | mkdir | chmod | writeFile | append | unlink | rmdir | rename | link | symlink | mknod | truncate
  deriving DecidableEq

structure HostCall where
  op : HostOp
  path : Str
  place : Except Errno Place

structure World where
  host : Host
  mounts : List Mount
  whiteouts : Finset Str := ∅
  whiteoutJournal : Str := []
  links : LinkTable := {}
  linkJournal : Str := []
  metas : MetaStore := {}
  metaJournal : Str := []
  cwds : Int → Option Str := fun _ => none
  curPid : Int := 1
  seededPid : Int := 0
  lastPid : Int := 0
  lastCwd : Str := slash
  fdTables : Int → Option FdTable := fun _ => none
  socketNs : SocketNs := .filesystem
  fifosEmulated : Bool := false
  instanceId : Nat := 0
  sockPlaceholders : Finset Str := ∅
  guestMounts : Finset Str := ∅
  /-- Whether hard links work, once it has been tried. -/
  linksWork : Option Bool := none
  pendingOpen : Str := []
  pendingFlags : Nat := 0
  pendingDir : Bool := false
  pendingLazy : Str := []
  pendingEntries : List VirtualDirent := []
  calls : List HostCall := []
  named : List (Nat × Str) := []

namespace World

variable (w : World) (abs : Str) (p : Str) (mode : Nat) (src dst : Str)

/-- The table of the process; one that has none yet, which the source then makes, reads empty. -/
def fds : FdTable := (w.fdTables w.curPid).getD {}

def setFds (t : FdTable) : World :=
  { w with fdTables := Function.update w.fdTables w.curPid (some t) }

def logCall (c : HostCall) : World := { w with calls := w.calls ++ [c] }

def setHost (h : Host) : World := { w with host := h }

/-- Run one host call and log it.  A failed call leaves the host as it was. -/
def sys (op : HostOp) (p : Str) (follow : Bool) (run : Host → Except Errno Host) :
    Except Errno Unit × World :=
  let logged := w.logCall ⟨op, p, w.host.resolve p follow⟩
  match run w.host with
  | .error e => (.error e, logged)
  | .ok h => (.ok (), logged.setHost h)

def mkdir : Except Errno Unit × World :=
  w.sys .mkdir p false (·.mkdir p mode)

def chmod : Except Errno Unit × World :=
  w.sys .chmod p true (·.chmod p mode)

def writeFile (data : Str) : Except Errno Unit × World :=
  w.sys .writeFile p true (·.writeFile p mode data)

def unlink : Except Errno Unit × World :=
  w.sys .unlink p false (·.unlink p)

def chmodFd (l : Loc) (mode : Nat) : Except Errno Unit × World :=
  let logged := w.logCall ⟨.chmod, [], .ok (.found l)⟩
  match w.host.chmodAt l mode with
  | .error e => (.error e, logged)
  | .ok h => (.ok (), logged.setHost h)

def rename : Except Errno Unit × World :=
  (w.logCall ⟨.rename, dst, w.host.resolve dst false⟩).sys .rename src false (·.rename src dst)

def exchange : Except Errno Unit × World :=
  (w.logCall ⟨.rename, dst, w.host.resolve dst false⟩).sys .rename src false (·.exchange src dst)

def link : Except Errno Unit × World :=
  (w.logCall ⟨.link, dst, w.host.resolve dst false⟩).sys .link src false (·.link src dst)

def linkFd (ls : Loc) (dst : Str) : Except Errno Unit × World :=
  (w.logCall ⟨.link, [], .ok (.found ls)⟩).sys .link dst false (·.linkTo ls dst)

def createWith (data : Str) : Except Errno Unit × World :=
  w.sys .writeFile p false (·.createWith p mode data)

def createExcl : Except Errno Unit × World :=
  w.sys .writeFile p false (·.createExcl p mode)

/-- A line added to one of the journals in the root mount's upper directory; the text is not
kept, and a namespace without a journal writes nothing. -/
def appendTo (journal : Str) : World :=
  if journal = [] then w else (w.sys .append journal true .ok).2

def noteName (arg : Nat) (abs : Str) : World := { w with named := w.named ++ [(arg, abs)] }

def noteSocket : World := { w with sockPlaceholders := insert abs w.sockPlaceholders }

/-! ## Whiteouts -/

def isWhiteout : Bool := abs ∈ w.whiteouts

def addWhiteout : World :=
  if abs ∈ w.whiteouts then w
  else { w with whiteouts := insert abs w.whiteouts }.appendTo w.whiteoutJournal

def clearWhiteout : World :=
  if abs ∈ w.whiteouts then { w with whiteouts := w.whiteouts.erase abs }.appendTo w.whiteoutJournal
  else w

def putMetas (s : MetaStore) (touched : Bool) : World :=
  if touched then { w with metas := s }.appendTo w.metaJournal else { w with metas := s }

def setMetaMode (hostMode : Option Nat) : World :=
  w.putMetas (w.metas.setMode abs mode hostMode)
    (!(hostMode.any (fun hm => hm &&& 0o7777 == mode &&& 0o7777) && (w.metas.table abs).isNone))

def setMetaOwner (uid gid : Nat) : World :=
  w.putMetas (w.metas.setOwner abs uid gid)
    (!((w.metas.table abs).isNone && (uid == 0 || uid == keepId) && (gid == 0 || gid == keepId)))

def setMetaFifo : World := w.putMetas (w.metas.setFifo abs) true

def forgetMeta : World := w.putMetas (w.metas.forget abs) (w.metas.table abs).isSome

def renameMeta : World :=
  w.putMetas (w.metas.rename src dst) ((w.metas.table src).isSome || (w.metas.table dst).isSome)

def putLinks (t : LinkTable) : World := { w with links := t }.appendTo w.linkJournal

/-! ## What a call leaves alone -/

section Sys

variable {w : World} {op : HostOp} {p : Str} {f : Bool} {run : Host → Except Errno Host}

theorem sys_of_error {e : Errno} (hr : run w.host = .error e) :
    w.sys op p f run = (.error e, w.logCall ⟨op, p, w.host.resolve p f⟩) := by
  simp [sys, hr]

theorem sys_of_ok {h : Host} (hr : run w.host = .ok h) :
    w.sys op p f run = (.ok (), (w.logCall ⟨op, p, w.host.resolve p f⟩).setHost h) := by
  simp [sys, hr]

theorem sys_snd :
    (w.sys op p f run).2 = (w.logCall ⟨op, p, w.host.resolve p f⟩).setHost
      (w.host.orSame (run w.host)) := by
  cases hr : run w.host with
  | error e => rw [sys_of_error hr]; rfl
  | ok h => rw [sys_of_ok hr]; rfl

theorem sys_host : (w.sys op p f run).2.host = w.host.orSame (run w.host) := by
  rw [sys_snd]
  rfl

end Sys

theorem appendTo_host (w : World) (journal : Str) : (w.appendTo journal).host = w.host := by
  unfold appendTo
  split_ifs
  · rfl
  · rw [sys_host]; rfl

@[simp] theorem clearWhiteout_host (w : World) (abs : Str) :
    (w.clearWhiteout abs).host = w.host := by
  unfold clearWhiteout
  split_ifs
  · rw [appendTo_host]
  · rfl

@[simp] theorem putMetas_host (w : World) (s : MetaStore) (touched : Bool) :
    (w.putMetas s touched).host = w.host := by
  unfold putMetas
  split_ifs
  · rw [appendTo_host]
  · rfl

@[simp] theorem setMetaMode_host (w : World) (abs : Str) (mode : Nat) (hm : Option Nat) :
    (w.setMetaMode abs mode hm).host = w.host := putMetas_host w _ _

/-- Every call logged on the way from `w` to `w'` satisfies `P`. -/
def Logs (P : HostCall → Prop) (w w' : World) : Prop :=
  ∃ cs, w'.calls = w.calls ++ cs ∧ ∀ c ∈ cs, P c

namespace Logs

variable {P Q : HostCall → Prop} {w w' w'' : World}

theorem of_eq (h : w'.calls = w.calls) : Logs P w w' := ⟨[], by simp [h], by simp⟩

theorem trans (h1 : Logs P w w') (h2 : Logs P w' w'') : Logs P w w'' := by
  obtain ⟨cs, h1, hP1⟩ := h1
  obtain ⟨cs', h2, hP2⟩ := h2
  refine ⟨cs ++ cs', by rw [h2, h1, List.append_assoc], fun c hc => ?_⟩
  rcases List.mem_append.mp hc with hc | hc
  · exact hP1 c hc
  · exact hP2 c hc

theorem mono (h : Logs P w w') (hPQ : ∀ c, P c → Q c) : Logs Q w w' := by
  obtain ⟨cs, h, hP⟩ := h
  exact ⟨cs, h, fun c hc => hPQ c (hP c hc)⟩

theorem sys {op : HostOp} {p : Str} {f : Bool} {run : Host → Except Errno Host}
    (hP : P ⟨op, p, w.host.resolve p f⟩) : Logs P w (w.sys op p f run).2 := by
  refine ⟨[⟨op, p, w.host.resolve p f⟩], ?_, by simpa using hP⟩
  rw [sys_snd]
  rfl

theorem unlink {p : Str} (hP : P ⟨.unlink, p, w.host.resolve p false⟩) : Logs P w (w.unlink p).2 :=
  sys hP

theorem of_sys {R : HostCall → Prop} {w1 : World} {op : HostOp} {p : Str} {f : Bool}
    {run : Host → Except Errno Host} (h : Logs P w w') (h1 : Logs Q w w1)
    (h2 : Logs R (w1.sys op p f run).2 w') : P ⟨op, p, w1.host.resolve p f⟩ := by
  obtain ⟨cs, h, hP⟩ := h
  obtain ⟨cs1, h1, _⟩ := h1
  obtain ⟨cs2, h2, _⟩ := h2
  have hsys : (w1.sys op p f run).2.calls = w1.calls ++ [⟨op, p, w1.host.resolve p f⟩] := by
    cases hr : run w1.host with
    | error e => rw [sys_of_error hr]; rfl
    | ok h => rw [sys_of_ok hr]; rfl
  rw [h2, hsys, h1, List.append_assoc, List.append_assoc] at h
  exact hP _ (by rw [← List.append_cancel_left h]; simp)

end Logs

/-- The calls that copying up and keeping the journals make. -/
def copyOps : List HostOp := [.mkdir, .chmod, .writeFile, .append]

/-- Only the host tree, the log, the whiteouts and the recorded modes differ, and the host calls
on the way are those of copying up. -/
structure FilesOnly (w w' : World) : Prop where
  same : w' = { w with
    host := w'.host, calls := w'.calls, whiteouts := w'.whiteouts, metas := w'.metas }
  ops : Logs (fun c => c.op ∈ copyOps) w w'

namespace FilesOnly

variable {w w' w'' : World}

@[refl] theorem refl (w : World) : FilesOnly w w := ⟨rfl, .of_eq rfl⟩

theorem trans (h1 : FilesOnly w w') (h2 : FilesOnly w' w'') : FilesOnly w w'' := by
  refine ⟨?_, h1.ops.trans h2.ops⟩
  rw [h2.same, h1.same]

theorem mounts (h : FilesOnly w w') : w'.mounts = w.mounts := by
  rw [h.same]

theorem links (h : FilesOnly w w') : w'.links = w.links := by
  rw [h.same]

theorem sys (w : World) {op : HostOp} (hop : op ∈ copyOps) (p : Str) (f : Bool)
    (run : Host → Except Errno Host) : FilesOnly w (w.sys op p f run).2 := by
  refine ⟨?_, .sys hop⟩
  rw [sys_snd]
  rfl

theorem appendTo (w : World) (journal : Str) : FilesOnly w (w.appendTo journal) := by
  unfold World.appendTo
  split_ifs
  · rfl
  · exact sys w (by decide) _ _ _

theorem addWhiteout (w : World) (abs : Str) : FilesOnly w (w.addWhiteout abs) := by
  unfold World.addWhiteout
  split_ifs
  · rfl
  · have h1 : FilesOnly w { w with whiteouts := insert abs w.whiteouts } := ⟨rfl, .of_eq rfl⟩
    exact h1.trans (appendTo _ _)

theorem clearWhiteout (w : World) (abs : Str) : FilesOnly w (w.clearWhiteout abs) := by
  unfold World.clearWhiteout
  split_ifs
  · have h1 : FilesOnly w { w with whiteouts := w.whiteouts.erase abs } := ⟨rfl, .of_eq rfl⟩
    exact h1.trans (appendTo _ _)
  · rfl

theorem putMetas (w : World) (s : MetaStore) (touched : Bool) :
    FilesOnly w (w.putMetas s touched) := by
  have h1 : FilesOnly w { w with metas := s } := ⟨rfl, .of_eq rfl⟩
  unfold World.putMetas
  split_ifs
  · exact h1.trans (appendTo _ _)
  · exact h1

theorem setMetaMode (w : World) (abs : Str) (mode : Nat) (hm : Option Nat) :
    FilesOnly w (w.setMetaMode abs mode hm) := putMetas w _ _

theorem foldl {α β : Type} {f : World × β → α → World × β}
    (hf : ∀ acc a, FilesOnly acc.1 (f acc a).1) (as : List α) (acc : World × β) :
    FilesOnly acc.1 (as.foldl f acc).1 := by
  induction as generalizing acc with
  | nil => rfl
  | cons a as ih => exact trans (hf acc a) (ih (f acc a))

end FilesOnly

end World

end Linuxity.Kernel

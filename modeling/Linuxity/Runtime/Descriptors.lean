import Linuxity.Abi.Opens
import Linuxity.Runtime.Fork

/-!
# Runtime.Descriptors — what is recorded for a descriptor

One hook runs after every redirected call and takes its result for a descriptor.  After an open it
is one.  After other calls it may be a count or a status, and the record of the descriptor that
happens to have this number is lost.
-/

namespace Linuxity.Runtime

open Posix Wire Kernel Abi Logic World

/-- What is recorded for a number: its path, and what its stream lists.  How far the stream has been
read is not part of it. -/
def bound (T : FdTable) (n : Int) : Option Str × Option (List VirtualDirent × Str) :=
  (T.paths n, (T.dirs n).map fun ds => (ds.entries, ds.lazy))

def Gives (a : Answer) (n : Int) : Prop := ∃ v, a = .ret v ∧ 0 ≤ v ∧ intOf v = n

/-! ## The calls -/

/-- Where the path of an open is, and its flags. -/
structure OpenForm where
  arg : Nat
  at_ : Bool
  flags : Nat

def openForm (t : Task) (r : Regs) : Sysno → Option OpenForm
  | .open_ => some ⟨0, false, r.arg 1⟩
  | .openat => some ⟨1, true, r.arg 2⟩
  | .creat => some ⟨0, false, creatFlags⟩
  | .openat2 => some ⟨1, true,
      ((t.mem.copyIn (r.arg 2) 8).getD []).reverse.foldl (fun v c => v * 256 + c.toNat) 0⟩
  | _ => none

def dupOf (r : Regs) : Sysno → Option DupMirror
  | .dup => some { src := int32 (r.arg 0) }
  | .dup2 | .dup3 => some { src := int32 (r.arg 0), closeFirst := int32 (r.arg 1) }
  | .fcntl => if r.arg 1 = 0 ∨ r.arg 1 = 1030 then some { src := int32 (r.arg 0) } else none
  | _ => none

def reads : Sysno → Bool
  | .lseek | .getdents64 => true
  | _ => false

variable {r : Regs} {sc : Sysno} {t : Task}

theorem serve_dup {m : DupMirror} (hm : dupOf r sc = some m) :
    serve t r sc = pure (.forward (some m)) ∧ openForm t r sc = none := by
  cases sc with
  | dup | dup2 | dup3 =>
    cases hm
    exact ⟨rfl, rfl⟩
  | fcntl =>
    unfold dupOf at hm
    split_ifs at hm with h
    cases hm
    refine ⟨?_, rfl⟩
    change pure (doFcntl r) = _
    rw [doFcntl, if_pos h]
  | _ => cases hm

theorem serve_modest_of_none (ho : openForm t r sc = none) (hd : dupOf r sc = none) :
    Modestly (serve t r sc) := by
  refine serve_modest t r (fun h => ?_) (fun h => ?_) fun h => ?_
  · simp only [List.mem_cons, List.not_mem_nil, or_false] at h
    rcases h with rfl | rfl | rfl | rfl <;> cases ho
  · simp only [List.mem_cons, List.not_mem_nil, or_false] at h
    rcases h with rfl | rfl | rfl <;> cases hd
  · subst h
    unfold dupOf at hd
    split_ifs at hd with h
    rw [doFcntl, if_neg h]

/-! ## The property -/

/-- What an open binds its descriptor to: the path it was given, and a stream of that path, if it
was not opened for writing; or a synthesized file and its entries, if that is a directory. -/
inductive Names (t : Task) (r : Regs) (f : OpenForm) (w : World) :
    Option Str × Option (List VirtualDirent × Str) → Prop
  | host {abs : Str} (s : Option (List VirtualDirent × Str))
      (hn : resolveArg t r f.arg f.at_ true w = some abs)
      (hs : s = none ∨ s = some ([], abs)) : Names t r f w (some abs, s)
  | virt {abs : Str} {vf : VirtualFile} (hn : resolveArg t r f.arg f.at_ true w = some abs)
      (hp : produce w
        (virtualOf (classify abs (writable f.flags) true (openIntent f.flags) w).1 abs) = .ok vf) :
      Names t r f w
        (some (virtualOf (classify abs (writable f.flags) true (openIntent f.flags) w).1 abs),
        if vf.isDir then some (vf.entries, []) else none)

/-- The call opened, closed, duplicated onto or read `n`. -/
inductive Concerns (t : Task) (r : Regs) (sc : Sysno) (a : Answer) (n : Int) : Prop
  | opened (f : OpenForm) (hf : openForm t r sc = some f) (hn : Gives a n)
  | closed (hsc : sc = .close) (hn : n = int32 (r.arg 0))
  | dupped (m : DupMirror) (hm : dupOf r sc = some m) (hn : Gives a n)
  | read (hsc : reads sc) (hn : n = int32 (r.arg 0))

/-- A stream that is read keeps its listing, once it has one; it gets that of its directory. -/
structure StreamRead (w : World) (d d' : Option DirStream) : Prop where
  none : d = none → d' = none
  built : ∀ ds, d = some ds → ds.lazy = [] →
    ∃ ds', d' = some ds' ∧ ds'.entries = ds.entries ∧ ds'.lazy = []
  lazy : ∀ ds ds', d = some ds → ds.lazy ≠ [] → d' = some ds' →
    ds'.entries = overlayDirUnion w ds.lazy

/-- The records follow the descriptors: `w` is the world in which the call was made, `w'` the one it
left. -/
structure Follows (t : Task) (r : Regs) (sc : Sysno) (w : World) (a : Answer)
    (w' : World) : Prop where
  others : ∀ q, q ≠ t.pid → w'.fdTables q = w.fdTables q
  frame : ∀ n, ¬Concerns t r sc a n → bound w'.fds n = bound w.fds n
  opened : ∀ f n, openForm t r sc = some f → Gives a n → Names t r f w (bound w'.fds n)
  waits : ∀ p, a = .waits p → ∃ f, openForm t r sc = some f ∧ Names t r f w (some p.path, none)
  dupped : ∀ m n, dupOf r sc = some m → Gives a n → bound w'.fds n = bound w.fds m.src
  paths : reads sc → w'.fds.paths = w.fds.paths
  streams : reads sc → StreamRead w (w.fds.dirs (int32 (r.arg 0))) (w'.fds.dirs (int32 (r.arg 0)))

/-! ## What a call has to meet -/

structure Meets (t : Task) (r : Regs) (sc : Sysno) (k : HostKernel) (w : World) : Prop where
  /-- The tracer does not fail on an open. -/
  traced : (openForm t r sc).isSome → ∀ x h e, (k x h).reply ≠ .error e
  /-- The kernel opens nothing for an empty path. -/
  empty : ∀ f, openForm t r sc = some f → t.cstr r f.arg = [] →
    ∀ n, ¬Gives (serveCall t r sc k w).1 n
  /-- A redirected call that is no open fails, or its result is a number without a record. -/
  result : openForm t r sc = none → ∀ rd, (dispatch t r sc w).1 = .redirect rd → rd.isNoop = false →
    rd.forceRet = none → ∀ n, Gives (serveCall t r sc k w).1 n →
    bound (setCurrentPid t.pid t.ppid w).fds n = (none, none)
  /-- The kernel duplicates onto the number it is told. -/
  target : ∀ m n, dupOf r sc = some m → Gives (serveCall t r sc k w).1 n → 0 ≤ m.closeFirst →
    n = m.closeFirst
  /-- A new number has nothing recorded that its source has not. -/
  stale : ∀ m n, dupOf r sc = some m → Gives (serveCall t r sc k w).1 n → m.closeFirst < 0 →
    n ≠ m.src →
    ((setCurrentPid t.pid t.ppid w).fds.paths m.src = none →
      (setCurrentPid t.pid t.ppid w).fds.paths n = none) ∧
    ((setCurrentPid t.pid t.ppid w).fds.dirs m.src = none →
        (setCurrentPid t.pid t.ppid w).fds.dirs n = none)

/-! ## The tables -/

theorem setFds_fds (w : World) (T : FdTable) : (w.setFds T).fds = T := by
  unfold World.fds World.setFds
  simp

theorem bound_unbindFd (T : FdTable) (fd n : Int) :
    bound (T.unbindFd fd) n = if n = fd then (none, none) else bound T n := by
  unfold bound FdTable.unbindFd
  by_cases h : n = fd
  · simp [h]
  · simp [h]

theorem bound_mirrorFd {T : FdTable} {src dst : Int} (n : Int) (h : n = dst → dst ≠ src →
      (T.paths src = none → T.paths dst = none) ∧ (T.dirs src = none → T.dirs dst = none)) :
    bound (T.mirrorFd src dst) n = if n = dst then bound T src else bound T n := by
  unfold FdTable.mirrorFd
  by_cases hsd : src = dst
  · subst hsd
    rw [if_pos rfl]
    split_ifs with hn
    · rw [hn]
    · rfl
  rw [if_neg hsd]
  unfold bound
  by_cases hn : n = dst
  · obtain ⟨hp, hd⟩ := h hn (Ne.symm hsd)
    subst hn
    rw [if_pos rfl]
    refine Prod.ext ?_ ?_
    · rcases hs : T.paths src with _ | p
      · exact hp hs
      · simp
    · rcases hs : T.dirs src with _ | d
      · simp [hd hs]
      · simp
  · rw [if_neg hn]
    refine Prod.ext ?_ ?_
    · rcases T.paths src with _ | p
      · rfl
      · simp [hn]
    · rcases T.dirs src with _ | d
      · rfl
      · simp [hn]

/-! ## After an open -/

theorem clearPending_cleared (w : World) : Cleared (clearPending w) := ⟨rfl, rfl, rfl, rfl⟩

theorem noteOpenedFd_cleared (ret : Int) (opened : Option FdFile) (w : World) :
    Cleared (noteOpenedFd ret opened w) := by
  unfold noteOpenedFd
  split_ifs <;> exact clearPending_cleared _

/-- The stream an open has left pending. -/
def pendingStream (w : World) : Option (List VirtualDirent × Str) :=
  if !w.pendingDir then none
  else if w.pendingLazy ≠ [] then some ([], w.pendingLazy)
  else some (w.pendingEntries, [])

theorem bindOpened_bound (fd : Int) (opened : Option FdFile) (w : World) (n : Int) :
    bound (bindOpened fd opened (w.setFds (w.fds.unbindFd fd))).fds n =
      if n = fd then (some w.pendingOpen, pendingStream w) else bound w.fds n := by
  unfold bindOpened
  dsimp only
  have hpath : (w.setFds (w.fds.unbindFd fd)).pendingOpen = w.pendingOpen := rfl
  rw [setFds_fds, hpath]
  -- the path is recorded; clearing the whiteout and recording the mode leave the table alone
  have hfds :
      ((w.setFds (w.fds.unbindFd fd)).setFds ((w.fds.unbindFd fd).bindFd fd w.pendingOpen)).fds =
      (w.fds.unbindFd fd).bindFd fd w.pendingOpen := setFds_fds _ _
  have hpend :
      pendingStream
      ((w.setFds (w.fds.unbindFd fd)).setFds ((w.fds.unbindFd fd).bindFd fd w.pendingOpen)) =
      pendingStream w := rfl
  generalize (w.setFds (w.fds.unbindFd fd)).setFds ((w.fds.unbindFd fd).bindFd fd w.pendingOpen) =
    w1 at hfds hpend ⊢
  have h2 : Steady w1
      (if has w1.pendingFlags .creat then recordCreatedMode opened (w1.clearWhiteout w1.pendingOpen)
          else w1) := by
    split_ifs
    · exact (Steady.clearWhiteout w1 _).trans (recordCreatedMode_steady _ _)
    · rfl
  generalize (if has w1.pendingFlags .creat
      then recordCreatedMode opened (w1.clearWhiteout w1.pendingOpen) else w1) = w2
    at h2 ⊢
  have hpend2 : pendingStream w2 = pendingStream w := by
    rw [← hpend, h2]
    rfl
  have hfds2 : w2.fds = (w.fds.unbindFd fd).bindFd fd w.pendingOpen := h2.fds.trans hfds
  rw [← hpend2]
  unfold pendingStream
  by_cases hd : (!w2.pendingDir)
  · rw [if_pos hd, if_pos hd, hfds2]
    by_cases hn : n = fd
    · simp [bound, FdTable.bindFd, FdTable.unbindFd, hn]
    · simp [bound, FdTable.bindFd, FdTable.unbindFd, hn]
  rw [if_neg hd, if_neg hd]
  by_cases hl : w2.pendingLazy ≠ []
  · rw [if_pos hl, if_pos hl, setFds_fds, hfds2]
    by_cases hn : n = fd
    · simp [bound, FdTable.bindFd, FdTable.unbindFd, FdTable.bindLazyDir, hn]
    · simp [bound, FdTable.bindFd, FdTable.unbindFd, FdTable.bindLazyDir, hn]
  · rw [if_neg hl, if_neg hl, setFds_fds, hfds2]
    by_cases hn : n = fd
    · simp [bound, FdTable.bindFd, FdTable.unbindFd, FdTable.bindDir, hn]
    · simp [bound, FdTable.bindFd, FdTable.unbindFd, FdTable.bindDir, hn]

/-- What the hook binds a descriptor to. -/
def newBinding (w : World) : Option Str × Option (List VirtualDirent × Str) :=
  if w.pendingOpen = [] then (none, none) else (some w.pendingOpen, pendingStream w)

theorem noteOpenedFd_bound {ret : Int} (h : 0 ≤ ret) (opened : Option FdFile) (w : World)
    (n : Int) :
    bound (noteOpenedFd ret opened w).fds n =
      if n = intOf ret then newBinding w else bound w.fds n := by
  have hnot : ¬ret < 0 := by omega
  have hsame : (w.setFds (w.fds.unbindFd (intOf ret))).pendingOpen = w.pendingOpen := rfl
  unfold noteOpenedFd newBinding
  dsimp only
  rw [if_neg hnot, hsame]
  by_cases hp : w.pendingOpen = []
  · have hcl : (clearPending (w.setFds (w.fds.unbindFd (intOf ret)))).fds =
        (w.setFds (w.fds.unbindFd (intOf ret))).fds := rfl
    rw [if_pos hp, if_pos hp, hcl, setFds_fds, bound_unbindFd]
  · rw [if_neg hp, if_neg hp]
    exact bindOpened_bound _ _ _ _

theorem noteOpenedFd_failed {ret : Int} (h : ret < 0) (opened : Option FdFile) (w : World) :
    (noteOpenedFd ret opened w).fds = w.fds := by
  unfold noteOpenedFd
  rw [if_pos h]
  rfl

/-! ## One turn -/

theorem gives_ret {v n : Int} : Gives (.ret v) n ↔ 0 ≤ v ∧ intOf v = n := by
  constructor
  · rintro ⟨v', h, h0, hn⟩
    cases h
    exact ⟨h0, hn⟩
  · rintro ⟨h0, hn⟩
    exact ⟨v, rfl, h0, hn⟩

theorem not_gives_recover (e : Errno) (n : Int) : ¬Gives (recover e) n := by
  have := errnoCode_pos e
  unfold recover
  split_ifs
  · rintro ⟨v, h, -⟩
    cases h
  · rw [gives_ret]
    omega

/-- The result was noted: the descriptor it gives has the binding `b`, the others keep theirs. -/
structure Noted (w : World) (b : Option Str × Option (List VirtualDirent × Str)) (a : Answer)
    (w' : World) : Prop where
  cleared : Cleared w'
  given : ∀ n, Gives a n → bound w'.fds n = b
  kept : ∀ n, ¬Gives a n → bound w'.fds n = bound w.fds n
  prompt : ∀ p, a ≠ .waits p

section Turn

variable {t : Task} {r : Regs} {sc : Sysno} {k : HostKernel} {w : World}

variable {a : Answer} {w' w1 : World} {f : OpenForm} {o : Outcome} {m : DupMirror}

theorem noted_same (hc : Cleared w') (hf : w'.fds = w.fds) (hn : ∀ n, ¬Gives a n)
    (hp : ∀ p, a ≠ .waits p)
    (b : Option Str × Option (List VirtualDirent × Str)) : Noted w b a w' :=
  ⟨hc, fun n h => absurd h (hn n), fun n _ => by rw [hf], hp⟩

theorem recover_ne_waits (e : Errno) (p : PendingOpen) : recover e ≠ .waits p := by
  unfold recover
  split_ifs <;> rintro ⟨⟩

/-- A call with the hook: nothing may be left over if the tracer fails. -/
theorem runNoting_noted (x : Handed) (h : (∀ x h e, (k x h).reply ≠ .error e) ∨ Cleared w) :
    Noted w (newBinding w) (runNoting k x noteOpenedFd none w).1
      (runNoting k x noteOpenedFd none w).2 := by
  unfold runNoting
  rw [Act.bind_apply]
  rcases hr : (runIn k x w).1.reply with e | v
  · rcases h with h | h
    · exact absurd hr (h x w.host e)
    · have hc : Cleared (runIn k x w).2 := ⟨h.path, h.dir, h.lazy, h.entries⟩
      have hf : (runIn k x w).2.fds = w.fds := rfl
      exact noted_same hc hf (not_gives_recover e) (recover_ne_waits e) _
  · have hbind : ∀ n, bound (runIn k x w).2.fds n = bound w.fds n := fun _ => rfl
    have hnew : newBinding (runIn k x w).2 = newBinding w := rfl
    refine ⟨noteOpenedFd_cleared _ _ _, fun n hn => ?_, fun n hn => ?_, fun p => by rintro ⟨⟩⟩
    · obtain ⟨h0, rfl⟩ := gives_ret.1 hn
      exact (noteOpenedFd_bound h0 _ _ _).trans (by rw [if_pos rfl, hnew])
    · by_cases h0 : 0 ≤ v
      · have hne : n ≠ intOf v := fun h => hn (gives_ret.2 ⟨h0, h.symm⟩)
        exact (noteOpenedFd_bound h0 _ _ _).trans (by rw [if_neg hne, hbind])
      · exact congrArg (bound · n) (noteOpenedFd_failed (by omega) _ _)

theorem passOn_fds (x : Handed) : (passOn k x w).2.fds = w.fds ∧
    (Cleared w → Cleared (passOn k x w).2) ∧ ∀ p, (passOn k x w).1 ≠ .waits p := by
  unfold passOn
  rw [Act.bind_apply]
  have hf : (runIn k x w).2.fds = w.fds := rfl
  have hc : Cleared w → Cleared (runIn k x w).2 := fun h => ⟨h.path, h.dir, h.lazy, h.entries⟩
  rcases (runIn k x w).1.reply with e | v
  · exact ⟨hf, hc, recover_ne_waits e⟩
  · exact ⟨hf, hc, fun p => by rintro ⟨⟩⟩

/-- What an open does to the records. -/
structure OpenDone (t : Task) (r : Regs) (f : OpenForm) (w : World) (a : Answer)
    (w' : World) : Prop where
  cleared : Cleared w'
  given : ∀ n, Gives a n → Names t r f w (bound w'.fds n)
  kept : ∀ n, ¬Gives a n → bound w'.fds n = bound w.fds n
  waits : ∀ p, a = .waits p → p.path ≠ [] ∧ Names t r f w (some p.path, none)

theorem Noted.openDone {b : Option Str × Option (List VirtualDirent × Str)}
    (h : Noted w1 b a w') (hf : w1.fds = w.fds) (hb : Names t r f w b) : OpenDone t r f w a w' :=
  ⟨h.cleared, fun n hn => by rw [h.given n hn]; exact hb, fun n hn => by rw [h.kept n hn, hf],
    fun p hp => absurd hp (h.prompt p)⟩

theorem openDone_declined (hc : Cleared w) (ho : Declined o) (hw : Steady w w1) :
    OpenDone t r f w (complete t r sc k o w1).1 (complete t r sc k o w1).2 := by
  rcases ho with e | ⟨v, ns, h⟩ | _
  · have := errnoCode_pos e
    refine ⟨hc.of_steady hw, fun n hn => ?_, fun n _ => by rw [← hw.fds]; rfl,
      fun p hp => by cases hp⟩
    have hn : 0 ≤ -errnoCode e ∧ _ := gives_ret.1 hn
    omega
  · have ha : (complete t r sc k (.virtualize v ns) w1).1 = .again := if_pos h
    rw [ha]
    refine ⟨hc.of_steady hw, fun n hn => ?_, fun n _ => by rw [← hw.fds]; rfl,
      fun p hp => by cases hp⟩
    obtain ⟨v, hv, -⟩ := hn
    cases hv
  · refine ⟨hc.of_steady hw, fun n hn => ?_, fun n _ => by rw [← hw.fds]; rfl,
      fun p hp => by cases hp⟩
    obtain ⟨v, hv, -⟩ := hn
    cases hv

theorem openDone_host (ht : ∀ x h e, (k x h).reply ≠ .error e) {abs lazy q : Str} {a fl : Nat}
    {b : Bool} (hn : resolveArg t r f.arg f.at_ true w = some abs) (hl : lazy = [] ∨ lazy = abs)
    (hw : Steady (pendingOn w abs fl (lazy ≠ []) lazy []) w1) :
    OpenDone t r f w
      (complete t r sc k (.redirect { first := { arg := a, hostPath := q }, mayBlock := b }) w1).1
      (complete t r sc k (.redirect { first := { arg := a, hostPath := q }, mayBlock := b })
        w1).2 := by
  have habs : abs ≠ [] := resolveArg_ne_nil hn
  have hfds : w1.fds = w.fds := hw.fds
  have hpath : w1.pendingOpen = abs := hw.pendingOpen
  rcases b with _ | _
  · have hact :
        complete t r sc k (.redirect { first := { arg := a, hostPath := q }, mayBlock := false })
        w1 = runNoting k (.paths (rebaseOnDirfd t r sc { arg := a, hostPath := q } w1) none)
        noteOpenedFd none w1 := rfl
    rw [hact]
    refine (runNoting_noted _ (.inl ht)).openDone hfds ?_
    have hstream : pendingStream w1 = pendingStream (pendingOn w abs fl (lazy ≠ []) lazy []) := by
      rw [hw]
      rfl
    have hnew : newBinding w1 = (some abs, if lazy ≠ [] then some ([], lazy) else none) := by
      unfold newBinding
      rw [if_neg (by rw [hpath]; exact habs), hpath, hstream]
      by_cases h : lazy = []
      · simp [pendingStream, pendingOn, h]
      · simp [pendingStream, pendingOn, h]
    rw [hnew]
    refine .host _ hn ?_
    rcases hl with rfl | rfl
    · exact .inl rfl
    · exact .inr (if_pos habs)
  · -- the open may block: it is finished later
    rcases hr : (runIn k (.paths { arg := a, hostPath := q } none) (clearPending w1)).1.reply with
      e | v
    · exact absurd hr (ht _ _ e)
    have hact :
        complete t r sc k (.redirect { first := { arg := a, hostPath := q }, mayBlock := true })
        w1 = (.waits ⟨t.pid, t.ppid, w1.pendingOpen, w1.pendingFlags⟩,
        (runIn k (.paths { arg := a, hostPath := q } none) (clearPending w1)).2) := by
      rw [complete, redirectCall, if_neg (by simp [Redirect.isNoop]), if_pos (by rfl)]
      refine (Act.bind_apply _ _ _).trans ?_
      simp only [takePendingOpen, Act.bind_apply, hr]
      rfl
    rw [hact]
    have hf : (runIn k (.paths { arg := a, hostPath := q } none) (clearPending w1)).2.fds = w.fds :=
      hfds
    have hcl : Cleared (runIn k (.paths { arg := a, hostPath := q } none) (clearPending w1)).2 :=
      ⟨rfl, rfl, rfl, rfl⟩
    refine ⟨hcl, fun n hn => ?_, fun n _ => by rw [hf], fun x hx => ?_⟩
    · obtain ⟨v, hv, -⟩ := hn
      cases hv
    · obtain rfl := (Answer.waits.inj hx).symm
      simp only [hpath]
      exact ⟨habs, .host none hn (.inl rfl)⟩

theorem openDone (ht : ∀ x h e, (k x h).reply ≠ .error e) (hc : Cleared w)
    (h : OpenEnds t r f.arg f.at_ f.flags w o w1)
    (hempty : t.cstr r f.arg = [] → ∀ n, ¬Gives (complete t r sc k o w1).1 n) :
    OpenDone t r f w (complete t r sc k o w1).1 (complete t r sc k o w1).2 := by
  rcases h with ⟨ho, hw⟩ | hraw | ⟨hn, hl, hw⟩ | ⟨hn, hp, hw⟩
  · exact openDone_declined hc ho hw
  · obtain ⟨hf, hcl, hwait⟩ := @passOn_fds k w .asIs
    exact ⟨hcl hc, fun n hn => absurd hn (hempty hraw n), fun n _ => congrArg (bound · n) hf,
      fun p hp => absurd hp (hwait p)⟩
  · exact openDone_host ht hn hl hw
  · rename_i abs content vf
    have habs : abs ≠ [] := resolveArg_ne_nil hn
    have hv :
        virtualOf (classify abs (writable f.flags) true (openIntent f.flags) w).1 abs ≠ [] := by
      unfold virtualOf
      split_ifs with h
      · exact habs
      · exact h
    refine (runNoting_noted _ (.inl ht)).openDone hw.fds ?_
    have hstream : pendingStream w1 = if vf.isDir then some (vf.entries, []) else none := by
      rw [hw]
      rcases vf.isDir with _ | _ <;> rfl
    have hpath : w1.pendingOpen = virtualOf
        (classify abs (writable f.flags) true (openIntent f.flags) w).1 abs :=
      hw.pendingOpen
    unfold newBinding
    rw [hpath, if_neg hv, hstream]
    exact .virt hn hp

/-- Nothing is recorded for a new descriptor; the number a redirected call returns loses its
record. -/
structure ModestDone (o : Outcome) (w : World) (a : Answer) (w' : World) : Prop where
  cleared : Cleared w'
  prompt : ∀ p, a ≠ .waits p
  lost : ∀ n, bound w'.fds n ≠ bound w.fds n →
    (∃ rd, o = .redirect rd ∧ rd.isNoop = false ∧ rd.forceRet = none) ∧ Gives a n ∧
    bound w'.fds n = (none, none)

theorem modestDone_same (hc : Cleared w') (hf : w'.fds = w.fds)
    (hp : ∀ p, a ≠ .waits p) : ModestDone o w a w' := ⟨hc, hp, fun n hn => absurd (by rw [hf]) hn⟩

theorem cleared_of_hostOnly {w : World} (hc : Cleared w) (h : HostOnly w w') : Cleared w' := by
  obtain ⟨h1, h2, h3, h4⟩ := hc
  rw [h]
  exact ⟨h1, h2, h3, h4⟩

theorem fds_of_hostOnly {w : World} (h : HostOnly w w') : w'.fds = w.fds := by
  rw [h]
  rfl

theorem modestDone_passOn (o : Outcome) (x : Handed) (h : HostOnly w w1) (hc : Cleared w) :
    ModestDone o w (passOn k x w1).1 (passOn k x w1).2 := by
  obtain ⟨hf, hcl, hwait⟩ := @passOn_fds k w1 x
  exact modestDone_same (hcl (cleared_of_hostOnly hc h)) (hf.trans (fds_of_hostOnly h)) hwait

theorem modestDone_run {rd : Redirect} (hnoop : rd.isNoop = false) (x : Handed) (h : HostOnly w w1)
    (hc : Cleared w) :
    ModestDone (.redirect rd) w
      (runNoting k x (if rd.forceRet.isSome then fun _ _ w => w else noteOpenedFd) rd.forceRet w1).1
      (runNoting k x (if rd.forceRet.isSome then fun _ _ w => w else noteOpenedFd) rd.forceRet
        w1).2 := by
  have hc1 := cleared_of_hostOnly hc h
  have hf := fds_of_hostOnly h
  rcases hforce : rd.forceRet with _ | v
  · have hn : Noted w1 (newBinding w1) (runNoting k x noteOpenedFd none w1).1
        (runNoting k x noteOpenedFd none w1).2 :=
      runNoting_noted x (.inr hc1)
    have hnew : newBinding w1 = (none, none) := if_pos hc1.path
    rw [hnew] at hn
    refine ⟨hn.cleared, hn.prompt, fun n hne => ?_⟩
    by_cases hg : Gives (runNoting k x noteOpenedFd none w1).1 n
    · exact ⟨⟨rd, rfl, hnoop, hforce⟩, hg, hn.given n hg⟩
    · exact absurd ((hn.kept n hg).trans (by rw [hf])) hne
  · unfold runNoting
    rw [Act.bind_apply]
    have hcr : Cleared (runIn k x w1).2 := cleared_of_hostOnly hc1 rfl
    have hfr : (runIn k x w1).2.fds = w.fds := hf
    rcases (runIn k x w1).1.reply with e | v'
    · exact modestDone_same hcr hfr (recover_ne_waits e)
    · exact modestDone_same hcr hfr fun p => by rintro ⟨⟩

theorem modestDone_redirect {rd : Redirect} (hb : rd.mayBlock = false) (hc : Cleared w) :
    ModestDone (.redirect rd) w (redirectCall t r sc k rd w).1 (redirectCall t r sc k rd w).2 := by
  unfold redirectCall
  by_cases hnoop : rd.isNoop
  · rw [if_pos hnoop]
    exact modestDone_passOn _ .asIs rfl hc
  rw [if_neg hnoop]
  simp only [hb, Bool.false_and, Bool.false_eq_true, if_false]
  have hnoop : rd.isNoop = false := by simpa using hnoop
  by_cases hmk : rd.makeParents
  · rw [if_pos hmk]
    refine modestDone_run hnoop _ ?_ hc
    rcases rd.second with _ | p
    · exact makeHostParents_hostOnly _ w
    · exact (makeHostParents_hostOnly _ w).trans (makeHostParents_hostOnly _ _)
  · rw [if_neg hmk]
    exact modestDone_run hnoop _ rfl hc

theorem modestDone (ho : Modest o) (hc : Cleared w) :
    ModestDone o w (complete t r sc k o w).1 (complete t r sc k o w).2 := by
  rcases o with ⟨v, ns⟩ | m | rd | _ | ⟨addr, bytes, lenArg, newLen⟩ | _ | _
  · refine modestDone_same hc rfl fun p => ?_
    change (if 0 < ns then Answer.again else .ret v) ≠ _
    split_ifs <;> rintro ⟨⟩
  · obtain rfl : m = none := ho
    exact modestDone_passOn _ .asIs rfl hc
  · exact modestDone_redirect ho hc
  · exact ho.elim
  · exact modestDone_passOn _ (.sockaddr addr bytes lenArg newLen)
      (makeHostParents_hostOnly bytes w) hc
  · exact modestDone_passOn _ (.program _ _ _ _ _) rfl hc
  · exact modestDone_same hc rfl fun p => by rintro ⟨⟩

/-! ## The other calls -/

theorem cleared_of_idle {w : World} (hc : Cleared w) (h : Idle w w') :
    Cleared w' ∧ w'.fds = w.fds := by
  obtain ⟨⟨ht, hp⟩, h1, -, h3, h4, h5⟩ := h
  refine ⟨⟨h1.trans hc.path, h3.trans hc.dir, h4.trans hc.lazy, h5.trans hc.entries⟩, ?_⟩
  unfold World.fds
  rw [ht, hp]

theorem serve_idle (ho : openForm t r sc = none) (hcl : sc ≠ .close) (hr : reads sc = false) :
    Keeps Idle (serve t r sc) := by
  by_cases h : Touches sc
  · cases h with
    | open_ | openat | creat | openat2 => cases ho
    | close => exact absurd rfl hcl
    | lseek | getdents64 => cases hr
    | chdir => exact (doChdir_ends (F := True) t r).keeps.mono fun _ _ => Moving.idle
    | fchdir => exact (doFchdir_ends r).keeps.mono fun _ _ => Moving.idle
  · exact (serve_steady t r h).mono fun _ _ => Lax.steady

/-- The stream of `fd` was read. -/
structure ReadDone (fd : Int) (w w' : World) : Prop where
  cleared : Cleared w → Cleared w'
  paths : w'.fds.paths = w.fds.paths
  dirs : ∀ n, n ≠ fd → w'.fds.dirs n = w.fds.dirs n
  stream : StreamRead w (w.fds.dirs fd) (w'.fds.dirs fd)

theorem streamRead_refl (w : World) (d : Option DirStream) :
    (∀ ds, d = some ds → ds.lazy = []) → StreamRead w d d := by
  intro h
  exact ⟨id, fun ds hd hl => ⟨ds, hd, rfl, hl⟩, fun ds _ hd hl _ => absurd (h ds hd) hl⟩

theorem dirStream_read (fd : Int) (w : World) : Runs (dirStream fd) w fun d w1 =>
    ReadDone fd w w1 ∧ w1.fds.dirs fd = d ∧ ∀ ds, d = some ds → ds.lazy = [] := by
  refine runs_iff.2 ?_
  unfold dirStream
  rcases hd : w.fds.dirs fd with _ | ds
  · exact ⟨⟨id, rfl, fun _ _ => rfl, streamRead_refl w _ fun ds h => by rw [hd] at h; cases h⟩, hd,
      fun ds h => by cases h⟩
  · dsimp only
    by_cases hl : ds.lazy = []
    · rw [if_pos hl]
      refine ⟨⟨id, rfl, fun _ _ => rfl, streamRead_refl w _ fun ds' h => ?_⟩, hd, fun ds' h => ?_⟩
      · rw [hd] at h
        rw [← Option.some.inj h]
        exact hl
      · rw [← Option.some.inj h]
        exact hl
    · rw [if_neg hl]
      set d := if overlayDirUnion w ds.lazy = [] then none
        else some { ds with entries := overlayDirUnion w ds.lazy, lazy := [] } with hdef
      have hfds : (w.setFds { w.fds with dirs := Function.update w.fds.dirs fd d }).fds =
          { w.fds with dirs := Function.update w.fds.dirs fd d } := setFds_fds _ _
      have hbuilt : ∀ ds', d = some ds' →
          ds'.entries = overlayDirUnion w ds.lazy ∧ ds'.lazy = [] := by
        intro ds' h
        rw [hdef] at h
        split_ifs at h
        rw [← Option.some.inj h]
        exact ⟨rfl, rfl⟩
      refine ⟨⟨fun hc => ⟨hc.path, hc.dir, hc.lazy, hc.entries⟩, by rw [hfds],
          fun n hn => by rw [hfds]; simp [hn], ?_⟩, by rw [hfds]; simp,
        fun ds' h => (hbuilt ds' h).2⟩
      rw [hd, hfds]
      simp only [Function.update_self]
      refine ⟨nofun, fun ds' h h' => ?_, fun ds' ds'' h _ h'' => ?_⟩
      · rw [← Option.some.inj h] at h'
        exact absurd h' hl
      · rw [← Option.some.inj h]
        exact (hbuilt ds'' h'').1

theorem ReadDone.setDirStream {fd : Int} {w : World} {ds : DirStream} (h : ReadDone fd w w1)
    (hd : w1.fds.dirs fd = some ds) (hl : ds.lazy = []) (pos off : Nat) :
    ReadDone fd w (setDirStream fd { ds with pos := pos, byteOff := off } w1) := by
  have hfds : (Abi.setDirStream fd { ds with pos := pos, byteOff := off } w1).fds =
      { w1.fds with
        dirs := Function.update w1.fds.dirs fd (some { ds with pos := pos, byteOff := off }) } :=
    setFds_fds _ _
  refine ⟨fun hc => ?_, by rw [hfds]; exact h.paths,
    fun n hn => by rw [hfds]; simpa [hn] using h.dirs n hn, ?_⟩
  · have := h.cleared hc
    exact ⟨this.path, this.dir, this.lazy, this.entries⟩
  · have hs := h.stream
    rw [hd] at hs
    rw [hfds]
    simp only [Function.update_self]
    refine ⟨fun h => absurd (hs.none h) nofun, fun ds' h h' => ?_, fun ds' ds'' h h' h'' => ?_⟩
    · obtain ⟨ds'', h1, h2, -⟩ := hs.built ds' h h'
      cases h1
      exact ⟨_, rfl, h2, hl⟩
    · cases h''
      exact hs.lazy ds' ds h h' rfl

theorem doLseek_read (r : Regs) (w : World) :
    Runs (doLseek r) w fun o w' => (∀ rd, o ≠ .redirect rd) ∧ ReadDone (int32 (r.arg 0)) w w' := by
  refine runs_bind (dirStream_read (int32 (r.arg 0)) w) ?_
  rintro d w1 ⟨h, hd, hl⟩
  rcases d with _ | ds
  · exact ⟨nofun, h⟩
  · exact runs_ite (fun _ => ⟨nofun, h⟩) fun _ =>
      runs_modify_bind ⟨nofun, h.setDirStream hd (hl ds rfl) _ _⟩

theorem doGetdents64_read (t : Task) (r : Regs) (w : World) : Runs (doGetdents64 t r) w fun o w' =>
    (∀ rd, o ≠ .redirect rd) ∧ ReadDone (int32 (r.arg 0)) w w' := by
  refine runs_bind (dirStream_read (int32 (r.arg 0)) w) ?_
  rintro d w1 ⟨h, hd, hl⟩
  rcases d with _ | ds
  · exact ⟨nofun, h⟩
  · have hset := h.setDirStream hd (hl ds rfl)
    refine runs_modify_bind
      (runs_ite (fun _ => ⟨fun rd => ?_, hset _ _⟩) fun _ => ⟨fun rd => ?_, hset _ _⟩)
    · split_ifs <;> exact nofun
    · unfold stored
      split_ifs <;> exact nofun

theorem noteDup_bound {ret : Int} (h0 : 0 ≤ ret) (opened : Option FdFile)
    (htarget : 0 ≤ m.closeFirst → intOf ret = m.closeFirst)
    (hstale : m.closeFirst < 0 → intOf ret ≠ m.src →
        (w.fds.paths m.src = none → w.fds.paths (intOf ret) = none) ∧
        (w.fds.dirs m.src = none → w.fds.dirs (intOf ret) = none)) (n : Int) :
    bound (noteDup m ret opened w).fds n =
      if n = intOf ret then bound w.fds m.src else bound w.fds n := by
  have hnot : ¬ret < 0 := by omega
  unfold noteDup
  rw [if_neg hnot]
  by_cases hcl : 0 ≤ m.closeFirst ∧ m.closeFirst ≠ m.src
  · rw [if_pos hcl, ← htarget hcl.1]
    have hne : m.src ≠ intOf ret := by
      rw [htarget hcl.1]
      exact hcl.2.symm
    rw [setFds_fds, setFds_fds, bound_mirrorFd n fun _ _ => by simp [FdTable.unbindFd],
      bound_unbindFd, bound_unbindFd, if_neg hne]
    split_ifs <;> rfl
  · rw [if_neg hcl, setFds_fds]
    refine bound_mirrorFd n fun hn hne => ?_
    by_cases hneg : m.closeFirst < 0
    · exact hstale hneg hne
    · have hcf : m.closeFirst = m.src := by
        by_contra hne'
        exact hcl ⟨by omega, hne'⟩
      exact absurd ((htarget (by omega)).trans hcf) hne

theorem noteDup_cleared (m : DupMirror) (ret : Int) (opened : Option FdFile) (hc : Cleared w) :
    Cleared (noteDup m ret opened w) := by
  have hset : ∀ {w : World} (T : FdTable), Cleared w → Cleared (w.setFds T) :=
    fun _ h => ⟨h.path, h.dir, h.lazy, h.entries⟩
  unfold noteDup
  split_ifs
  · exact hc
  · exact hset _ (hset _ hc)
  · exact hset _ hc

/-- A duplication: the new number has the binding of its source. -/
theorem runNoting_dup (m : DupMirror) (hc : Cleared w)
    (htarget : ∀ n, Gives (runNoting k .asIs (noteDup m) none w).1 n → 0 ≤ m.closeFirst →
        n = m.closeFirst)
    (hstale : ∀ n, Gives (runNoting k .asIs (noteDup m) none w).1 n → m.closeFirst < 0 → n ≠ m.src →
        (w.fds.paths m.src = none → w.fds.paths n = none) ∧
        (w.fds.dirs m.src = none → w.fds.dirs n = none)) :
    Noted w (bound w.fds m.src) (runNoting k .asIs (noteDup m) none w).1
      (runNoting k .asIs (noteDup m) none w).2 := by
  unfold runNoting at htarget hstale ⊢
  rw [Act.bind_apply] at htarget hstale ⊢
  have hc1 : Cleared (runIn k .asIs w).2 := cleared_of_hostOnly hc rfl
  have hf : (runIn k .asIs w).2.fds = w.fds := rfl
  generalize runIn k .asIs w = x at htarget hstale hc1 hf ⊢
  obtain ⟨⟨reply, host, opened⟩, w1⟩ := x
  rcases reply with e | v
  · exact noted_same hc1 hf (not_gives_recover e) (recover_ne_waits e) _
  · have hbound : 0 ≤ v → ∀ n, bound (noteDup m v opened w1).fds n =
        if n = intOf v then bound w.fds m.src else bound w.fds n := by
      intro h0 n
      have hg : Gives (.ret v) (intOf v) := gives_ret.2 ⟨h0, rfl⟩
      rw [noteDup_bound h0 opened (htarget _ hg) (by rw [hf]; exact hstale _ hg) n, hf]
    refine ⟨noteDup_cleared m v opened hc1, fun n hn => ?_, fun n hn => ?_, fun p => nofun⟩
    · obtain ⟨h0, rfl⟩ := gives_ret.1 hn
      exact (hbound h0 _).trans (if_pos rfl)
    · by_cases h0 : 0 ≤ v
      · have hne : n ≠ intOf v := fun h => hn (gives_ret.2 ⟨h0, h.symm⟩)
        exact (hbound h0 n).trans (if_neg hne)
      · have hneg : v < 0 := by omega
        have hsame : noteDup m v opened w1 = w1 := if_pos hneg
        change bound (noteDup m v opened w1).fds n = _
        rw [hsame, hf]

theorem complete_fds (ho : Modest o) (hnr : ∀ rd, o ≠ .redirect rd) :
    (complete t r sc k o w).2.fds = w.fds := by
  rcases o with ⟨v, ns⟩ | m | rd | _ | ⟨addr, bytes, lenArg, newLen⟩ | _ | _
  · rfl
  · obtain rfl : m = none := ho
    exact passOn_fds .asIs |>.1
  · exact absurd rfl (hnr rd)
  · exact ho.elim
  · exact (passOn_fds _).1.trans (fds_of_hostOnly (makeHostParents_hostOnly bytes w))
  · exact (passOn_fds _).1
  · rfl

theorem setCurrentPid_cleared {pid ppid : Int} (hc : Cleared w) :
    Cleared (setCurrentPid pid ppid w) := by
  rw [setCurrentPid_eq]
  exact ⟨hc.path, hc.dir, hc.lazy, hc.entries⟩

/-! ## Every call -/

/-- A turn after which the records follow the descriptors, and nothing is left over. -/
structure TurnDone (t : Task) (r : Regs) (sc : Sysno) (w : World) (a : Answer) (w' : World) :
    Prop extends Follows t r sc w a w' where
  cleared : Cleared w'
  path : ∀ p, a = .waits p → p.path ≠ []

abbrev ServedDone (t : Task) (r : Regs) (sc : Sysno) (k : HostKernel) (w : World) : Prop :=
  TurnDone t r sc (setCurrentPid t.pid t.ppid w) (serveCall t r sc k w).1 (serveCall t r sc k w).2

theorem turnDone_open (hf : openForm t r sc = some f) (hc : Cleared w) (hm : Meets t r sc k w) :
    ServedDone t r sc k w := by
  have hown := Tree.serveCall_own t r sc k w
  have hends : OpenEnds t r f.arg f.at_ f.flags (setCurrentPid t.pid t.ppid w) (dispatch t r sc w).1
      (dispatch t r sc w).2 := by
    have hd : dispatch t r sc w = pathOpenFlags t r f.arg f.at_ f.flags
        (setCurrentPid t.pid t.ppid w) := by
      cases sc <;> cases hf <;> rfl
    rw [hd]
    exact pathOpenFlags_runs t r f.arg f.at_ f.flags (setCurrentPid_cleared hc)
  have hdone : OpenDone t r f (setCurrentPid t.pid t.ppid w) (serveCall t r sc k w).1
      (serveCall t r sc k w).2 :=
    openDone (hm.traced (by rw [hf]; rfl)) (setCurrentPid_cleared hc) hends (hm.empty f hf)
  have hnr : reads sc ≠ true := by cases sc <;> cases hf <;> nofun
  refine ⟨⟨fun q hq => hown.fdTables q (by rwa [setCurrentPid_curPid]),
      fun n hn => hdone.kept n fun hg => hn (.opened f hf hg), fun f' n hf' hg => ?_,
      fun p hp => ⟨f, hf, (hdone.waits p hp).2⟩, fun m n hm' _ => ?_, fun h => absurd h hnr,
      fun h => absurd h hnr⟩, hdone.cleared, fun p hp => (hdone.waits p hp).1⟩
  · cases hf.symm.trans hf'
    exact hdone.given n hg
  · have := (serve_dup (t := t) hm').2
    rw [hf] at this
    cases this

theorem turnDone_dup (hd : dupOf r sc = some m) (hc : Cleared w) (hm : Meets t r sc k w) :
    ServedDone t r sc k w := by
  have hnr : reads sc ≠ true := by
    intro h
    cases sc <;> cases h <;> cases hd
  have hown := Tree.serveCall_own t r sc k w
  obtain ⟨hserve, hopen⟩ := serve_dup hd
  have htarget := hm.target m
  have hstale := hm.stale m
  have hact :
      serveCall t r sc k w = runNoting k .asIs (noteDup m) none (setCurrentPid t.pid t.ppid w) := by
    have : dispatch t r sc w = (.forward (some m), setCurrentPid t.pid t.ppid w) := by
      change serve t r sc _ = _
      rw [hserve]
      rfl
    change complete t r sc k (dispatch t r sc w).1 (dispatch t r sc w).2 = _
    rw [this]
    rfl
  have hc0 : Cleared (setCurrentPid t.pid t.ppid w) := setCurrentPid_cleared hc
  rw [hact] at hown htarget hstale
  rw [ServedDone, hact]
  have hn := runNoting_dup m hc0 (fun n hg => htarget n hd hg) fun n hg => hstale n hd hg
  refine ⟨⟨fun q hq => hown.fdTables q (by rwa [setCurrentPid_curPid]),
      fun n hnc => hn.kept n fun hg => hnc (.dupped m hd hg), fun f n hf _ => ?_,
      fun p hp => absurd hp (hn.prompt p), fun m' n hd' hg => ?_, fun h => absurd h hnr,
      fun h => absurd h hnr⟩, hn.cleared, fun p hp => absurd hp (hn.prompt p)⟩
  · rw [hopen] at hf
    cases hf
  · cases hd.symm.trans hd'
    exact hn.given n hg

theorem turnDone_modest {w0 : World} (hpid : w0.curPid = t.pid) (hopen : openForm t r sc = none)
    (hdup : dupOf r sc = none) (hown : OwnDirs w0 (complete t r sc k o w1).2) (ho : Modest o)
    (hc : Cleared w1)
    (hframe : ∀ n, ¬Concerns t r sc (complete t r sc k o w1).1 n →
        bound (complete t r sc k o w1).2.fds n = bound w0.fds n)
    (hpaths : reads sc → (complete t r sc k o w1).2.fds.paths = w0.fds.paths)
    (hstream : reads sc →
        StreamRead w0 (w0.fds.dirs (int32 (r.arg 0)))
        ((complete t r sc k o w1).2.fds.dirs (int32 (r.arg 0)))) :
    TurnDone t r sc w0 (complete t r sc k o w1).1 (complete t r sc k o w1).2 := by
  have hdone := @modestDone t r sc k w1 o ho hc
  refine ⟨⟨fun q hq => hown.fdTables q (by rwa [hpid]), hframe, fun f n hf => ?_,
      fun p hp => absurd hp (hdone.prompt p), fun m n hm => ?_, hpaths, hstream⟩, hdone.cleared,
    fun p hp => absurd hp (hdone.prompt p)⟩
  · rw [hopen] at hf
    cases hf
  · rw [hdup] at hm
    cases hm

theorem turnDone_close (hsc : sc = .close) (hc : Cleared w) : ServedDone t r sc k w := by
  subst hsc
  have hown := Tree.serveCall_own t r .close k w
  have hc0 : Cleared (setCurrentPid t.pid t.ppid w) := setCurrentPid_cleared hc
  refine turnDone_modest setCurrentPid_curPid rfl rfl hown rfl
    ⟨hc0.path, hc0.dir, hc0.lazy, hc0.entries⟩ (fun n hn => ?_)
    nofun nofun
  have hfds := @complete_fds t r .close k ((setCurrentPid t.pid t.ppid w).setFds
    ((setCurrentPid t.pid t.ppid w).fds.unbindFd (int32 (r.arg 0)))) .fwd rfl nofun
  rw [setFds_fds] at hfds
  refine (congrArg (bound · n) hfds).trans ?_
  rw [bound_unbindFd, if_neg fun h => hn (.closed rfl h)]

theorem turnDone_read (hsc : reads sc) (hc : Cleared w) : ServedDone t r sc k w := by
  have hown := Tree.serveCall_own t r sc k w
  have hc0 : Cleared (setCurrentPid t.pid t.ppid w) := setCurrentPid_cleared hc
  have hforms : openForm t r sc = none ∧ dupOf r sc = none := by
    cases sc with
    | lseek | getdents64 => exact ⟨rfl, rfl⟩
    | _ => cases hsc
  have hread : (∀ rd, (dispatch t r sc w).1 ≠ .redirect rd) ∧
      ReadDone (int32 (r.arg 0)) (setCurrentPid t.pid t.ppid w) (dispatch t r sc w).2 := by
    cases sc with
    | lseek => exact doLseek_read r _
    | getdents64 => exact doGetdents64_read t r _
    | _ => cases hsc
  obtain ⟨hnr, hread⟩ := hread
  have hmod : Modest (dispatch t r sc w).1 := serve_modest_of_none hforms.1 hforms.2 _
  have hfds := @complete_fds t r sc k (dispatch t r sc w).2 _ hmod hnr
  refine turnDone_modest setCurrentPid_curPid hforms.1 hforms.2 hown hmod (hread.cleared hc0)
    (fun n hn => ?_)
    (fun _ => hfds ▸ hread.paths) fun _ => hfds ▸ hread.stream
  have hne : n ≠ int32 (r.arg 0) := fun h => hn (.read hsc h)
  rw [hfds]
  unfold bound
  rw [hread.paths, hread.dirs n hne]

theorem turnDone_other (hopen : openForm t r sc = none) (hdup : dupOf r sc = none)
    (hcl : sc ≠ .close) (hr : reads sc = false) (hc : Cleared w) (hm : Meets t r sc k w) :
    ServedDone t r sc k w := by
  have hown := Tree.serveCall_own t r sc k w
  have hnr : reads sc ≠ true := by simp [hr]
  obtain ⟨hc1, hf1⟩ :=
    cleared_of_idle (setCurrentPid_cleared hc)
    (@serve_idle t r sc hopen hcl hr (setCurrentPid t.pid t.ppid w))
  have hmod : Modest (dispatch t r sc w).1 := serve_modest_of_none hopen hdup _
  have hdone := @modestDone t r sc k (dispatch t r sc w).2 _ hmod hc1
  refine turnDone_modest setCurrentPid_curPid hopen hdup hown hmod hc1 (fun n _ => ?_)
    (fun h => absurd h hnr)
    fun h => absurd h hnr
  by_contra hne
  rw [← hf1] at hne
  obtain ⟨⟨rd, hrd, hnoop, hforce⟩, hg, hlost⟩ := hdone.lost n hne
  have hnone := hm.result hopen rd hrd hnoop hforce n hg
  rw [← hf1] at hnone
  exact hne (hlost.trans hnone.symm)

theorem serveCall_turnDone (hc : Cleared w) (hm : Meets t r sc k w) : ServedDone t r sc k w := by
  rcases hopen : openForm t r sc with _ | f
  · rcases hdup : dupOf r sc with _ | m
    · by_cases hcl : sc = .close
      · exact turnDone_close hcl hc
      · rcases hr : reads sc with _ | _
        · exact turnDone_other hopen hdup hcl hr hc hm
        · exact turnDone_read hr hc
    · exact turnDone_dup hdup hc hm
  · exact turnDone_open hopen hc hm

end Turn

/-! ## A run of the loop -/

/-- The supervisor, and the opens that wait in the kernel. -/
structure Session where
  world : World
  waiting : List PendingOpen := []

inductive Turn where
  /-- A guest makes a call. -/
  | call (t : Task) (r : Regs) (sc : Sysno) (k : HostKernel)
  /-- An open that waited has its result. -/
  | finish (p : PendingOpen) (ret : Int) (opened : Option FdFile)
  | proc (e : ProcEvent)

/-- What an open that waited does to the records. -/
structure Finished (p : PendingOpen) (ret : Int) (w w' : World) : Prop where
  others : ∀ q, q ≠ p.pid → w'.fdTables q = w.fdTables q
  frame : ∀ n, ¬Gives (.ret ret) n → bound w'.fds n = bound w.fds n
  opened : ∀ n, Gives (.ret ret) n → bound w'.fds n = (some p.path, none)

namespace Session

/-- Nothing is pending when the loop starts. -/
def start (w : World) : Session := ⟨clearPending w, []⟩

def step (s : Session) : Turn → Session
  | .call t r sc k =>
    ⟨(serveCall t r sc k s.world).2, match (serveCall t r sc k s.world).1 with
      | .waits p => p :: s.waiting
      | _ => s.waiting⟩
  | .finish p ret opened => ⟨finishPendingOpen p ret opened s.world, s.waiting.erase p⟩
  | .proc e => ⟨applyProcEvent e s.world, s.waiting⟩

/-- Only what waits can finish. -/
def Drives (s : Session) : Turn → Prop
  | .finish p _ _ => p ∈ s.waiting
  | _ => True

def Regular (s : Session) : Turn → Prop
  | .call t r sc k => Meets t r sc k s.world
  | _ => True

/-- The process that runs has its own table, and the turn changes it as the kernel changes the
descriptors.  A process that is new has the table of its parent. -/
def Tracks (s : Session) : Turn → Prop
  | .call t r sc k =>
    ((s.world.cwds t.pid).isSome →
        (setCurrentPid t.pid t.ppid s.world).fdTables = s.world.fdTables) ∧
      Follows t r sc (setCurrentPid t.pid t.ppid s.world) (serveCall t r sc k s.world).1
      (serveCall t r sc k s.world).2
  | .finish p ret opened =>
    ((s.world.cwds p.pid).isSome →
        (setCurrentPid p.pid p.ppid s.world).fdTables = s.world.fdTables) ∧
      Finished p ret (setCurrentPid p.pid p.ppid s.world) (finishPendingOpen p ret opened s.world)
  | .proc e => (applyProcEvent e s.world).fdTables = s.world.fdTables

/-- Between two turns nothing is pending, and each open that waits has a path. -/
structure Settled (s : Session) : Prop where
  cleared : Cleared s.world
  paths : ∀ p ∈ s.waiting, p.path ≠ []

variable {s : Session}

theorem finishPendingOpen_finished {p : PendingOpen} (hp : p.path ≠ []) (ret : Int)
    (opened : Option FdFile) {w : World} (hc : Cleared w) :
    Finished p ret (setCurrentPid p.pid p.ppid w) (finishPendingOpen p ret opened w) ∧
      Cleared (finishPendingOpen p ret opened w) := by
  have hown := Tree.finishPendingOpen_own p ret opened w
  have hc0 : Cleared (setCurrentPid p.pid p.ppid w) := setCurrentPid_cleared hc
  have hpid : (setCurrentPid p.pid p.ppid w).curPid = p.pid := setCurrentPid_curPid
  refine ⟨⟨fun q hq => hown.fdTables q (by rwa [hpid]), ?_, ?_⟩, noteOpenedFd_cleared _ _ _⟩
  · intro n hn
    by_cases h0 : 0 ≤ ret
    · have hne : n ≠ intOf ret := fun h => hn (gives_ret.2 ⟨h0, h.symm⟩)
      refine (noteOpenedFd_bound h0 opened _ n).trans ?_
      rw [if_neg hne]
      rfl
    · exact congrArg (bound · n) (noteOpenedFd_failed (by omega) opened _)
  · intro n hn
    obtain ⟨h0, rfl⟩ := gives_ret.1 hn
    refine (noteOpenedFd_bound h0 opened _ _).trans ?_
    unfold newBinding pendingStream
    rw [if_pos rfl, if_neg hp]
    simp [hc0.dir]

theorem Settled.call (hs : Settled s) {t : Task} {r : Regs} {sc : Sysno} {k : HostKernel}
    (hm : Meets t r sc k s.world) :
    s.Tracks (.call t r sc k) ∧ Settled (s.step (.call t r sc k)) := by
  have hd := serveCall_turnDone hs.cleared hm
  refine ⟨⟨fun h => (setCurrentPid_of_seen _ h).2, hd.toFollows⟩, hd.cleared, ?_⟩
  intro p hp
  have hpath := hd.path
  unfold step at hp
  dsimp only at hp
  split at hp
  · rename_i p' heq
    rcases List.mem_cons.1 hp with rfl | hp
    · exact hpath p heq
    · exact hs.paths p hp
  · exact hs.paths p hp

theorem applyProcEvent_kept (e : ProcEvent) (w : World) :
    (applyProcEvent e w).fdTables = w.fdTables ∧ (Cleared w → Cleared (applyProcEvent e w)) := by
  rcases e with ⟨pid, ppid⟩ | pid
  · exact ⟨rfl, fun h => ⟨h.path, h.dir, h.lazy, h.entries⟩⟩
  · by_cases h : pid = 1
    · have hsame : applyProcEvent (.reap pid) w = w := if_pos h
      rw [hsame]
      exact ⟨rfl, id⟩
    · have hgone : applyProcEvent (.reap pid) w = forgetPid pid w := if_neg h
      rw [hgone]
      exact ⟨rfl, fun h => ⟨h.path, h.dir, h.lazy, h.entries⟩⟩

theorem Settled.step (hs : Settled s) {e : Turn} (hd : s.Drives e) (hr : s.Regular e) :
    s.Tracks e ∧ Settled (s.step e) := by
  rcases e with ⟨t, r, sc, k⟩ | ⟨p, ret, opened⟩ | e
  · exact hs.call hr
  · obtain ⟨hf, hc⟩ := finishPendingOpen_finished (hs.paths p hd) ret opened hs.cleared
    exact ⟨⟨fun h => (setCurrentPid_of_seen _ h).2, hf⟩, hc,
      fun q hq => hs.paths q (List.mem_of_mem_erase hq)⟩
  · obtain ⟨hf, hc⟩ := applyProcEvent_kept e s.world
    exact ⟨hf, hc hs.cleared, hs.paths⟩

/-- In every run whose calls all meet the conditions, every turn changes the records as the kernel
changes the descriptors. -/
theorem records_follow_descriptors (w : World) (es : List Turn)
    (hd : Along step Drives (start w) es) (hr : Along step Regular (start w) es) :
    Along step Tracks (start w) es :=
  Along.of_invariant (fun _ _ hs hc => Settled.step hs hc.1 hc.2) ⟨clearPending_cleared w, nofun⟩
    (hd.and hr)

/-! ## Two runs -/

/-- The descriptor that `open("/etc")` gives is duplicated. -/
def dupRun : List Turn :=
  [.call (Tree.procTask 1 0) ⟨0, fun n => if n = 0 then 1 else 0⟩ .open_
      fun _ h => ⟨.ok 3, h, none⟩,
    .call (Tree.procTask 1 0) ⟨0, fun n => if n = 0 then 3 else 0⟩ .dup
      fun _ h => ⟨.ok 4, h, none⟩]

theorem records_follow_descriptors_dup :
    Along step Tracks (start Tree.treeWorld) dupRun ∧
      ((dupRun.foldl step (start Tree.treeWorld)).world.fds.paths 4) = some "/etc".toList := by
  refine ⟨records_follow_descriptors Tree.treeWorld dupRun ⟨trivial, trivial, trivial⟩
    ⟨?_, ?_, trivial⟩, by decide +kernel⟩
  · refine ⟨fun _ _ _ _ => nofun, fun f hf h => ?_, nofun, nofun, nofun⟩
    cases hf
    exact absurd h (by decide +kernel)
  · refine ⟨nofun, nofun, fun _ rd hrd => ?_, fun m n hm _ h0 => ?_, fun m n hm _ _ _ => ?_⟩
    · cases hrd
    · cases hm
      exact absurd h0 (by decide)
    · cases hm
      refine ⟨fun h => absurd h (by decide +kernel),
        fun h => absurd (congrArg Option.isNone h) (by decide +kernel)⟩

def accessEtc : Turn :=
  .call (Tree.procTask 1 0) ⟨0, fun n => if n = 0 then 1 else 0⟩ .access fun _ h => ⟨.ok 0, h, none⟩

def lostBinding : List Turn :=
  [.call (Tree.procTask 1 0) ⟨0, fun n => if n = 0 then 1 else 0⟩ .open_
    fun _ h => ⟨.ok 0, h, none⟩, accessEtc]

/-- `open("/etc")` fails in the tracer. -/
def leftBinding : List Turn :=
  [.call (Tree.procTask 1 0) ⟨0, fun n => if n = 0 then 1 else 0⟩ .open_
    fun _ h => ⟨.error .eio, h, none⟩, accessEtc]

/-- The 0 of a successful `access` is taken for a descriptor: in the first run it loses its path, in
the second it gets the path of the open that failed. -/
theorem access_rebinds_zero :
    ((lostBinding.take 1).foldl step (start Tree.treeWorld)).world.fds.paths 0 =
        some "/etc".toList ∧ (lostBinding.foldl step (start Tree.treeWorld)).world.fds.paths 0 =
        none ∧ ((leftBinding.take 1).foldl step (start Tree.treeWorld)).world.fds.paths 0 = none ∧
      (leftBinding.foldl step (start Tree.treeWorld)).world.fds.paths 0 = some "/etc".toList ∧
      ¬Along step Tracks (start Tree.treeWorld) lostBinding ∧
      ¬Along step Tracks (start Tree.treeWorld) leftBinding := by
  have differ : ∀ {s : Session}, s.Tracks accessEtc →
      (s.step accessEtc).world.fds.paths 0 = (setCurrentPid 1 0 s.world).fds.paths 0 := by
    intro s hs
    refine congrArg Prod.fst (hs.2.frame 0 ?_)
    rintro (⟨f, hf, -⟩ | ⟨hsc, -⟩ | ⟨m, hm, -⟩ | ⟨hsc, -⟩)
    · cases hf
    · cases hsc
    · cases hm
    · cases hsc
  refine ⟨by decide +kernel, by decide +kernel, by decide +kernel, by decide +kernel, fun h => ?_,
    fun h => ?_⟩
  · exact absurd (differ h.2.1) (by decide +kernel)
  · exact absurd (differ h.2.1) (by decide +kernel)

end Session

end Linuxity.Runtime

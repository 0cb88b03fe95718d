import Linuxity.Abi.Dispatch

/-!
# Abi.Frame.Rules — what every handler leaves alone

A handler may change the host tree, the whiteouts, the recorded modes and owners and the emulated
hard links.  Descriptors, directories and the pending fields stay as they are, but for the few
handlers that are there to change them.  Alongside, `Ends` follows the outcomes that leave the
guest's own string to the kernel.
-/

namespace Linuxity.Kernel.World

open Posix

/-- Descriptors, current directories, mounts and pending fields are the same. -/
def Steady (w w' : World) : Prop :=
  w' = { w with
    host := w'.host, calls := w'.calls, named := w'.named, whiteouts := w'.whiteouts
    metas := w'.metas
    links := w'.links, sockPlaceholders := w'.sockPlaceholders, linksWork := w'.linksWork
    guestMounts := w'.guestMounts }

namespace Steady

variable {w w' w'' : World}

@[refl] theorem refl (w : World) : Steady w w := rfl

theorem trans (h1 : Steady w w') (h2 : Steady w' w'') : Steady w w'' := by
  unfold Steady at *
  rw [h2, h1]

theorem of_files (h : FilesOnly w w') : Steady w w' := by
  unfold Steady
  rw [h.same]

theorem fdTables (h : Steady w w') : w'.fdTables = w.fdTables := by rw [h]

theorem curPid (h : Steady w w') : w'.curPid = w.curPid := by rw [h]

theorem mounts (h : Steady w w') : w'.mounts = w.mounts := by rw [h]

theorem cwds (h : Steady w w') : w'.cwds = w.cwds := by rw [h]

theorem fds (h : Steady w w') : w'.fds = w.fds := by rw [h]; rfl

theorem pendingOpen (h : Steady w w') : w'.pendingOpen = w.pendingOpen := by rw [h]

theorem sys (w : World) (op : HostOp) (p : Str) (f : Bool) (run : Host → Except Errno Host) :
    Steady w (w.sys op p f run).2 := by
  unfold World.sys
  cases run w.host <;> rfl

theorem noteName (w : World) (arg : Nat) (abs : Str) : Steady w (w.noteName arg abs) := rfl

theorem logCall (w : World) (c : HostCall) : Steady w (w.logCall c) := rfl

theorem appendTo (w : World) (j : Str) : Steady w (w.appendTo j) := of_files (.appendTo w j)

theorem putMetas (w : World) (s : MetaStore) (b : Bool) : Steady w (w.putMetas s b) :=
  of_files (.putMetas w s b)

theorem addWhiteout (w : World) (abs : Str) : Steady w (w.addWhiteout abs) :=
  of_files (.addWhiteout w abs)

theorem clearWhiteout (w : World) (abs : Str) : Steady w (w.clearWhiteout abs) :=
  of_files (.clearWhiteout w abs)

theorem putLinks (w : World) (t : LinkTable) : Steady w (w.putLinks t) := by
  have h1 : Steady w { w with links := t } := rfl
  exact h1.trans (appendTo _ _)

theorem chmodFd (w : World) (l : Loc) (mode : Nat) : Steady w (w.chmodFd l mode).2 := by
  unfold World.chmodFd
  cases w.host.chmodAt l mode <;> rfl

theorem rename (w : World) (a b : Str) : Steady w (w.rename a b).2 :=
  (logCall w _).trans (sys _ _ _ _ _)

theorem exchange (w : World) (a b : Str) : Steady w (w.exchange a b).2 :=
  (logCall w _).trans (sys _ _ _ _ _)

theorem link (w : World) (a b : Str) : Steady w (w.link a b).2 :=
  (logCall w _).trans (sys _ _ _ _ _)

theorem linkFd (w : World) (l : Loc) (p : Str) : Steady w (w.linkFd l p).2 :=
  (logCall w _).trans (sys _ _ _ _ _)

theorem foldl {α : Type} {f : World → α → World} (hf : ∀ w a, Steady w (f w a)) (as : List α)
    (w : World) : Steady w (as.foldl f w) := by
  induction as generalizing w with
  | nil => rfl
  | cons a as ih => exact (hf w a).trans (ih (f w a))

end Steady

end Linuxity.Kernel.World

namespace Linuxity.Abi

open Posix Wire Kernel Logic World

/-! ## Programs that leave the descriptors alone -/

/-- A relation that is blind to what a handler may change. -/
class Lax (R : World → World → Prop) : Prop extends IsPreorder World R where
  steady {w w' : World} : Steady w w' → R w w'

instance : Lax Steady where
  refl := Steady.refl
  trans _ _ _ := Steady.trans
  steady h := h

/-- The records of the descriptors are the same, and whose they are. -/
def SameFds (w w' : World) : Prop := w'.fdTables = w.fdTables ∧ w'.curPid = w.curPid

/-- What the last open left behind is the same as well. -/
def Idle (w w' : World) : Prop :=
  SameFds w w' ∧ w'.pendingOpen = w.pendingOpen ∧ w'.pendingFlags = w.pendingFlags ∧
    w'.pendingDir = w.pendingDir ∧ w'.pendingLazy = w.pendingLazy ∧
    w'.pendingEntries = w.pendingEntries

instance : Lax SameFds where
  refl _ := ⟨rfl, rfl⟩
  trans _ _ _ h1 h2 := ⟨h2.1.trans h1.1, h2.2.trans h1.2⟩
  steady h := ⟨h.fdTables, h.curPid⟩

instance : Lax Idle where
  refl _ := ⟨⟨rfl, rfl⟩, rfl, rfl, rfl, rfl, rfl⟩
  trans _ _ _ := by
    rintro ⟨h, h1, h2, h3, h4, h5⟩ ⟨h', h1', h2', h3', h4', h5'⟩
    exact ⟨trans_of SameFds h h', h1'.trans h1, h2'.trans h2, h3'.trans h3, h4'.trans h4,
      h5'.trans h5⟩
  steady h := ⟨Lax.steady h, by rw [h], by rw [h], by rw [h], by rw [h], by rw [h]⟩

/-- The pending fields may differ as well. -/
def Opening (w w' : World) : Prop :=
  Steady { w with
    pendingOpen := w'.pendingOpen, pendingFlags := w'.pendingFlags, pendingDir := w'.pendingDir
    pendingLazy := w'.pendingLazy, pendingEntries := w'.pendingEntries } w'

instance : Lax Opening where
  refl _ := rfl
  trans _ _ _ h1 h2 := by
    unfold Opening Steady at *
    rw [h2, h1]
  steady h := by
    unfold Opening Steady at *
    rw [h]

/-- The current directory may differ as well. -/
def Moving (w w' : World) : Prop :=
  Steady { w with
    cwds := Function.update w.cwds w.curPid (w'.cwds w.curPid)
    lastCwd := w'.lastCwd } w' ∧ ((w.cwds w.curPid).isSome → (w'.cwds w.curPid).isSome)

instance : Lax Moving where
  refl w := ⟨by simp [Steady], id⟩
  trans w w' w'' := by
    rintro ⟨h1, h1'⟩ ⟨h2, h2'⟩
    have hp : w'.curPid = w.curPid := by rw [h1]
    rw [hp] at h2 h2'
    refine ⟨?_, h2' ∘ h1'⟩
    unfold Steady at *
    rw [h2, h1]
    simp
  steady {w w'} h := by
    refine ⟨?_, by rw [h.cwds]; exact id⟩
    rw [h.cwds, Function.update_eq_self]
    unfold Steady at *
    rw [h]

/-- The directories and descriptors of the other processes are the same, and the process itself
stays recorded. -/
structure OwnDirs (w w' : World) : Prop where
  curPid : w'.curPid = w.curPid
  seededPid : w'.seededPid = w.seededPid
  cwds : ∀ q, q ≠ w.curPid → w'.cwds q = w.cwds q
  fdTables : ∀ q, q ≠ w.curPid → w'.fdTables q = w.fdTables q
  own : (w.cwds w.curPid).isSome → (w'.cwds w.curPid).isSome

instance : Lax OwnDirs where
  refl _ := ⟨rfl, rfl, fun _ _ => rfl, fun _ _ => rfl, id⟩
  trans _ _ _ h1 h2 :=
    ⟨h2.curPid.trans h1.curPid, h2.seededPid.trans h1.seededPid,
      fun q hq => (h2.cwds q (h1.curPid ▸ hq)).trans (h1.cwds q hq),
      fun q hq => (h2.fdTables q (h1.curPid ▸ hq)).trans (h1.fdTables q hq),
      fun h => h1.curPid ▸ h2.own (h1.curPid ▸ h1.own h)⟩
  steady h :=
    ⟨h.curPid, by rw [h], fun _ _ => by rw [h.cwds],
    fun _ _ => by rw [h.fdTables], by rw [h.cwds]; exact id⟩

theorem Opening.ownDirs {w w' : World} (h : Opening w w') : OwnDirs w w' :=
  have h := Lax.steady (R := OwnDirs) h
  ⟨h.curPid, h.seededPid, h.cwds, h.fdTables, h.own⟩

theorem Moving.idle {w w' : World} (h : Moving w w') : Idle w w' :=
  have h := Lax.steady (R := Idle) h.1
  ⟨h.1, h.2⟩

theorem Moving.ownDirs {w w' : World} (h : Moving w w') : OwnDirs w w' := by
  have h1 := Lax.steady (R := OwnDirs) h.1
  exact ⟨h1.curPid, h1.seededPid, fun q hq => by rw [h1.cwds q hq]; simp [hq], h1.fdTables, h.2⟩

theorem OwnDirs.setFds (w : World) (t : FdTable) : OwnDirs w (w.setFds t) :=
  ⟨rfl, rfl, fun _ _ => rfl, fun q hq => by simp [World.setFds, hq], id⟩

abbrev Steadies {α : Type} (x : Act World α) : Prop := Keeps Steady x

end Linuxity.Abi

namespace Logic.Keeps

open Linuxity Posix Wire Kernel Abi World

variable {R : World → World → Prop} [Lax R] (arg : Nat) (abs : Str)

theorem ask (fw fo : Bool) (wi : WriteIntent) : Keeps R (Abi.ask arg abs fw fo wi) := fun w =>
  Lax.steady ((Steady.of_files (classify_files abs fw fo wi w)).trans (.noteName _ arg abs))

theorem askName (fw fo : Bool) (wi : WriteIntent) : Keeps R (Abi.askName arg abs fw fo wi) :=
  fun w =>
    Lax.steady
    ((Steady.of_files (classifyImpl_files fw wi maxCross fo abs w)).trans (.noteName _ arg abs))

theorem dotWalk (cs : List Str) (cur : Str) : Keeps R (Abi.dotWalk arg cs cur) := by
  induction cs generalizing cur with
  | nil => exact .pure none
  | cons c cs ih =>
    refine .bind (ask _ _ _ _ _) fun pc => .bind (.read _) fun e => ?_
    rcases e with _ | e
    · exact ih _
    · exact .pure _

theorem dotOnly (base : Str) : Keeps R (Abi.dotOnly arg base) :=
  .bind (ask _ _ _ _ _) fun _ => .bind (.read _) fun _ => .pure _

theorem dotPrefixError (t : Task) (r : Regs) (arg : Nat) (at_ : Bool) :
    Keeps R (Abi.dotPrefixError t r arg at_) :=
  .ite (.pure _)
    (.ite (.ite (.pure _) (.bind (.read _) fun _ => dotOnly _ _))
      (.bind (.read _) fun _ => dotWalk _ _ _))

theorem guestPrefixLoop : Keeps R (Abi.guestPrefixLoop arg abs) :=
  .ite (.pure _) (.bind (ask _ _ _ _ _) fun _ => .pure _)

theorem resolveFailureErrno (e : Errno) : Keeps R (Abi.resolveFailureErrno arg abs e) :=
  .bind (ask _ _ _ _ _) fun _ => .read _

theorem linkMode : Keeps R (Abi.linkMode arg abs) :=
  .bind (ask _ _ _ _ _) fun _ => .bind (.read _) fun _ => .ite (.pure _) (.pure _)

theorem chmodTarget : Keeps R (Abi.chmodTarget arg abs) := by
  refine .bind (ask _ _ _ _ _) fun pc => ?_
  rcases pc.realm with _ | _ | _
  · exact .read _
  · exact .pure _
  · exact .ite (.bind (resolveFailureErrno _ _ _) fun _ => .pure _) (.pure _)

theorem chmodHost (p : Str) (mode : Nat) : Keeps R (Abi.chmodHost p mode) := by
  intro w
  have h : R w _ := Lax.steady (Steady.sys w .chmod p true (·.chmod p mode))
  unfold Abi.chmodHost World.chmod
  rcases hr : w.sys .chmod p true (·.chmod p mode) with ⟨_ | _, w'⟩ <;> simpa [hr] using h

end Logic.Keeps

namespace Linuxity.Abi

open Posix Wire Kernel Logic World

/-! ## Outcomes that leave the guest's string to the kernel -/

/-- The kernel gets the call as the guest made it. -/
inductive IsRaw : Outcome → Prop
  | forward : IsRaw (.forward none)
  | noop {rd : Redirect} : rd.isNoop → IsRaw (.redirect rd)

theorem not_isRaw_toHost (arg : Nat) (p : Str) : ¬IsRaw (.toHost arg p) := by
  rintro (_ | h)
  simp [Redirect.isNoop] at h

/-- The decision is not one for a call that gives a descriptor. -/
def Modest : Outcome → Prop
  | .forward m => m = none
  | .inject _ _ _ => False
  | .redirect rd => rd.mayBlock = false
  | _ => True

inductive Settled : Outcome → Prop
  | virtualize (v ns : Int) : Settled (.virtualize v ns)

namespace Settled

variable {o : Outcome}

theorem not_isRaw (h : Settled o) : ¬IsRaw o := by
  cases h
  rintro ⟨⟩

theorem modest (h : Settled o) : Modest o := by
  cases h
  trivial

theorem stored (t : Task) (addr : Nat) (ret : Int) : Settled (stored t addr ret) := by
  unfold Abi.stored
  split_ifs <;> exact ⟨_, _⟩

theorem answer (e : Except Errno Unit) : Settled (answer e) := by
  rcases e with _ | _ <;> exact ⟨_, _⟩

end Settled

/-- A property of every decision that gives no descriptor. -/
class Bland (Q : Outcome → Prop) : Prop where
  of_modest {o : Outcome} : Modest o → Q o

instance : Bland Modest := ⟨id⟩

def AnyOutcome (_ : Outcome) : Prop := True

instance : Bland AnyOutcome := ⟨fun _ => trivial⟩

/-- Only if `F` does the program end with the guest's own string going to the kernel; it always ends
with a decision in `Q`. -/
structure Ends (R : World → World → Prop) (F : Prop) (Q : Outcome → Prop)
    (x : Act World Outcome) : Prop where
  keeps : Keeps R x
  raw : ∀ w, IsRaw (x w).1 → F
  decides : ∀ w, Q (x w).1

namespace Ends

variable {R : World → World → Prop} [IsPreorder World R] {F : Prop} {Q : Outcome → Prop} [Bland Q]
  {α : Type}

omit [IsPreorder World R] [Bland Q] in
theorem any {x : Act World Outcome} (h : Ends R F Q x) : Ends R True Q x :=
  ⟨h.keeps, fun _ _ => trivial, h.decides⟩

omit [Bland Q] in
theorem pure {o : Outcome} (h : IsRaw o → F) (hq : Q o) : Ends R F Q (Pure.pure o) :=
  ⟨Keeps.pure o, fun _ => h, fun _ => hq⟩

theorem settled {o : Outcome} (h : Settled o) : Ends R F Q (Pure.pure o) :=
  pure (fun hr => absurd hr h.not_isRaw) (Bland.of_modest h.modest)

theorem fail (e : Errno) : Ends R F Q (Pure.pure (.fail e)) := settled ⟨_, _⟩

theorem refuse (e : Errno) : Ends R F Q (refuse e) := fail e

theorem value (v : Int) : Ends R F Q (Pure.pure (.virtualize v)) := settled ⟨_, _⟩

theorem toHost (arg : Nat) (p : Str) : Ends R F Q (Pure.pure (.toHost arg p)) :=
  pure (fun h => absurd h (not_isRaw_toHost _ _)) (Bland.of_modest rfl)

theorem scrubbed (arg : Nat) (p : Str) (sx : Bool) (buf : Nat) (abs : Str) :
    Ends R F Q (Pure.pure (scrubbed arg p sx buf abs)) :=
  pure (by rintro (_ | h); simp [Redirect.isNoop] at h) (Bland.of_modest rfl)

theorem stored (t : Task) (addr : Nat) (ret : Int) : Ends R F Q (Pure.pure (stored t addr ret)) :=
  settled (.stored _ _ _)

theorem fwd (h : F) : Ends R F Q (Pure.pure .fwd) := pure (fun _ => h) (Bland.of_modest rfl)

omit [Bland Q] in
theorem bind {x : Act World α} {f : α → Act World Outcome} (hx : Keeps R x)
    (hf : ∀ a, Ends R F Q (f a)) : Ends R F Q (x >>= f) :=
  ⟨hx.bind fun a => (hf a).keeps, fun w => (hf (x w).1).raw (x w).2,
    fun w => (hf (x w).1).decides (x w).2⟩

omit [IsPreorder World R] [Bland Q] in
theorem bind_read {f : World → α} {g : α → Act World Outcome} (hg : ∀ w, Ends R F Q (g (f w))) :
    Ends R F Q (Act.read f >>= g) :=
  ⟨fun w => (hg w).keeps w, fun w => (hg w).raw w, fun w => (hg w).decides w⟩

omit [IsPreorder World R] [Bland Q] in
theorem ite {c : Prop} [Decidable c] {x y : Act World Outcome} (hx : c → Ends R F Q x)
    (hy : ¬c → Ends R F Q y) : Ends R F Q (if c then x else y) := by
  split_ifs with h
  · exact hx h
  · exact hy h

theorem refuseIf {x : Act World (Option Errno)} {k : Act World Outcome} (hx : Keeps R x)
    (hk : Ends R F Q k) : Ends R F Q (refuseIf x k) := by
  refine bind hx fun e => ?_
  rcases e with _ | e
  · exact hk
  · exact fail e

theorem withPath {x : World → Option Str} {k : Str → Act World Outcome}
    (hk : ∀ abs, Ends R F Q (k abs)) : Ends R F Q (withPath x k) := by
  refine bind (.read x) fun abs => ?_
  rcases abs with _ | abs
  · exact pure (by rintro ⟨⟩) (Bland.of_modest trivial)
  · exact hk abs

theorem answer {x : Act World (Except Errno Unit)} (hx : Keeps R x) : Ends R F Q (answer <$> x) :=
  bind hx fun e => settled (.answer e)

theorem done {f : World → World} (hf : ∀ w, R w (f w)) :
    Ends R F Q (Act.modify f >>= fun _ => Pure.pure (.virtualize 0)) :=
  bind (.modify hf) fun _ => value 0

end Ends

end Linuxity.Abi

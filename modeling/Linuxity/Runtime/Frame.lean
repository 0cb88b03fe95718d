import Linuxity.Abi.Frame.Serve
import Linuxity.Kernel.Prepare
import Linuxity.Runtime.Loop

/-!
# Runtime.Frame — what acting on a decision leaves alone
-/

namespace Linuxity.Runtime

open Posix Wire Kernel Abi Logic World

/-- A relation that is kept by the host's work and by what the loop notes down. -/
class Quiet (R : World → World → Prop) : Prop extends IsPreorder World R where
  hostOnly {w w' : World} : HostOnly w w' → R w w'
  cleared (w : World) : R w (clearPending w)
  opened (ret : Int) (file : Option FdFile) (w : World) : R w (noteOpenedFd ret file w)
  dupped (m : DupMirror) (ret : Int) (file : Option FdFile) (w : World) : R w (noteDup m ret file w)

theorem makeHostParents_hostOnly (p : Str) (w : World) : HostOnly w (makeHostParents p w) := by
  unfold makeHostParents
  split_ifs
  · rfl
  · induction cuts [] (dirOf p) generalizing w with
    | nil => rfl
    | cons d ds ih => exact (HostOnly.sys w _ _ _ _).trans (ih _)

/-- What the guest is told when the kernel's answer is passed on. -/
def told : Except Errno Int → Answer
  | .error e => recover e
  | .ok v => .ret v

theorem passOn_eq (k : HostKernel) (x : Handed) (w : World) :
    passOn k x w = (told (k x w.host).reply, { w with host := (k x w.host).host }) := by
  change (match (k x w.host).reply with
    | .error e => pure (recover e)
    | .ok ret => pure (.ret ret) : Act World Answer) { w with host := (k x w.host).host } = _
  rcases (k x w.host).reply with e | v <;> rfl

section

variable {R : World → World → Prop} [Quiet R] (t : Task) (r : Regs) (sc : Sysno) (k : HostKernel)

theorem runIn_keeps (x : Handed) : Keeps R (runIn k x) := fun _ => Quiet.hostOnly rfl

theorem passOn_keeps (x : Handed) : Keeps R (passOn k x) := by
  refine .bind (runIn_keeps k x) fun ran => ?_
  rcases ran.reply with e | v
  · exact .pure _
  · exact .pure _

theorem runNoting_keeps (x : Handed) {note : Int → Option FdFile → World → World}
    (hn : ∀ ret o w, R w (note ret o w)) (force : Option Int) :
    Keeps R (runNoting k x note force) := by
  refine .bind (runIn_keeps k x) fun ran => ?_
  rcases ran.reply with e | v
  · exact .pure _
  · exact .bind (.modify (hn v ran.opened)) fun _ => .pure _

theorem redirectCall_keeps (rd : Redirect) : Keeps R (redirectCall t r sc k rd) := by
  have hmk : ∀ p w, R w (makeHostParents p w) :=
    fun p w => Quiet.hostOnly (makeHostParents_hostOnly p w)
  have hblock : Keeps R (do
      let p ← takePendingOpen t
      match (← runIn k (.paths rd.first none)).reply with
      | .error e => pure (recover e)
      | .ok _ => pure (.waits p)) := by
    refine .bind (fun w => Quiet.cleared w) fun p => .bind (runIn_keeps k _) fun ran => ?_
    rcases ran.reply with e | v
    · exact .pure _
    · exact .pure _
  have hrun : Keeps R (do
      let w ← Act.read id
      runNoting k
        (.paths (rebaseOnDirfd t r sc rd.first w) (rd.second.map (rebaseOnDirfd t r sc · w)))
        (if rd.forceRet.isSome then fun _ _ w => w else noteOpenedFd) rd.forceRet) := by
    refine .bind (.read _) fun w => runNoting_keeps k _ ?_ _
    split_ifs
    · exact fun _ _ w => refl_of R w
    · exact Quiet.opened
  refine .ite (passOn_keeps k _) (.ite ?_ ?_)
  · exact .ite (.bind (.modify (hmk _)) fun _ => hblock) hblock
  · refine .ite (.bind (.modify fun w => ?_) fun _ => hrun) hrun
    rcases rd.second with _ | p
    · exact hmk _ w
    · exact trans_of R (hmk _ w) (hmk _ _)

theorem complete_keeps (o : Outcome) : Keeps R (complete t r sc k o) := by
  rcases o with _ | m | rd | _ | _ | _ | _
  · exact .pure _
  · rcases m with _ | m
    · exact passOn_keeps k _
    · exact runNoting_keeps k _ (Quiet.dupped m) _
  · exact redirectCall_keeps t r sc k rd
  · exact runNoting_keeps k _ Quiet.opened _
  · exact .bind (.modify fun w => Quiet.hostOnly (makeHostParents_hostOnly _ w))
      fun _ => passOn_keeps k _
  · exact passOn_keeps k _
  · exact .pure _

end

end Linuxity.Runtime

import Linuxity.Abi.Reach
import Linuxity.Runtime.Frame

/-!
# Runtime.Books — the supervisor's own books

The recorded modes and owners, the whiteouts and the table of emulated hard links are changed while
a call is prepared and decided.  What happens once the kernel has answered leaves them alone.
-/

namespace Linuxity.Kernel.World

open Posix

/-- The books are the same. -/
structure Books (w w' : World) : Prop where
  metas : w'.metas = w.metas
  whiteouts : w'.whiteouts = w.whiteouts
  links : w'.links = w.links

namespace Books

variable {w w' w'' : World}

@[refl] theorem refl (w : World) : Books w w := ⟨rfl, rfl, rfl⟩

theorem trans (h1 : Books w w') (h2 : Books w' w'') : Books w w'' :=
  ⟨h2.metas.trans h1.metas, h2.whiteouts.trans h1.whiteouts, h2.links.trans h1.links⟩

theorem of_hostOnly (h : HostOnly w w') : Books w w' := ⟨h.metas, h.whiteouts, h.links⟩

end Books

def LinksOnly (w w' : World) : Prop :=
  w' = { w with host := w'.host, calls := w'.calls, links := w'.links }

namespace LinksOnly

variable {w w' w'' : World}

@[refl] theorem refl (w : World) : LinksOnly w w := rfl

theorem trans (h1 : LinksOnly w w') (h2 : LinksOnly w' w'') : LinksOnly w w'' := by
  unfold LinksOnly at *
  rw [h2, h1]

theorem metas (h : LinksOnly w w') : w'.metas = w.metas := by rw [h]

theorem whiteouts (h : LinksOnly w w') : w'.whiteouts = w.whiteouts := by rw [h]

theorem of_hostOnly (h : HostOnly w w') : LinksOnly w w' := by
  unfold LinksOnly
  rw [h]

theorem sys (w : World) (op : HostOp) (p : Str) (f : Bool) (run : Host → Except Errno Host) :
    LinksOnly w (w.sys op p f run).2 := of_hostOnly (.sys w op p f run)

theorem rename (w : World) (a b : Str) : LinksOnly w (w.rename a b).2 :=
  of_hostOnly ((HostOnly.logCall w _).trans (.sys _ _ _ _ _))

theorem exchange (w : World) (a b : Str) : LinksOnly w (w.exchange a b).2 :=
  of_hostOnly ((HostOnly.logCall w _).trans (.sys _ _ _ _ _))

theorem putLinks (w : World) (t : LinkTable) : LinksOnly w (w.putLinks t) := by
  have h1 : LinksOnly w { w with links := t } := rfl
  exact h1.trans (of_hostOnly (.appendTo _ _))

end LinksOnly

instance : IsPreorder World LinksOnly where
  refl := LinksOnly.refl
  trans _ _ _ := LinksOnly.trans

end Linuxity.Kernel.World

namespace Linuxity.Runtime

open Posix Wire Kernel Abi Logic World

/-! ## Emulated hard links -/

theorem renameCall_links (flags : Nat) (src dst : Str) :
    Keeps LinksOnly (renameCall flags src dst) := by
  intro w
  unfold renameCall
  split_ifs
  · exact .rename w _ _
  · exact .exchange w _ _
  · exact .refl w

theorem saveReplaced_links (dst : Str) : Keeps LinksOnly (saveReplaced dst) := by
  intro w
  unfold saveReplaced
  split_ifs
  · exact .refl w
  · rcases w.links.promote dst with _ | ⟨heir, links⟩
    · exact .refl w
    · have h := (LinksOnly.putLinks w links).trans (.rename _ dst heir)
      dsimp only
      generalize (w.putLinks links).rename dst heir = x at h ⊢
      obtain ⟨_ | _, w'⟩ := x
      · exact h.trans (.putLinks _ _)
      · exact h

theorem restoreReplaced_links (heir : Option Str) (dst : Str) :
    Keeps LinksOnly (restoreReplaced heir dst) := by
  intro w
  rcases heir with _ | heir
  · exact .refl w
  · exact ((LinksOnly.rename w heir dst).trans (.sys _ _ _ _ _)).trans (.putLinks _ _)

theorem renameKeeping_links (flags : Nat) (src dst : Str) (there : Bool) (heir : Option Str) :
    Keeps LinksOnly (renameKeeping flags src dst there heir) := by
  refine .bind (renameCall_links flags src dst) fun e => ?_
  rcases e with e | _
  · exact .bind (restoreReplaced_links heir dst) fun _ => .pure _
  · exact .bind (.modify fun w => .putLinks w _) fun _ => .pure _

theorem renameWithLinks_links (src dst : Str) (flags : Nat) :
    Keeps LinksOnly (renameWithLinks src dst flags) := by
  refine .bind (.read _) fun w => ?_
  rcases w.host.lstat src with e | s
  · exact .pure _
  · refine .ite (.pure _)
      (.ite (.pure _)
        (.ite (.ite (.pure _) (.bind (saveReplaced_links dst) fun x => ?_))
        (renameKeeping_links flags src dst _ none)))
    rcases x with e | heir
    · exact .pure _
    · exact renameKeeping_links flags src dst _ heir

theorem movePair_rename (t : Task) (a1 a2 fl : Nat) (src dst : Str) (ps pd : PathClass)
    (w : World) :
    (movePair t a1 a2 true fl src dst ps pd w).2.metas = w.metas.rename src dst ∧
      (movePair t a1 a2 true fl src dst ps pd w).2.whiteouts = w.whiteouts := by
  have h0 : (w.renameMeta src dst).metas = w.metas.rename src dst ∧
      (w.renameMeta src dst).whiteouts = w.whiteouts := by
    simp [World.renameMeta]
  unfold movePair
  simp only [if_true, Act.modify_bind, Act.read_bind]
  split_ifs
  · have h := renameWithLinks_links ps.hostPath pd.hostPath fl (w.renameMeta src dst)
    rw [h.metas, h.whiteouts]
    exact h0
  · exact h0

/-! ## After the kernel has answered -/

/-- The books are the same, and no open is pending. -/
def Settled (w w' : World) : Prop := w.pendingOpen = [] → w'.pendingOpen = [] ∧ Books w w'

instance : IsPreorder World Settled where
  refl w h := ⟨h, .refl w⟩
  trans _ _ _ h1 h2 h := by
    obtain ⟨h1, hb1⟩ := h1 h
    obtain ⟨h2, hb2⟩ := h2 h1
    exact ⟨h2, hb1.trans hb2⟩

theorem noteOpenedFd_settled (ret : Int) (opened : Option FdFile) (w : World) :
    Settled w (noteOpenedFd ret opened w) := by
  intro hp
  have hp' : (w.setFds (w.fds.unbindFd (intOf ret))).pendingOpen = [] := hp
  unfold noteOpenedFd
  dsimp only
  rw [if_pos hp']
  split_ifs
  · exact ⟨rfl, rfl, rfl, rfl⟩
  · exact ⟨rfl, rfl, rfl, rfl⟩

instance : Quiet Settled where
  hostOnly h hp := ⟨by rw [h]; exact hp, .of_hostOnly h⟩
  cleared _ _ := ⟨rfl, rfl, rfl, rfl⟩
  opened := noteOpenedFd_settled
  dupped _ _ _ w hp := by
    unfold noteDup
    split_ifs
    · exact ⟨hp, .refl w⟩
    · exact ⟨hp, rfl, rfl, rfl⟩
    · exact ⟨hp, rfl, rfl, rfl⟩

/-- What the kernel answers does not touch the books, if no open is pending. -/
theorem serveCall_books (t : Task) (r : Regs) {sc : Sysno} (hsc : ¬Touches sc) (k : HostKernel)
    {w : World} (hp : w.pendingOpen = []) :
    Books (dispatch t r sc w).2 (serveCall t r sc k w).2 := by
  have hcur : (setCurrentPid t.pid t.ppid w).pendingOpen = [] := by
    rw [setCurrentPid_eq]
    exact hp
  have hd : (dispatch t r sc w).2.pendingOpen = [] :=
    (serve_steady t r hsc (setCurrentPid t.pid t.ppid w)).pendingOpen.trans hcur
  exact (complete_keeps (R := Settled) t r sc k _ (dispatch t r sc w).2 hd).2

end Linuxity.Runtime

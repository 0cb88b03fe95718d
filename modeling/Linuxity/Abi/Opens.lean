import Linuxity.Abi.Frame.Serve
import Linuxity.Abi.Reach

/-!
# Abi.Opens — what an open leaves pending

An open that is neither refused nor forwarded leaves its guest path in the pending fields, and with
it the stream that belongs to the new descriptor, if it can be read as a directory.
-/

namespace Linuxity.Abi

open Posix Wire Kernel Logic World

/-! ## A resolved path is not empty -/

theorem findSome_ne_nil {α : Type} {l : List α} {f : α → Option Str} (hf : ∀ a, f a ≠ some []) :
    l.findSome? f ≠ some [] := by
  intro h
  obtain ⟨a, -, h⟩ := List.exists_of_findSome?_eq_some h
  exact hf a h

theorem ite_some_ne_nil {c : Bool} {p : Str} (hp : p ≠ []) :
    (if c then some p else none) ≠ some [] := by
  rcases c with _ | _
  · simp
  · simpa using hp

theorem ownFdForm_ne_nil (t : Task) (abs : Str) : ownFdForm t abs ≠ some [] := by
  have hself : procSelf ≠ [] := List.cons_ne_nil _ _
  refine findSome_ne_nil ?_
  intro who
  refine findSome_ne_nil ?_
  intro leaf
  refine ite_some_ne_nil ?_
  simp only [ne_eq, List.append_eq_nil_iff, hself, false_and, not_false_eq_true]

theorem bindProcSelf_ne_nil {t : Task} {abs : Str} (h : abs ≠ []) : bindProcSelf t abs ≠ [] := by
  unfold bindProcSelf
  by_cases h1 : (!proc.isPrefixOf abs)
  · rw [if_pos h1]
    exact h
  rw [if_neg h1]
  rcases ho : ownFdForm t abs with _ | p
  · split_ifs
    · simp [proc]
    · simp [proc]
    · exact h
  · rintro rfl
    exact ownFdForm_ne_nil t abs ho

theorem resolveArg_ne_nil {t : Task} {r : Regs} {arg : Nat} {at_ fl : Bool} {w : World} {abs : Str}
    (h : resolveArg t r arg at_ fl w = some abs) : abs ≠ [] := by
  obtain ⟨p, hp, rfl⟩ := Option.map_eq_some_iff.1 h
  have hb : bindProcSelf t p ≠ [] := bindProcSelf_ne_nil (absolutize_normal hp).ne_nil
  unfold expandProcLinks
  dsimp only
  split_ifs
  · exact hb
  · exact hb
  · exact hb
  · exact (normalizePath_normal _).ne_nil

/-! ## The pending fields -/

structure Cleared (w : World) : Prop where
  path : w.pendingOpen = []
  dir : w.pendingDir = false
  lazy : w.pendingLazy = []
  entries : w.pendingEntries = []

theorem Cleared.of_steady {w w' : World} (h : Cleared w) (hs : Steady w w') : Cleared w' := by
  obtain ⟨h1, h2, h3, h4⟩ := h
  rw [hs]
  exact ⟨h1, h2, h3, h4⟩

/-- The open of `path` is pending, with a stream if `dir` is set. -/
def pendingOn (w : World) (path : Str) (flags : Nat) (dir : Bool) (lazy : Str)
    (entries : List VirtualDirent) : World :=
  { w with
    pendingOpen := path, pendingFlags := flags, pendingDir := dir, pendingLazy := lazy
    pendingEntries := entries }

/-- No descriptor is given: the call fails, or will be made again, or the supervisor ends. -/
inductive Declined : Outcome → Prop
  | fail (e : Errno) : Declined (.fail e)
  | retry (v ns : Int) (h : 0 < ns) : Declined (.virtualize v ns)
  | abort : Declined .abort

/-- How an open ends, from a world in which nothing is pending. -/
inductive OpenEnds (t : Task) (r : Regs) (arg : Nat) (at_ : Bool) (flags : Nat) (w : World) :
    Outcome → World → Prop
  | declined {o : Outcome} {w' : World} (ho : Declined o) (hw : Steady w w') :
      OpenEnds t r arg at_ flags w o w'
  | forwarded (hraw : t.cstr r arg = []) : OpenEnds t r arg at_ flags w .fwd w
  | host {abs hostPath lazy : Str} {fl : Nat} {b : Bool} {w' : World}
      (hn : resolveArg t r arg at_ true w = some abs)
      (hl : lazy = [] ∨ lazy = abs) (hw : Steady (pendingOn w abs fl (lazy ≠ []) lazy []) w') :
      OpenEnds t r arg at_ flags w
        (.redirect { first := { arg := arg, hostPath := hostPath }, mayBlock := b }) w'
  | virt {abs content : Str} {vf : VirtualFile} {w' : World}
      (hn : resolveArg t r arg at_ true w = some abs)
      (hp : produce w (virtualOf (classify abs (writable flags) true (openIntent flags) w).1 abs) =
          .ok vf)
      (hw : Steady (pendingOn w
        (virtualOf (classify abs (writable flags) true (openIntent flags) w).1 abs) 0
        vf.isDir [] vf.entries) w') :
      OpenEnds t r arg at_ flags w (.inject arg content vf.isDir) w'

section Rules

variable {w : World} {Q : Outcome → World → Prop}

theorem runs_refuseIf {x : Act World (Option Errno)} {k : Act World Outcome}
    (hfail : ∀ e, Q (.fail e) (x w).2) (hk : (x w).1 = none → Runs k (x w).2 Q) :
    Runs (refuseIf x k) w Q := by
  rw [runs_iff]
  rcases h : (x w).1 with _ | e
  · rw [refuseIf_apply h]
    exact hk h
  · rw [refuseIf_refused h]
    exact hfail e

theorem runs_withPath {f : World → Option Str} {k : Str → Act World Outcome} (habort : Q .abort w)
    (hk : ∀ abs, f w = some abs → Runs (k abs) w Q) : Runs (withPath f k) w Q := by
  rw [runs_iff]
  rcases h : f w with _ | abs
  · rw [withPath_abort h]
    exact habort
  · rw [withPath_apply h]
    exact hk abs h

end Rules

section Open

variable {t : Task} {r : Regs} {arg : Nat} {at_ : Bool} {flags : Nat} {w w' : World} {abs : Str}

theorem pendingOn_steady (hw : Steady w w') (path : Str) (fl : Nat) (dir : Bool) (lazy : Str)
    (entries : List VirtualDirent) :
    Steady (pendingOn w path fl dir lazy entries) (pendingOn w' path fl dir lazy entries) := by
  unfold pendingOn Steady at *
  rw [hw]

theorem setPending_eq (hc : Cleared w) (path : Str) (fl : Nat) :
    setPending path fl w = pendingOn w path fl false [] [] := by
  obtain ⟨h1, h2, h3, h4⟩ := hc
  obtain ⟨⟩ := w
  subst h1 h2 h3 h4
  rfl

theorem fifoOpen_runs (hn : resolveArg t r arg at_ true w = some abs) (hw : Steady w w')
    (hc : Cleared w) (fl : Nat) :
    Runs (fifoOpen t arg fl abs) w' (OpenEnds t r arg at_ flags w) := by
  unfold fifoOpen
  rcases t.fifoTurn with _ | e | p
  · exact .declined (.retry _ _ (by decide)) hw
  · exact .declined (.fail e) hw
  · refine runs_modify_bind (runs_pure ?_)
    rw [setPending_eq (hc.of_steady hw)]
    exact .host hn (.inl rfl) (pendingOn_steady hw _ _ _ _ _)

theorem openHost_runs (hn : resolveArg t r arg at_ true w = some abs) (hw : Steady w w')
    (hc : Cleared w) (fl : Nat) (hostPath : Str) :
    Runs (openHost t arg fl abs hostPath) w' (OpenEnds t r arg at_ flags w) := by
  refine runs_read_bind (runs_ite (fun _ => fifoOpen_runs hn hw hc fl) fun _ => runs_modify_bind ?_)
  have hpend : Steady (pendingOn w abs fl false [] []) (setPending abs fl w') := by
    rw [setPending_eq (hc.of_steady hw)]
    exact pendingOn_steady hw _ _ _ _ _
  refine runs_ite (fun _ => runs_modify_bind ?_) fun _ => runs_modify_bind ?_
  · exact .host hn (.inl rfl) (hpend.trans (grantRootWrite_steady _ _ _))
  · have habs : abs ≠ [] := resolveArg_ne_nil hn
    have hlazy : Steady (pendingOn w abs fl (abs ≠ []) abs [])
        (setPendingLazy abs (setPending abs fl w')) := by
      rw [decide_eq_true habs]
      unfold Steady pendingOn setPendingLazy at *
      rw [hpend]
    exact .host hn (.inr rfl) hlazy

theorem openVirtual_runs (hn : resolveArg t r arg at_ true w = some abs) (hw : Steady w w')
    (hc : Cleared w) :
    Runs (openVirtual t arg flags
        (virtualOf (classify abs (writable flags) true (openIntent flags) w).1 abs)) w'
      (OpenEnds t r arg at_ flags w) := by
  have hprod : ∀ p, produce w' p = produce w p := fun p => by
    unfold produce
    rw [hw.mounts]
  refine runs_ite (fun _ => .declined (.fail _) hw) fun _ => runs_read_bind ?_
  rw [hprod]
  rcases hp : produce w
    (virtualOf (classify abs (writable flags) true (openIntent flags) w).1 abs) with e | vf
  · exact .declined (.fail _) hw
  · refine runs_modify_bind (runs_modify_bind (runs_pure (.virt hn hp ?_)))
    rw [setPending_eq (hc.of_steady hw)]
    unfold Steady pendingOn setPendingDir at *
    rw [hw]

/-- An open is answered or forwarded, or its own path is pending. -/
theorem pathOpenFlags_runs (t : Task) (r : Regs) (arg : Nat) (at_ : Bool) (flags : Nat)
    (hc : Cleared w) : Runs (pathOpenFlags t r arg at_ flags) w (OpenEnds t r arg at_ flags w) := by
  refine runs_ite (fun hraw => runs_pure ?_) fun _ => ?_
  · split_ifs
    · exact .forwarded hraw
    · exact .declined (.fail _) (.refl w)
  have hdots := (dotPrefixError_looks t r arg at_).keeps w
  have hsteady : Steady w (dotPrefixError t r arg at_ w).2 :=
    (Keeps.dotPrefixError t r arg at_ : Steadies _) w
  refine runs_refuseIf (fun e => .declined (.fail _) hsteady) fun _ => ?_
  generalize (dotPrefixError t r arg at_ w).2 = w1 at hdots hsteady ⊢
  have hname : resolveArg t r arg at_ true w1 = resolveArg t r arg at_ true w := by
    rw [hdots, resolveArg_withNamed]
  refine runs_withPath (.declined .abort hsteady) fun abs hn => ?_
  rw [hname] at hn
  have hask : Runs (ask arg abs (writable flags) true (openIntent flags)) w1 fun pc w2 =>
      pc = (classify abs (writable flags) true (openIntent flags) w).1 ∧ Steady w w2 :=
    ⟨(ask_respects arg abs _ true _ w w1 hdots).1,
      hsteady.trans ((Keeps.ask arg abs _ true _ : Steadies _) w1)⟩
  refine runs_bind hask fun pc w2 h => ?_
  obtain ⟨rfl, hw2⟩ := h
  have hex := hw2.trans (exclusiveError_keeps arg flags (t.cstr r arg) abs
    (classify abs (writable flags) true (openIntent flags) w).1 w2)
  refine runs_refuseIf (fun e => .declined (.fail _) hex) fun _ => ?_
  have hlink : Runs (nofollowLink t arg flags abs) _ fun _ w4 => Steady w w4 :=
    hex.trans (nofollowLink_keeps t arg flags abs _)
  refine runs_bind hlink fun link w4 hw4 => ?_
  rcases link with _ | link
  · refine runs_read_bind (runs_ite (fun _ => .declined (.fail _) hw4) fun _ => ?_)
    unfold openClass
    rcases (classify abs (writable flags) true (openIntent flags) w).1.realm with _ | _ | _
    · exact openHost_runs hn hw4 hc flags _
    · exact openVirtual_runs hn hw4 hc
    · exact .declined (.fail _) hw4
  · refine runs_ite (fun _ => .declined (.fail _) hw4) fun _ => runs_modify_bind (runs_pure ?_)
    rw [setPending_eq (hc.of_steady hw4)]
    exact .host hn (.inl rfl) (pendingOn_steady hw4 _ _ _ _ _)

end Open

end Linuxity.Abi

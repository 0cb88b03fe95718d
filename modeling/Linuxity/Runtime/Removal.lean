import Linuxity.Kernel.Merged
import Linuxity.Runtime.Records

/-!
# Runtime.Removal — removing a name of an overlay

The kernel is asked about the upper copy alone, and not at all where there is none.  Whether the
name is a directory, and whether that is empty, is a question about both layers.
-/

namespace Linuxity.Runtime

open Posix Wire Kernel Abi Logic World

variable {sc : Sysno} {abs : Str} {r : Regs} {t : Task}

/-! ## Names of emulated hard links -/

def verdict : Except Errno Host → Outcome
  | .ok _ => .virtualize 0
  | .error e => .fail e

/-- The host call that removes a linked name: the data goes to the first other name, if it is
stored under this one. -/
def linkedUnlink (links : LinkTable) (name : Str) (h : Host) : Except Errno Host :=
  if (links.backingOf name).isSome then h.unlink name
  else match links.promote name with
    | some (heir, _) => h.rename name heir
    | none => h.unlink name

theorem sys_answer (w : World) (op : HostOp) (p : Str) (f : Bool) (run : Host → Except Errno Host) :
    answer (w.sys op p f run).1 = verdict (run w.host) := by
  unfold World.sys
  rcases run w.host with e | h <;> rfl

theorem unlinkWithLinks_answer (name : Str) (w : World) :
    (unlinkWithLinks name w).1 = verdict (linkedUnlink w.links name w.host) := by
  rw [← runs_iff (Q := fun o _ => o = verdict (linkedUnlink w.links name w.host))]
  unfold unlinkWithLinks linkedUnlink
  refine runs_read_bind (runs_ite (fun hb => ?_) fun hb => ?_)
  · rw [if_pos hb]
    refine runs_bind (R := fun x _ => answer x = verdict (w.host.unlink name))
      (sys_answer w _ _ _ _) fun x w' h => ?_
    rw [← h]
    rcases x with e | _ <;> rfl
  · rw [if_neg hb]
    rcases w.links.promote name with _ | ⟨heir, links⟩
    · exact sys_answer w _ _ _ _
    · refine runs_modify_bind ?_
      have h :=
        sys_answer
        ((w.putLinks links).logCall ⟨.rename, heir, (w.putLinks links).host.resolve heir false⟩)
        .rename name false (·.rename name heir)
      exact h.trans
        (congrArg (fun h : Host => verdict (h.rename name heir)) (World.putLinks_host w links))

/-! ## The calls -/

/-- Where the name of a removal is, and which call it is. -/
structure RemoveForm where
  arg : Nat
  at_ : Bool
  rmdir : Bool

def removeForm : Sysno → Option RemoveForm
  | .unlink => some ⟨0, false, false⟩
  | .rmdir => some ⟨0, false, true⟩
  | .unlinkat => some ⟨1, true, false⟩
  | _ => none

theorem serve_remove {f : RemoveForm} (hf : removeForm sc = some f) (t : Task) (r : Regs) :
    serve t r sc = pathMut t r f.arg f.at_ .remove false f.rmdir := by
  cases sc <;> cases hf <;> rfl

/-- The name is one of several of a file. -/
def isLinked (links : LinkTable) (p : Str) : Bool :=
  (links.backingOf p).isSome || links.hasAliases p

/-- What a removal of `abs` has changed when the host is asked. -/
def removing (abs : Str) (pc : PathClass) (w : World) : World :=
  (if pc.whiteoutLower then (w.addWhiteout abs).forgetMeta abs else w).forgetMeta abs

theorem mutClass_remove {arg : Nat} {sp mk : Bool} {pc : PathClass} (hv : pc.realm ≠ .virtualFile)
    (hp : pc.hostPath ≠ []) (w : World) :
    mutClass t r arg .remove sp mk abs pc w =
      (if isLinked w.links pc.hostPath then unlinkWithLinks pc.hostPath
        else pure (.toHost arg pc.hostPath)) (removing abs pc w) := by
  have hhost : ∀ w' : World, w'.links = w.links →
    mutHost t r arg .remove sp mk abs pc w' =
      (if isLinked w.links pc.hostPath then unlinkWithLinks pc.hostPath
      else pure (.toHost arg pc.hostPath))
        (w'.forgetMeta abs) := by
    intro w' hl
    unfold mutHost
    rw [Act.read_bind]
    simp only [reduceCtorEq, false_and, if_false, if_true, Act.modify_bind, id, hl]
    rfl
  unfold mutClass removing
  rw [if_neg hv]
  by_cases hlow : pc.whiteoutLower
  · rw [if_pos hlow, if_pos hlow, if_neg hp]
    unfold whiteOut
    rw [Act.modify_bind]
    exact hhost _ (by simp [World.forgetMeta])
  · rw [if_neg hlow, if_neg hlow, if_neg hp]
    exact hhost w rfl

theorem removing_links (abs : Str) (pc : PathClass) (w : World) :
    (removing abs pc w).links = w.links := by
  unfold removing World.forgetMeta
  split_ifs <;> simp

theorem removing_host (abs : Str) (pc : PathClass) (w : World) :
    (removing abs pc w).host = w.host := by
  unfold removing World.forgetMeta
  split_ifs <;> simp

/-! ## The property -/

def Succeeds (a : Answer) : Prop := ∃ v, a = .ret v ∧ 0 ≤ v

/-- What the kernel lets be removed: an empty directory by `rmdir`, anything else by `unlink`. -/
def Removable (rmdir : Bool) (h : Host) (p : Str) : Prop :=
  ∃ l n, foundAt h p false = some l ∧ h.node l = some n ∧ n.isDir = rmdir ∧
    (rmdir → ∀ c, h.node (l ++ [c]) = none)

/-- The kernel removes the path it is given only if that can be removed. -/
def KernelChecks (t : Task) (r : Regs) (sc : Sysno) (rmdir : Bool) (k : HostKernel)
    (w : World) : Prop :=
  ∀ rd, (dispatch t r sc w).1 = .redirect rd → Succeeds (serveCall t r sc k w).1 →
    Removable rmdir (dispatch t r sc w).2.host rd.first.hostPath

/-- The guest sees a directory without entries, or no directory. -/
def Fits (rmdir : Bool) (w : World) (abs : Str) : Prop :=
  (seenAt w abs).any Node.isDir = rmdir ∧ (rmdir → Bare (overlayDirUnion w abs))

/-- A removal succeeds only for what the guest sees to be removable. -/
def Obeys (t : Task) (r : Regs) (sc : Sysno) (w : World) : Prop :=
  ∀ f abs m k, removeForm sc = some f →
    resolveArg t r f.arg f.at_ true (setCurrentPid t.pid t.ppid w) = some abs →
    Overlay w.mounts abs m → KernelChecks t r sc (removedirFlag r f.arg f.at_ f.rmdir) k w →
    Succeeds (serveCall t r sc k w).1 →
    Fits (removedirFlag r f.arg f.at_ f.rmdir) (setCurrentPid t.pid t.ppid w) abs

/-- What is not asked, the state has to answer. -/
structure RemovalFit (rmdir : Bool) (w : World) (m : Mount) (abs : Str) : Prop where
  /-- A name that only the lower layer has. -/
  lower : hostExists w.host (m.up abs) = false → hostExists w.host (m.lo abs) → abs ∉ w.whiteouts →
    (seenAt w abs).any Node.isDir = rmdir ∧ (rmdir → LowerBare w m abs)
  /-- A directory that is empty in the upper layer. -/
  upper : isLinked w.links (m.up abs) = false → rmdir → Removable true w.host (m.up abs) →
    LowerBare w m abs
  /-- A name of an emulated hard link, which either call removes: the type is that of the file
  behind it. -/
  linked : hostExists w.host (m.up abs) → isLinked w.links (m.up abs) →
    (∃ h, linkedUnlink w.links (m.up abs) w.host = .ok h) →
    (nodeAnyLength w.host (aliased w.links (m.up abs)) false).toOption.any Node.isDir = rmdir ∧
      (rmdir → LayerBare w m abs (m.up abs) ∧ LowerBare w m abs)

/-! ## How a removal ends -/

section Ends

variable {t : Task} {r : Regs} {arg : Nat} {sp mk : Bool} {w w' : World} {m : Mount} {abs : Str}

inductive RemoveEnds (arg : Nat) (w : World) (m : Mount) (abs : Str) (res : Outcome × World) : Prop
  | absent (hx : hostExists w.host (m.up abs) = false)
      (hn : abs ∈ w.whiteouts ∨ hostExists w.host (m.lo abs) = false)
      (ho : res.1 = .fail .enoent)
  | hidden (hx : hostExists w.host (m.up abs) = false) (hlo : hostExists w.host (m.lo abs))
      (hwh : abs ∉ w.whiteouts) (ho : res.1 = .virtualize 0)
  | linked (hx : hostExists w.host (m.up abs)) (hl : isLinked w.links (m.up abs))
      (ho : res.1 = verdict (linkedUnlink w.links (m.up abs) w.host))
  | host (hx : hostExists w.host (m.up abs)) (hl : isLinked w.links (m.up abs) = false)
      (ho : res.1 = .toHost arg (m.up abs)) (hw : res.2.host = w.host)

theorem classify_overlay_remove (hm : Overlay w.mounts abs m) :
    (classify abs true false .remove w).1 = (classifyWrite w m .remove abs).1 := by
  unfold classify
  rw [classifyName_overlay hm]
  simp [resolveAlias]

theorem mutClass_upper {pc : PathClass} (hv : pc.realm ≠ .virtualFile) (hp : pc.hostPath = m.up abs)
    (hx : hostExists w.host (m.up abs)) (hw : Alike w w') :
    RemoveEnds arg w m abs (mutClass t r arg .remove sp mk abs pc w') := by
  have hne : m.up abs ≠ [] := by
    obtain ⟨l, hl⟩ := hostExists_iff.1 hx
    exact (foundAt_eq_some.1 hl).1
  have hlinks : w'.links = w.links := by rw [hw]; rfl
  rw [mutClass_remove hv (hp ▸ hne), hp, hlinks]
  by_cases hl : isLinked w.links (m.up abs)
  · have ho := unlinkWithLinks_answer (m.up abs) (removing abs pc w')
    rw [removing_links, removing_host, hlinks, hw.host] at ho
    rw [if_pos hl]
    exact .linked hx hl ho
  · rw [if_neg hl]
    exact .host hx (by simpa using hl) rfl ((removing_host abs pc w').trans hw.host)

theorem mutClass_ends (hm : Overlay w.mounts abs m) (hw : Alike w w') :
    RemoveEnds arg w m abs
      (mutClass t r arg .remove sp mk abs (classify abs true false .remove w).1 w') := by
  rw [classify_overlay_remove hm]
  by_cases hx : hostExists w.host (m.up abs)
  · refine mutClass_upper ?_ ?_ hx hw
    · simp [classifyWrite, hx]
    · simp [classifyWrite, hx]
  · have hnone : hostExists w.host (m.up abs) = false := by simpa using hx
    by_cases hgone : (w.isWhiteout abs || !hostExists w.host (m.lo abs))
    · have hpc : (classifyWrite w m .remove abs).1 = .missing .enoent := by
        unfold classifyWrite
        dsimp only
        rw [if_neg hx, if_pos hgone]
      rw [hpc]
      exact .absent hnone (by simpa [World.isWhiteout] using hgone) rfl
    · have hpc : (classifyWrite w m .remove abs).1 =
          { PathClass.missing .enoent with whiteoutLower := true } := by
        unfold classifyWrite
        dsimp only
        rw [if_neg hx, if_neg hgone]
      rw [hpc]
      simp only [World.isWhiteout, Bool.or_eq_true, decide_eq_true_eq, Bool.not_eq_true', not_or,
        Bool.not_eq_false] at hgone
      exact .hidden hnone hgone.2 hgone.1 rfl

end Ends

/-! ## What the guest sees -/

section See

variable {w : World} {m : Mount} {abs : Str}

theorem fits_of_lower (hm : Overlay w.mounts abs m) (hx : hostExists w.host (m.up abs) = false)
    {rmdir : Bool} :
    Fits rmdir w abs ↔ (seenAt w abs).any Node.isDir = rmdir ∧ (rmdir → LowerBare w m abs) := by
  have hup : LayerBare w m abs (m.up abs) := by
    unfold LayerBare
    rw [mergeDir_absent hx]
    nofun
  unfold Fits
  rw [union_bare_iff hm, and_iff_right hup]

/-- The upper name is seen as the file behind it. -/
theorem fits_of_exists (hm : Overlay w.mounts abs m) (hx : hostExists w.host (m.up abs))
    {rmdir : Bool} :
    Fits rmdir w abs ↔
      (nodeAnyLength w.host (aliased w.links (m.up abs)) false).toOption.any Node.isDir = rmdir ∧
      (rmdir → LayerBare w m abs (m.up abs) ∧ LowerBare w m abs) := by
  unfold Fits
  rw [seenAt_overlay hm, if_neg (probeLink_of_exists hx).1, union_bare_iff hm]

/-- What the kernel lets be removed of the upper layer has the right type; its lower twin may still
have entries. -/
theorem fits_of_upper (hm : Overlay w.mounts abs m) (hl : isLinked w.links (m.up abs) = false)
    {rmdir : Bool} (hr : Removable rmdir w.host (m.up abs)) :
    Fits rmdir w abs ↔ (rmdir → LowerBare w m abs) := by
  obtain ⟨l, n, hfound, hn, hd, he⟩ := hr
  have hx := hostExists_iff.2 ⟨l, hfound⟩
  have hback : aliased w.links (m.up abs) = m.up abs := by
    unfold isLinked at hl
    rw [Bool.or_eq_false_iff, Option.isSome_eq_false_iff, Option.isNone_iff_eq_none] at hl
    simp [aliased, hl.1]
  rw [fits_of_exists hm hx, hback, nodeAnyLength_eq_ok.2 ⟨l, hfound, hn⟩]
  refine (and_iff_right hd).trans (forall_congr' fun hrm => and_iff_right ?_)
  subst hrm
  have hnot : ∀ n', w.host.node l = some n' → n'.isLink = false := by
    intro n' hn'
    obtain rfl := Option.some.inj (hn.symm.trans hn')
    have hk : n.kind = .dir := by simpa [Node.isDir] using hd
    simp [Node.isLink, hk]
  unfold LayerBare
  rw [mergeDir_empty (dirLoc_eq _ _ ▸ foundAt_follow hfound hnot) (he rfl)]
  exact fun _ hmem => absurd hmem List.not_mem_nil

end See

/-! ## Every removal -/

section Removal

variable {t : Task} {r : Regs} {sc : Sysno} {k : HostKernel} {w : World}

theorem complete_refused_state {o : Outcome} (ho : Refused o) (t : Task) (r : Regs) (sc : Sysno)
    (k : HostKernel) (w : World) : (complete t r sc k o w).2 = w := by
  rcases ho with e | _ <;> rfl

theorem not_succeeds_refused {o : Outcome} (ho : Refused o) :
    ¬Succeeds (complete t r sc k o w).1 := by
  rintro ⟨v, hv, h0⟩
  rcases ho with e | _
  · have := errnoCode_pos e
    have hv : -errnoCode e = v := Answer.ret.inj hv
    omega
  · cases hv

theorem succeeds_verdict {x : Except Errno Host} :
    Succeeds (complete t r sc k (verdict x) w).1 ↔ ∃ h, x = .ok h := by
  rcases x with e | h
  · refine ⟨fun hs => absurd hs (not_succeeds_refused (.fail e)), fun ⟨h, hh⟩ => ?_⟩
    cases hh
  · exact ⟨fun _ => ⟨h, rfl⟩, fun _ => ⟨0, rfl, le_refl 0⟩⟩

/-- A kernel that lets every call succeed. -/
def kindKernel : HostKernel := fun _ h => { reply := .ok 0, host := h }

theorem succeeds_toHost (arg : Nat) (p : Str) :
    Succeeds (complete t r sc kindKernel (.toHost arg p) w).1 := by
  refine ⟨0, ?_, le_refl 0⟩
  have hloud : ({ first := { arg := arg, hostPath := p } } : Redirect).isNoop = false := by
    simp [Redirect.isNoop]
  change (redirectCall t r sc kindKernel { first := { arg := arg, hostPath := p } } w).1 = .ret 0
  unfold redirectCall
  simp [hloud]
  rfl

theorem dispatch_run {f : RemoveForm} (hf : removeForm sc = some f) (w : World) :
    MutRun t r f.arg f.at_ .remove f.rmdir false false (setCurrentPid t.pid t.ppid w)
      (dispatch t r sc w) := by
  rw [show dispatch t r sc w = serve t r sc (setCurrentPid t.pid t.ppid w) from rfl,
    serve_remove hf t r]
  exact pathMut_run _ _ _

theorem dispatch_ends {f : RemoveForm} (hf : removeForm sc = some f) {abs : Str} {m : Mount}
    (hm : Overlay w.mounts abs m)
    (hp : MutPasses t r f.arg f.at_ .remove f.rmdir (setCurrentPid t.pid t.ppid w) abs) :
    RemoveEnds f.arg (setCurrentPid t.pid t.ppid w) m abs (dispatch t r sc w) := by
  have hm0 : Overlay (setCurrentPid t.pid t.ppid w).mounts abs m := by rwa [setCurrentPid_eq]
  rcases dispatch_run (t := t) (r := r) hf w with
    ⟨-, -, hn⟩ | ⟨abs', ha, -, -, hn⟩ | ⟨abs', hp', w', hw, hres⟩
  · exact absurd hp.toMutAsks (hn abs)
  · obtain rfl := ha.unique hp.toMutAsks
    exact absurd hp hn
  · obtain rfl := hp'.toMutAsks.unique hp.toMutAsks
    rw [classify_remove] at hw
    rw [hres]
    exact mutClass_ends hm0 hw

end Removal

/-- A removal succeeds only for what the guest sees to be removable, exactly if the state answers
what the kernel is not asked: a name that only the lower layer has is of the right type, and a
directory without upper entries has no visible lower ones. -/
theorem removal_obeys_iff (t : Task) (r : Regs) (sc : Sysno) (w : World) :
    Obeys t r sc w ↔ ∀ f abs m, removeForm sc = some f →
      MutPasses t r f.arg f.at_ .remove f.rmdir (setCurrentPid t.pid t.ppid w) abs →
      Overlay w.mounts abs m →
      RemovalFit (removedirFlag r f.arg f.at_ f.rmdir) (setCurrentPid t.pid t.ppid w) m abs := by
  have hover : ∀ {abs m}, Overlay w.mounts abs m →
      Overlay (setCurrentPid t.pid t.ppid w).mounts abs m := by
    intro abs m hm
    rwa [setCurrentPid_eq]
  constructor
  · intro hob f abs m hf hp hm
    have hob := fun k => hob f abs m k hf hp.name hm
    have hends := dispatch_ends hf hm hp
    unfold KernelChecks at hob
    simp only [serveCall, Act.bind_apply] at hob
    generalize dispatch t r sc w = x at hob hends
    obtain ⟨o, w1⟩ := x
    have hm0 := hover hm
    refine ⟨fun hx hlo hwh => ?_, fun hl hrm hr => ?_, fun hx hl hok => ?_⟩
    · rcases hends with ⟨-, hn, -⟩ | ⟨-, -, -, rfl⟩ | ⟨hx', -, -⟩ | ⟨hx', -, -, -⟩
      · rcases hn with hn | hn
        · exact absurd hn hwh
        · simp [hn] at hlo
      · exact (fits_of_lower hm0 hx).1 (hob kindKernel (by rintro _ ⟨⟩) ⟨0, rfl, le_refl 0⟩)
      · simp [hx'] at hx
      · simp [hx'] at hx
    · have hx : hostExists (setCurrentPid t.pid t.ppid w).host (m.up abs) := by
        obtain ⟨l, -, hfound, -⟩ := hr
        exact hostExists_iff.2 ⟨l, hfound⟩
      rcases hends with ⟨hx', -, -⟩ | ⟨hx', -, -, -⟩ | ⟨-, hl', -⟩ | ⟨-, -, rfl, hw⟩
      · simp [hx'] at hx
      · simp [hx'] at hx
      · simp [hl'] at hl
      · have hfit := hob kindKernel (fun rd hrd _ => ?_) (succeeds_toHost _ _)
        · rw [hrm] at hfit
          exact (fits_of_upper hm0 hl hr).1 hfit rfl
        · obtain rfl := Outcome.redirect.inj hrd
          rw [hrm, hw]
          exact hr
    · rcases hends with ⟨hx', -, -⟩ | ⟨hx', -, -, -⟩ | ⟨-, -, rfl⟩ | ⟨-, hl', -, -⟩
      · simp [hx'] at hx
      · simp [hx'] at hx
      · refine (fits_of_exists hm0 hx).1
          (hob kindKernel (fun rd hrd => ?_) (succeeds_verdict.2 hok))
        obtain ⟨h, hh⟩ := hok
        rw [hh] at hrd
        cases hrd
      · simp [hl'] at hl
  · intro hfit f abs m k hf hname hm hck hs
    have hck := fun rd hrd => hck rd hrd hs
    change Succeeds (complete t r sc k (dispatch t r sc w).1 (dispatch t r sc w).2).1 at hs
    rcases dispatch_run (t := t) (r := r) hf w with
      ⟨ho, -, -⟩ | ⟨abs', -, ho, -, -⟩ | ⟨abs', hp, -, -, -⟩
    · exact absurd hs (not_succeeds_refused ho)
    · exact absurd hs (not_succeeds_refused ho)
    · obtain rfl : abs' = abs := Option.some.inj (hp.name.symm.trans hname)
      have hfit := hfit f abs' m hf hp hm
      have hm0 := hover hm
      rcases dispatch_ends hf hm hp with
        ⟨-, -, ho⟩ | ⟨hx, hlo, hwh, -⟩ | ⟨hx, hl, ho⟩ | ⟨-, hl, ho, hw⟩
      · rw [ho] at hs
        exact absurd hs (not_succeeds_refused (.fail _))
      · exact (fits_of_lower hm0 hx).2 (hfit.lower hx hlo hwh)
      · rw [ho] at hs
        exact (fits_of_exists hm0 hx).2 (hfit.linked hx hl (succeeds_verdict.1 hs))
      · have hr := hck _ ho
        rw [hw] at hr
        refine (fits_of_upper hm0 hl hr).2 fun hrm => hfit.upper hl hrm ?_
        rw [hrm] at hr
        exact hr

/-! ## Four removals -/

/-- A removal of `p` in the two layers. -/
def removes (p : Str) (sc : Sysno) : Answer :=
  (runNative (twoTexts p []) (twoPaths p) sc (layeredWorld ∅)).1

/-- `rmdir("/d")`, whose file only the lower layer has, `rmdir("/t")` of a file, `unlink("/d")` of a
directory and `rmdir("/e")`, which is empty in the upper layer alone, all succeed. -/
theorem removal_ignores_lower :
    (removes "/d".toList .rmdir = .ret 0 ∧ ¬Bare (overlayDirUnion (layeredWorld ∅) "/d".toList)) ∧
      (removes "/t".toList .rmdir = .ret 0 ∧
        (seenAt (layeredWorld ∅) "/t".toList).any Node.isDir = false) ∧
      (removes "/d".toList .unlink = .ret 0 ∧
        (seenAt (layeredWorld ∅) "/d".toList).any Node.isDir = true) ∧
      (removes "/e".toList .rmdir = .ret 0 ∧ ¬Bare (overlayDirUnion (layeredWorld ∅) "/e".toList)) ∧
      ¬Obeys (twoTexts "/d".toList []) (twoPaths "/d".toList) .rmdir (layeredWorld ∅) := by
  refine ⟨⟨by decide +kernel, by decide +kernel⟩, ⟨by decide +kernel, by decide +kernel⟩,
    ⟨by decide +kernel, by decide +kernel⟩, ⟨by decide +kernel, by decide +kernel⟩, fun hob => ?_⟩
  have hout :
      (dispatch (twoTexts "/d" []) (twoPaths "/d") .rmdir (layeredWorld ∅)).1 = .virtualize 0 := by
    decide +kernel
  have hfit :=
    hob ⟨0, false, true⟩ "/d" layeredMount kindKernel rfl (by decide +kernel) (layered_overlay _ _)
    (fun rd hrd => by rw [hout] at hrd; cases hrd) ⟨0, by decide +kernel, le_refl 0⟩
  exact absurd (hfit.2 rfl) (by decide +kernel)

end Linuxity.Runtime

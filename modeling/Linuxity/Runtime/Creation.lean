import Linuxity.Kernel.Still
import Linuxity.Posix.Undo
import Linuxity.Runtime.Removal

/-!
# Runtime.Creation — making a name that is there already

`mkdir`, `mknod`, `symlink` and `link` are handed to the kernel with the upper path of the new name.
The kernel refuses a name that the upper layer has.  It does not see one that only the lower layer
has, and by the time it is asked the upper layer and the whiteouts may have changed already.
-/

namespace Linuxity.Runtime

open Posix Wire Kernel Abi Logic World

/-! ## The calls -/

inductive CreateForm where
  | node (arg : Nat) (at_ mknod : Bool)
  | symlink (arg : Nat) (at_ : Bool)
  | link (a1 a2 : Nat) (at_ : Bool) (flags : Option Nat)

def createForm (r : Regs) : Sysno → Option CreateForm
  | .mkdir => some (.node 0 false false)
  | .mkdirat => some (.node 1 true false)
  | .mknod => some (.node 0 false true)
  | .mknodat => some (.node 1 true true)
  | .symlink => some (.symlink 1 false)
  | .symlinkat => some (.symlink 2 true)
  | .link => some (.link 0 1 false none)
  | .linkat => some (.link 1 3 true (some (r.arg 4)))
  | _ => none

def CreateForm.name (t : Task) (r : Regs) : CreateForm → World → Option Str
  | .node arg at_ _ => resolveArg t r arg at_ true
  | .symlink arg at_ => linkName t r arg at_
  | .link _ a2 at_ _ => resolveSecond t r a2 at_

def CreateForm.serve (t : Task) (r : Regs) : CreateForm → Act World Outcome
  | .node arg at_ isNode => pathMut t r arg at_ .parentsOnly true false isNode
  | .symlink arg at_ => pathSymlink t r 0 arg at_
  | .link a1 a2 at_ lf => pathMut2 t r a1 a2 at_ false lf

theorem dispatch_create {t : Task} {r : Regs} {sc : Sysno} {f : CreateForm}
    (hf : createForm r sc = some f) (w : World) :
    dispatch t r sc w = f.serve t r (setCurrentPid t.pid t.ppid w) := by
  cases sc <;> cases hf <;> rfl

/-! ## The property -/

def newPath (rd : Redirect) : Str := (rd.second.getD rd.first).hostPath

/-- The call that the kernel gets for a redirect, with paths below a directory of the caller. -/
def handedPaths (t : Task) (r : Regs) (sc : Sysno) (rd : Redirect) (w : World) : Handed :=
  .paths (rebaseOnDirfd t r sc rd.first w) (rd.second.map (rebaseOnDirfd t r sc · w))

/-- The kernel makes no name where one is: it fails the call that is handed on. -/
def Exclusive (t : Task) (r : Regs) (sc : Sysno) (k : HostKernel) (o : Outcome)
    (w : World) : Prop :=
  ∀ rd, o = .redirect rd → hostExists w.host (newPath rd) →
    SameTree w.host (k (handedPaths t r sc rd w) w.host).host ∧
      ∀ v, (k (handedPaths t r sc rd w) w.host).reply = .ok v → v < 0

/-- A call fails whose new name the guest can see, and both layers stay as they are. -/
def Excludes (t : Task) (r : Regs) (sc : Sysno) (w : World) : Prop :=
  ∀ f abs m k, createForm r sc = some f → f.name t r (setCurrentPid t.pid t.ppid w) = some abs →
    Overlay w.mounts abs m → (seenAt w abs).isSome →
    Exclusive t r sc k (dispatch t r sc w).1 (dispatch t r sc w).2 →
    ¬Succeeds (serveCall t r sc k w).1 ∧ SameLayers w (serveCall t r sc k w).2

/-! ## After the dispatcher -/

/-- How the dispatcher ends a creation. -/
inductive Closing (o : Outcome) : Prop
  | refused (ho : Refused o)
  | made (ho : o = .virtualize 0)
  | handed (rd : Redirect) (ho : o = .redirect rd) (loud : rd.isNoop = false)
      (block : rd.mayBlock = false) (parents : rd.makeParents = false) (force : rd.forceRet = none)

/-- What it has to leave behind: the layers as they were, and a path for the kernel that is
taken. -/
structure Barred (w : World) (o : Outcome) (w' : World) : Prop where
  layers : SameLayers w w'
  unmade : o ≠ .virtualize 0
  taken : ∀ rd, o = .redirect rd → hostExists w'.host (newPath rd)

/-- A kernel that makes every name that is not taken. -/
def takingKernel (p : Str) : HostKernel := fun _ h =>
  { reply := .ok (if hostExists h p then -17 else 0), host := h }

section After

variable {t : Task} {r : Regs} {sc : Sysno} {w w' : World} {o : Outcome}

theorem noteOpenedFd_layers {v : Int} (hv : v < 0) (opened : Option FdFile) (w : World) :
    (noteOpenedFd v opened w).host = w.host ∧
      (noteOpenedFd v opened w).whiteouts = w.whiteouts := by
  unfold noteOpenedFd
  rw [if_pos hv]
  exact ⟨rfl, rfl⟩

theorem not_succeeds_recover (e : Errno) : ¬Succeeds (recover e) := by
  have := errnoCode_pos e
  rintro ⟨v, hv, h0⟩
  unfold recover at hv
  split_ifs at hv
  cases hv
  omega

theorem runNoting_taken {k : HostKernel} {x : Handed} (ht : SameTree w.host (k x w.host).host)
    (hv : ∀ v, (k x w.host).reply = .ok v → v < 0) :
    ¬Succeeds (runNoting k x noteOpenedFd none w).1 ∧
      SameLayers w (runNoting k x noteOpenedFd none w).2 := by
  unfold runNoting
  rw [Act.bind_apply]
  have hrun : SameLayers w (runIn k x w).2 := ⟨ht, rfl⟩
  rcases hr : (runIn k x w).1.reply with e | v
  · exact ⟨not_succeeds_recover e, hrun⟩
  · have hneg : v < 0 := hv v hr
    obtain ⟨hh, hwh⟩ := noteOpenedFd_layers hneg (runIn k x w).1.opened (runIn k x w).2
    refine ⟨fun ⟨u, hu, h0⟩ => ?_, fun l => ?_, hwh.trans hrun.whiteouts⟩
    · obtain rfl : v = u := Answer.ret.inj hu
      omega
    · exact (congrArg (Host.node · l) hh).trans (hrun.tree l)

theorem refused_ne {o : Outcome} (ho : Refused o) : o ≠ .virtualize 0 ∧ ∀ rd, o ≠ .redirect rd := by
  rcases ho with e | _
  · have := errnoCode_pos e
    refine ⟨fun h => ?_, nofun⟩
    have h0 : -errnoCode e = 0 := (Outcome.virtualize.inj h).1
    omega
  · exact ⟨nofun, nofun⟩

theorem takingKernel_exclusive (rd : Redirect) :
    Exclusive t r sc (takingKernel (newPath rd)) (.redirect rd) w := by
  rintro rd' ⟨⟩ hx
  refine ⟨.refl _, fun v hv => ?_⟩
  rw [takingKernel, if_pos hx] at hv
  cases hv
  decide

theorem refusing_exclusive :
    Exclusive t r sc (fun _ h => { reply := .ok (-17), host := h }) o w := by
  intro rd _ _
  refine ⟨.refl _, fun v hv => ?_⟩
  cases hv
  decide

theorem takingKernel_taken {p : Str} (hp : hostExists w.host p) (x : Handed) :
    (runNoting (takingKernel p) x noteOpenedFd none w).2 =
      noteOpenedFd (-17) none (runIn (takingKernel p) x w).2 := by
  unfold runNoting
  rw [Act.bind_apply]
  simp only [runIn, takingKernel, if_pos hp]
  rfl

theorem takingKernel_free {p : Str} (hp : ¬hostExists w.host p) (x : Handed) :
    Succeeds (runNoting (takingKernel p) x noteOpenedFd none w).1 := by
  refine ⟨0, ?_, le_refl 0⟩
  unfold runNoting
  rw [Act.bind_apply]
  simp only [runIn, takingKernel, if_neg hp]
  rfl

theorem complete_barred_iff (ho : Closing o) :
    (∀ k, Exclusive t r sc k o w' →
      ¬Succeeds (complete t r sc k o w').1 ∧ SameLayers w (complete t r sc k o w').2) ↔
      Barred w o w' := by
  rcases ho with ho | rfl | ⟨rd, rfl, loud, block, parents, force⟩
  · have hne := refused_ne ho
    have hstate := fun k => complete_refused_state ho t r sc k w'
    constructor
    · intro h
      obtain ⟨-, hs⟩ := h kindKernel fun rd hrd => absurd hrd (hne.2 rd)
      rw [hstate] at hs
      exact ⟨hs, hne.1, fun rd hrd => absurd hrd (hne.2 rd)⟩
    · intro hb k _
      rw [hstate]
      exact ⟨not_succeeds_refused ho, hb.layers⟩
  · constructor
    · intro h
      exact absurd ⟨0, rfl, le_refl 0⟩ (h kindKernel nofun).1
    · exact fun hb => absurd rfl hb.unmade
  · have hplain : ∀ k, complete t r sc k (.redirect rd) w' =
        runNoting k (handedPaths t r sc rd w') noteOpenedFd none w' := by
      intro k
      change redirectCall t r sc k rd w' = _
      unfold redirectCall
      simp only [loud, block, parents, force, Bool.false_and, Bool.false_eq_true, if_false,
        Option.isSome_none]
      rfl
    generalize hx : handedPaths t r sc rd w' = x at hplain
    constructor
    · intro h
      obtain ⟨hns, hs⟩ := h (takingKernel (newPath rd)) (takingKernel_exclusive rd)
      rw [hplain] at hns hs
      by_cases htaken : hostExists w'.host (newPath rd)
      · refine ⟨?_, nofun, fun rd' hrd => ?_⟩
        · obtain ⟨hh, hwh⟩ := noteOpenedFd_layers (show (-17 : Int) < 0 by decide) none
            (runIn (takingKernel (newPath rd)) x w').2
          rw [takingKernel_taken htaken] at hs
          exact ⟨fun l => (congrArg (Host.node · l) hh).symm.trans (hs.tree l),
            hwh.symm.trans hs.whiteouts⟩
        · cases hrd
          exact htaken
      · exact absurd (takingKernel_free htaken x) hns
    · intro hb k hk
      obtain ⟨ht, hv⟩ := hk rd rfl (hb.taken rd rfl)
      rw [hx] at ht hv
      rw [hplain]
      obtain ⟨hn, hs⟩ := runNoting_taken ht hv
      exact ⟨hn, hb.layers.trans hs⟩

end After

/-! ## What the dispatcher does after it has asked -/

section Onwards

variable {w w' w'' : World} {o : Outcome} {m : Mount} {abs : Str}

/-! ## The placeholder of a FIFO -/

/-- The check that is made before the placeholder of a FIFO. -/
def looksTaken (w : World) (abs : Str) : Bool :=
  let pc := (classify abs false false .copyLeaf w).1
  pc.realm == .hostBacked && (hostLexists w.host pc.hostPath).isOk

/-- The FIFO is seen to be there, or its placeholder cannot be made. -/
def FifoTaken (w : World) (abs p : Str) : Prop :=
  looksTaken w abs ∨ (∀ sub ∈ cuts [] (dirOf p), ∃ e, w.host.mkdir sub 0 = .error e) ∧
    (w.host.createExcl p 0o600).isOk = false

theorem mkdirs_still (ds : List Str) (mode : Nat) (w : World) :
    Onward w (ds.foldl (fun w d => (w.mkdir d mode).2) w) ∧
      (SameLayers w (ds.foldl (fun w d => (w.mkdir d mode).2) w) ↔
        ∀ d ∈ ds, ∃ e, w.host.mkdir d 0 = .error e) := by
  have hfold := Steps.foldl (f := fun w d => (w.mkdir d mode).2)
    (Q := fun h d => ∃ e, h.mkdir d 0 = .error e) (fun w d => (mkdir_still w d mode).1)
    (fun w d => (mkdir_still w d mode).2)
  have hwh : ∀ w : World, (ds.foldl (fun w d => (w.mkdir d mode).2) w).whiteouts = w.whiteouts := by
    clear hfold
    intro w
    induction ds generalizing w with
    | nil => rfl
    | cons d ds ih =>
      have hd : (w.mkdir d mode).2.whiteouts = w.whiteouts := (HostOnly.sys w _ _ _ _).whiteouts
      rw [List.foldl_cons, ih, hd]
  have ho : Onward w (ds.foldl (fun w d => (w.mkdir d mode).2) w) := ⟨(hfold ds w).1, by rw [hwh]⟩
  refine ⟨ho, ?_⟩
  rw [ho.same_iff_eq, and_iff_left (hwh w)]
  exact (hfold ds w).2

/-- How a part of the dispatcher ends that leaves the layers alone unless it makes the name. -/
structure Ends (w : World) (C : Prop) (o : Outcome) (w' : World) : Prop where
  closing : Closing o
  still : o ≠ .virtualize 0 → SameLayers w w'
  barred : Barred w o w' ↔ C

variable {C D R : Prop}

theorem Ends.congr (h : Ends w C o w') (hcd : C ↔ D) : Ends w D o w' :=
  ⟨h.closing, h.still, h.barred.trans hcd⟩

theorem ends_still (hC : C) (e : Errno) (w : World) : Ends w C (.fail e) w := by
  refine ⟨.refused (.fail e), fun _ => .refl w, fun _ => hC, fun _ => ⟨.refl w, ?_, nofun⟩⟩
  exact (refused_ne (.fail e)).1

theorem ends_handed {rd : Redirect} {p : Str} (hp : newPath rd = p) (loud : rd.isNoop = false)
    (block : rd.mayBlock = false) (parents : rd.makeParents = false) (force : rd.forceRet = none)
    (w : World) : Ends w (hostExists w.host p) (.redirect rd) w := by
  refine ⟨.handed rd rfl loud block parents force, fun _ => .refl w, fun hb => hp ▸ hb.taken rd rfl,
    fun hx => ⟨.refl w, nofun, fun rd' hrd => ?_⟩⟩
  cases hrd
  rwa [hp]

/-- The call ends, and is barred exactly under `C`. -/
structure Settles (w : World) (C : Prop) (o : Outcome) (w' : World) : Prop where
  closing : Closing o
  barred : Barred w o w' ↔ C

theorem Settles.congr (h : Settles w C o w') (hcd : C ↔ D) : Settles w D o w' :=
  ⟨h.closing, h.barred.trans hcd⟩

/-- Nothing may have changed before a part that leaves the layers alone. -/
theorem Ends.settles (h : Ends w' C o w'') (w : World) :
    Settles w (SameLayers w w' ∧ C) o w'' := by
  refine ⟨h.closing, fun hb => ?_, fun hC => ?_⟩
  · have hs := h.still hb.unmade
    refine ⟨⟨fun l => ?_, ?_⟩, h.barred.1 ⟨hs, hb.unmade, hb.taken⟩⟩
    · rw [← hs.tree l]
      exact hb.layers.tree l
    · rw [← hs.whiteouts]
      exact hb.layers.whiteouts
  · have hb := h.barred.2 hC.2
    exact ⟨hC.1.trans hb.layers, hb.unmade, hb.taken⟩

theorem settles_refused (ho : Refused o) (hsame : SameLayers w w' ↔ R) : Settles w R o w' := by
  obtain ⟨hv, hrd⟩ := refused_ne ho
  exact ⟨.refused ho, fun hb => hsame.1 hb.layers,
    fun hR => ⟨hsame.2 hR, hv, fun rd h => absurd h (hrd rd)⟩⟩

theorem settles_alike (ho : Refused o) (hw : Alike w w') (hR : R) : Settles w R o w' :=
  settles_refused ho (iff_of_true (.of_alike hw) hR)

/-- A host call was made: if it failed, nothing changed. -/
structure Attempt (w : World) (y : Except Errno Host) (x : Except Errno Unit)
    (w' : World) : Prop where
  result : x.isOk = y.isOk
  failed : x.isOk = false → w'.host = w.host ∧ w'.whiteouts = w.whiteouts

theorem sys_attempt (w : World) (op : HostOp) (p : Str) (f : Bool)
    (run : Host → Except Errno Host) :
    Attempt w (run w.host) (w.sys op p f run).1 (w.sys op p f run).2 := by
  rcases hr : run w.host with e | h₁
  · rw [sys_of_error hr]
    exact ⟨rfl, fun _ => ⟨rfl, rfl⟩⟩
  · rw [sys_of_ok hr]
    exact ⟨rfl, nofun⟩

theorem Attempt.ends {y : Except Errno Host} {x : Except Errno Unit} (h : Attempt w y x w') :
    Ends w (y.isOk = false) (answer x) w' := by
  rw [← h.result]
  rcases x with e | _
  · obtain ⟨hh, hwh⟩ := h.failed rfl
    have hs : SameLayers w w' := .of_eq hh hwh
    have hr := refused_ne (.fail e)
    exact ⟨.refused (.fail e), fun _ => hs, fun _ => rfl, fun _ => ⟨hs, hr.1, nofun⟩⟩
  · exact ⟨.made rfl, fun ho => absurd rfl ho, fun hb => absurd rfl hb.unmade, nofun⟩

/-- A file is made, and then entered in the tables. -/
theorem entered_ends (make : Host → Except Errno Host) (p : Str) (f : World → World) (w : World) :
    Runs (do
      match ← fun w => w.sys .writeFile p false make with
      | .error e => refuse e
      | .ok _ => do
        Act.modify f
        pure (.virtualize 0)) w (Ends w ((make w.host).isOk = false)) := by
  refine runs_bind (R := Attempt w (make w.host)) (sys_attempt w .writeFile p false make)
    fun x w' h => ?_
  rcases x with e | _
  · exact h.ends
  · refine runs_modify_bind
      (runs_pure ⟨.made rfl, fun ho => absurd rfl ho, fun hb => ?_, fun hbad => ?_⟩)
    · exact absurd rfl hb.unmade
    · rw [← h.result] at hbad
      cases hbad

theorem fifoCreate_settles {w₀ : World} (hon : Onward w₀ w) (t : Task) (arg : Nat) (abs p : Str)
    (mode : Nat) :
    Runs (fifoCreate t arg abs p mode) w (Settles w₀ (SameLayers w₀ w ∧ FifoTaken w abs p)) := by
  have hask : Runs (ask arg abs false false) w fun pc w' =>
      pc = (classify abs false false .copyLeaf w).1 ∧ Alike w w' := by
    refine ⟨rfl, ?_⟩
    change Alike w ((classify abs false false .copyLeaf w).2.noteName arg abs)
    rw [classify_read]
    exact .noteName w arg abs
  refine runs_bind hask fun pc w1 h => ?_
  obtain ⟨rfl, hw1⟩ := h
  have hon1 := hon.trans (.of_alike hw1)
  have hsame1 := hon.alike_iff Iff.rfl hw1
  refine runs_read_bind (runs_ite (fun hx => ?_) fun hx => ?_)
  · rw [hw1.host] at hx
    exact settles_refused (.fail _) (hsame1.trans (and_iff_left (.inl hx)).symm)
  · rw [hw1.host] at hx
    have hnot : ¬looksTaken w abs := hx
    refine runs_modify_bind ?_
    obtain ⟨ho, hiff⟩ := mkdirs_still (cuts [] (dirOf p)) 0o755 w1
    generalize (cuts [] (dirOf p)).foldl (fun w d => (w.mkdir d 0o755).2) w1 = w2 at ho hiff ⊢
    refine Runs.mono (entered_ends (·.createExcl p 0o600) p _ w2)
      fun o w3 h => (h.settles w₀).congr ?_
    rw [hon1.same_iff ho, hsame1, hiff, hw1.host, and_assoc]
    unfold FifoTaken
    rw [or_iff_right hnot]
    refine and_congr_right fun _ => and_congr_right fun hall => ?_
    have hsame : w2.host = w.host := by
      rw [← hw1.host]
      exact (ho.same_iff_eq.1 (hiff.2 (by rwa [hw1.host]))).1
    rw [hsame]

end Onwards

/-! ## `mkdir` and `mknod` -/

section Node

variable {t : Task} {r : Regs} {arg : Nat} {at_ isNode : Bool} {w w' : World} {m : Mount}
  {abs : Str}

theorem classify_overlay_parents (hm : Overlay w.mounts abs m) :
    classify abs true false .parentsOnly w =
      (.host (aliased w.links (m.up abs)), (classifyWrite w m .parentsOnly abs).2) := by
  have hl := (classifyWrite_files w m .parentsOnly abs).links
  have hpc : (classifyWrite w m .parentsOnly abs).1 = .host (m.up abs) := rfl
  unfold classify
  rw [classifyName_overlay hm]
  dsimp only
  rw [hpc, resolveAlias_host _ (by decide), hl]

def emulatesFifo (r : Regs) (arg : Nat) (isNode : Bool) (w : World) : Bool :=
  w.fifosEmulated && isNode && r.arg (arg + 1) &&& 0o170000 == 0o010000

/-- The new name, once all checks are passed: the path the kernel is given is taken, or the
placeholder of a FIFO is. -/
def NodeTaken (r : Regs) (arg : Nat) (isNode : Bool) (w : World) (m : Mount) (abs : Str) : Prop :=
  aliased w.links (m.up abs) = [] ∨
    if emulatesFifo r arg isNode w then FifoTaken w abs (aliased w.links (m.up abs))
    else hostExists w.host (aliased w.links (m.up abs))

structure NodeClean (t : Task) (r : Regs) (arg : Nat) (at_ isNode : Bool) (w : World) (m : Mount)
    (abs : Str) : Prop where
  ready : MutAsks t r arg at_ .parentsOnly false w abs → Ready w m abs
  taken : MutPasses t r arg at_ .parentsOnly false w abs → NodeTaken r arg isNode w m abs

theorem mutClass_node {w₀ : World} (hon : Onward w₀ w) (abs p : Str) :
    Runs (mutClass t r arg .parentsOnly true isNode abs (.host p)) w
      (Settles w₀ (SameLayers w₀ w ∧
        (p = [] ∨ if emulatesFifo r arg isNode w then FifoTaken w abs p
        else hostExists w.host p))) := by
  have hvirt : ¬(PathClass.host p).realm = .virtualFile := by simp
  have hlow : ¬(PathClass.host p).whiteoutLower := by simp [PathClass.host]
  unfold mutClass
  rw [if_neg hvirt, if_neg hlow]
  refine runs_ite (fun hp => ?_) fun hp => ?_
  · have hp : p = [] := hp
    exact runs_pure ((ends_still (.inl hp) _ w).settles w₀)
  · have hp : p ≠ [] := hp
    rw [or_iff_right hp]
    refine runs_read_bind (runs_ite (fun hem => ?_) fun hem => ?_)
    · have hem : emulatesFifo r arg isNode w := by simpa [emulatesFifo, and_assoc] using hem
      rw [if_pos hem]
      exact fifoCreate_settles hon t arg abs p _
    · have hem : ¬emulatesFifo r arg isNode w := by simpa [emulatesFifo, and_assoc] using hem
      rw [if_neg hem]
      exact runs_ite (fun h => by cases h) fun _ => runs_pure ((ends_handed (by rfl)
        (by simp [Redirect.isNoop]) (by rfl) (by simp) (by rfl) w).settles w₀)

/-- A call that makes one name: what is taken has to be the same before it and after it has been
prepared. -/
theorem nameRun_settles {Asks Passes : Str → Prop} {act : Str → PathClass → Act World Outcome}
    {T : World → Prop} {res : Outcome × World} (hrun : NameRun Asks Passes .parentsOnly act w res)
    (hm : Overlay w.mounts abs m) (hasks : ∀ a, Passes a → Asks a) (huniq : ∀ a, Asks a → a = abs)
    (hact : ∀ {w1}, Onward w w1 → Runs (act abs (.host (aliased w.links (m.up abs)))) w1
      (Settles w (SameLayers w w1 ∧ T w1)))
    (hT : ∀ w1, Alike (classifyWrite w m .parentsOnly abs).2 w1 → w1.host = w.host →
      w1.whiteouts = w.whiteouts → (T w1 ↔ T w)) :
    Settles w ((Asks abs → Ready w m abs) ∧ (Passes abs → T w)) res.1 res.2 := by
  obtain ⟨ho, hready⟩ := classifyWrite_parents w m abs
  have hcl := classify_overlay_parents hm
  rcases hrun with ⟨hr, hw, hn⟩ | ⟨abs', ha, hr, hw, hn⟩ | ⟨abs', hp, w1, hw, hres⟩
  · exact settles_alike hr hw ⟨fun ha => absurd ha (hn abs), fun hp => absurd (hasks _ hp) (hn abs)⟩
  · obtain rfl := huniq abs' ha
    rw [hcl] at hw
    exact (settles_refused hr (ho.alike_iff hready hw)).congr
      ⟨fun h => ⟨fun _ => h, fun hp => absurd hp hn⟩, fun h => h.1 ha⟩
  · obtain rfl := huniq abs' (hasks _ hp)
    rw [hcl] at hw hres
    have hon : Onward w w1 := ho.trans (.of_alike hw)
    have hiff := ho.alike_iff hready hw
    have hrest := hact hon
    rw [runs_iff, ← hres] at hrest
    have hback : Ready w m abs' → (T w1 ↔ T w) := fun hr => by
      obtain ⟨hh, hwh⟩ := hon.same_iff_eq.1 (hiff.2 hr)
      exact hT w1 hw hh hwh
    refine hrest.congr ?_
    rw [hiff]
    constructor
    · exact fun h => ⟨fun _ => h.1, fun _ => (hback h.1).1 h.2⟩
    · intro h
      have hr := h.1 (hasks _ hp)
      exact ⟨hr, (hback hr).2 (h.2 hp)⟩

theorem pathMut_settles (hm : Overlay w.mounts abs m)
    (hname : resolveArg t r arg at_ true w = some abs) :
    Runs (pathMut t r arg at_ .parentsOnly true false isNode) w
      (Settles w (NodeClean t r arg at_ isNode w m abs)) := by
  have hfiles := classifyWrite_files w m .parentsOnly abs
  refine runs_iff.2 ((nameRun_settles (pathMut_run true isNode w) hm (fun _ hp => hp.toMutAsks)
    (fun a ha => Option.some.inj (ha.name.symm.trans hname)) (fun hon => mutClass_node hon abs _)
    fun w1 hw hh hwh => ?_).congr
      ⟨fun h => ⟨h.1, h.2⟩, fun h => ⟨h.ready, h.taken⟩⟩)
  have hmounts : w1.mounts = w.mounts := hw.mounts.trans hfiles.mounts
  have hlinks : w1.links = w.links := hw.links.trans hfiles.links
  have hem : emulatesFifo r arg isNode w1 = emulatesFifo r arg isNode w := by
    rw [hw, hfiles.same]
    rfl
  unfold FifoTaken looksTaken
  rw [classify_overlay_read (w := w1) (by rwa [hmounts]) (by decide),
    classify_overlay_read hm (by decide), hlinks, hwh, hem, hh]

end Node

/-! ## `symlink` -/

section Symlink

variable {t : Task} {r : Regs} {arg : Nat} {at_ : Bool} {w : World} {m : Mount} {abs : Str}

structure SymClean (t : Task) (r : Regs) (arg : Nat) (at_ : Bool) (w : World) (m : Mount)
    (abs : Str) : Prop where
  ready : SymAsks t r 0 arg at_ w abs → Ready w m abs
  taken : SymPasses t r 0 arg at_ w abs →
    aliased w.links (m.up abs) = [] ∨ hostExists w.host (aliased w.links (m.up abs))

theorem symClass_ends (arg : Nat) (abs p : Str) (w : World) :
    Runs (symClass arg abs (.host p)) w (Ends w (p = [] ∨ hostExists w.host p)) := by
  refine runs_ite (fun h => nomatch h) fun _ => runs_ite (fun hp => ?_) fun hp => ?_
  · have hp : p = [] := hp
    exact ends_still (.inl hp) _ w
  · have hp : p ≠ [] := hp
    rw [or_iff_right hp]
    exact runs_pure (ends_handed (by rfl) (by simp [Redirect.isNoop]) (by rfl) (by rfl) (by rfl) w)

theorem pathSymlink_settles (hm : Overlay w.mounts abs m)
    (hname : linkName t r arg at_ w = some abs) :
    Runs (pathSymlink t r 0 arg at_) w (Settles w (SymClean t r arg at_ w m abs)) :=
  runs_iff.2
    ((nameRun_settles (pathSymlink_run w) hm (fun _ hp => hp.toSymAsks)
      (fun a ha => Option.some.inj (ha.name.symm.trans hname))
      (fun _ => (symClass_ends arg abs _ _).settles w) fun w1 _ hh _ => by rw [hh]).congr
      ⟨fun h => ⟨h.1, h.2⟩, fun h => ⟨h.ready, h.taken⟩⟩)

end Symlink

/-! ## `link` -/

section Link

variable {t : Task} {r : Regs} {a1 a2 : Nat} {at_ : Bool} {lf : Option Nat} {w w' : World}
  {m : Mount} {src dst : Str}

/-- What is known of hard links next to `near`, without trying. -/
def tried (w : World) (near : Str) : Option Bool :=
  match w.host.stat (dirOf near), w.linksWork with
  | .error _, _ => some false
  | .ok _, works => works

variable {near p : Str}

theorem tried_eq_none :
    tried w near = none ↔ (w.host.stat (dirOf near)).isOk ∧ w.linksWork = none := by
  unfold tried
  rcases w.host.stat (dirOf near) with e | n
  · simp [Except.isOk, Except.toBool]
  · simp [Except.isOk, Except.toBool]

theorem stat_isOk {h : Host} : (h.stat p).isOk ↔ ∃ l, h.resolve p true = .ok (.found l) := by
  unfold Host.stat Host.nodeOf
  rcases hr : h.resolve p true with e | l | ⟨l, c⟩
  · simp [Except.isOk, Except.toBool]
  · obtain ⟨n, hn⟩ := Host.resolve_found_node hr
    simp [hn, Except.isOk, Except.toBool]
  · simp [Except.isOk, Except.toBool]

theorem stat_dir {h : Host} {q : Place} {c : Str} (hc : IsName c) (hp : p ≠ [])
    (hr : h.resolve (p ++ '/' :: c) false = .ok q) : (h.stat p).isOk :=
  stat_isOk.2 (Host.resolve_dir hc hp hr)

theorem hostLinksWork_tried {works : Bool} (h : tried w near = some works) :
    hostLinksWork t near w = (works, w) := by
  unfold tried at h
  unfold hostLinksWork
  rw [Act.read_bind]
  rcases hs : w.host.stat (dirOf near) with e | n
  · rw [hs] at h
    obtain rfl : false = works := Option.some.inj h
    simp only [id, hs]
    rfl
  · rw [hs] at h
    have h : w.linksWork = some works := h
    simp only [id, hs, h]
    rfl

/-- The supervisor cannot make `p` an alias of `q`. -/
def AliasFails (h : Host) (q p : Str) : Prop :=
  ∀ n, h.lstat q = .ok n → n.isDir = false → (h.createExcl p 0o600).isOk = false

theorem linkAlias_ends (q p : Str) (w : World) :
    Runs (linkAlias q p) w (Ends w (AliasFails w.host q p)) := by
  refine runs_read_bind ?_
  dsimp only
  rcases hq : w.host.lstat q with e | n
  · refine ends_still (fun n hn => ?_) e w
    cases hq.symm.trans hn
  · refine runs_ite (fun hd => ?_) fun hd => ?_
    · refine ends_still (fun n' hn hd' => ?_) _ w
      cases hq.symm.trans hn
      simp [hd] at hd'
    · refine Runs.mono (entered_ends (·.createExcl p 0o600) p _ w) fun o w' h => h.congr ?_
      exact ⟨fun h _ _ _ => h, fun h => h n hq (by simpa using hd)⟩

/-- The kernel makes the link, or the supervisor an alias. -/
def LinkTaken (h : Host) (q p : Str) (works : Bool) : Prop :=
  if works then hostExists h p = true else AliasFails h q p

theorem linkPair_ends (a1 a2 : Nat) (q p : Str) (works : Bool) (w : World) :
    Runs (if !works then linkAlias q p
      else pure (.redirect { first := { arg := a1, hostPath := q }
                             second := some { arg := a2, hostPath := p } })) w
      (Ends w (LinkTaken w.host q p works)) := by
  rcases works with _ | _
  · exact linkAlias_ends q p w
  · exact runs_pure (ends_handed (by rfl) (by simp [Redirect.isNoop]) (by rfl) (by rfl) (by rfl) w)

/-! ### Trying whether links work -/

theorem hostExists_congr {h h' : Host} (hn : h'.node = h.node) (p : Str) :
    hostExists h' p = hostExists h p := by
  simp only [hostExists, nodeAnyLength, longNode, atLongParent, Host.nodeOf, Host.isDirAt,
    Host.resolve_congr hn, Host.walk_congr hn, hn]
  rfl

theorem sys_whiteouts (w : World) (op : HostOp) (p : Str) (f : Bool)
    (run : Host → Except Errno Host) : (w.sys op p f run).2.whiteouts = w.whiteouts :=
  (HostOnly.sys w op p f run).whiteouts

/-- The two files that are made to try links. -/
def probeFst (near : Str) : Str := dirOf near ++ "/.lx-linkprobe-a"

def probeSnd (near : Str) : Str := dirOf near ++ "/.lx-linkprobe-b"

/-- No file is in the way of the two. -/
def ProbeClean (h : Host) (near : Str) : Prop :=
  (h.unlink (probeFst near)).isOk = false ∧ (h.unlink (probeSnd near)).isOk = false

/-- What a trial says on this tree. -/
def linksTry (t : Task) (h : Host) (a b : Str) : Bool :=
  match h.createExcl a 0o600 with
  | .error _ => false
  | .ok h₁ => t.linkAllowed && (h₁.link a b).isOk

def linksKnown (t : Task) (w : World) (near : Str) : Bool :=
  (tried w near).getD (linksTry t w.host (probeFst near) (probeSnd near))

theorem tryLink_tree {a b : Str} (w : World) : Runs (tryLink t a b) w fun works w' =>
    w'.whiteouts = w.whiteouts ∧ works = (t.linkAllowed && (w.host.link a b).isOk) ∧
      (w'.host = w.host ∨ w.host.link a b = .ok w'.host) := by
  rw [runs_iff]
  unfold tryLink
  by_cases hallowed : t.linkAllowed
  · have hh : (w.link a b).2.host = w.host.orSame (w.host.link a b) := World.sys_host
    have hres : (w.link a b).1.isOk = (w.host.link a b).isOk :=
      (sys_attempt (w.logCall ⟨.link, b, w.host.resolve b false⟩) .link a false (·.link a b)).result
    rw [if_pos hallowed]
    refine ⟨sys_whiteouts _ _ _ _ _, by rw [hallowed, Bool.true_and]; exact hres, ?_⟩
    rw [hh]
    rcases w.host.link a b with e | h₁
    · exact .inl rfl
    · exact .inr rfl
  · rw [if_neg hallowed]
    exact ⟨rfl, by simp [hallowed], .inl rfl⟩

theorem unlink_host (w : World) (p : Str) : (w.unlink p).2.host = w.host.orSame (w.host.unlink p) :=
  World.sys_host

theorem unlink_both (w : World) (a b : Str) :
    ((w.unlink a).2.unlink b).2.host = w.host.unlinkAll [a, b] ∧
      ((w.unlink a).2.unlink b).2.whiteouts = w.whiteouts := by
  refine ⟨?_, (sys_whiteouts _ _ _ _ _).trans (sys_whiteouts _ _ _ _ _)⟩
  rw [unlink_host, unlink_host]
  rfl

/-- A trial removes the two files, and may try to once more. -/
theorem probeLinks_tree {a b : Str} (w : World) : Runs (probeLinks t a b) w fun works w' =>
    w'.whiteouts = w.whiteouts ∧ works = linksTry t (w.host.unlinkAll [a, b]) a b ∧
      ∃ ps ⊆ [a, b], w'.host.node = (w.host.unlinkAll ([a, b] ++ ps)).node := by
  refine runs_modify_bind (runs_modify_bind ?_)
  obtain ⟨hh, hwh⟩ := unlink_both w a b
  generalize ((w.unlink a).2.unlink b).2 = w1 at hh hwh
  simp only [Host.unlinkAll_append]
  rw [← hh, ← hwh]
  have hcall : Runs (fun w : World => w.createExcl a 0o600) w1 fun x w' =>
      w'.whiteouts = w1.whiteouts ∧
      ((∃ e e', x = .error e ∧ w1.host.createExcl a 0o600 = .error e') ∧ w'.host = w1.host ∨
        x = .ok () ∧ w1.host.createExcl a 0o600 = .ok w'.host) := by
    refine ⟨sys_whiteouts _ _ _ _ _, ?_⟩
    dsimp only [World.createExcl]
    rcases hr : w1.host.createExcl a 0o600 with e | h₁
    · rw [sys_of_error hr]
      exact .inl ⟨⟨e, e, rfl, rfl⟩, rfl⟩
    · rw [sys_of_ok hr]
      exact .inr ⟨rfl, rfl⟩
  refine runs_bind hcall fun x w2 h => ?_
  obtain ⟨hwh2, ⟨⟨e, e', rfl, hr⟩, hh2⟩ | ⟨rfl, hr⟩⟩ := h
  · refine runs_pure ⟨hwh2, ?_, [], List.nil_subset _, by rw [hh2]; rfl⟩
    rw [linksTry, hr]
  · refine runs_bind (tryLink_tree w2) fun works w3 h => ?_
    obtain ⟨hwh3, hworks, hlink⟩ := h
    refine runs_modify_bind (runs_modify_bind (runs_modify_bind (runs_pure ?_)))
    obtain ⟨h4, hwh4⟩ := unlink_both w3 a b
    refine ⟨hwh4.trans (hwh3.trans hwh2), ?_, ?_⟩
    · rw [linksTry, hr]
      exact hworks
    · rcases hlink with he | hl
      · obtain ⟨h₂, hn, hb⟩ := Host.unlinkAll_made hr
        rw [← he] at hb
        refine ⟨[b], by simp, ?_⟩
        rw [← Host.unlinkAll_congr hn, ← hb]
        exact congrArg Host.node h4
      · exact ⟨[], List.nil_subset _, (congrArg Host.node h4).trans (Host.unlinkAll_linked hr hl)⟩

theorem hostLinksWork_untried (hno : tried w near = none) :
    hostLinksWork t near w = probeLinks t (probeFst near) (probeSnd near) w := by
  unfold tried at hno
  unfold hostLinksWork
  rw [Act.read_bind]
  rcases hs : w.host.stat (dirOf near) with e | n
  · rw [hs] at hno
    cases hno
  · rw [hs] at hno
    have hno : w.linksWork = none := hno
    simp only [id, hs, hno]
    rfl

/-- Links have been tried, or nothing is in the way of trying. -/
def TrialClean (w : World) (near : Str) : Prop := tried w near = none → ProbeClean w.host near

/-- What a trial changes and says. -/
theorem hostLinksWork_trial (hno : tried w near = none) :
    (hostLinksWork t near w).2.whiteouts = w.whiteouts ∧
      (hostLinksWork t near w).1 = linksTry t (w.host.unlinkAll [probeFst near, probeSnd near])
      (probeFst near) (probeSnd near) ∧
      ∃ ps, (∀ p, p ∈ ps ↔ p = probeFst near ∨ p = probeSnd near) ∧
      (hostLinksWork t near w).2.host.node = (w.host.unlinkAll ps).node := by
  rw [hostLinksWork_untried hno]
  obtain ⟨hwh, hworks, ps, hps, hn⟩ := @probeLinks_tree t (probeFst near) (probeSnd near) w
  refine ⟨hwh, hworks, _, fun p => ?_, hn⟩
  have hp : p ∈ ps → p = probeFst near ∨ p = probeSnd near := fun h => by simpa using hps h
  rw [List.mem_append, List.mem_pair]
  exact or_iff_left_of_imp hp

theorem linksTry_congr {h h' : Host} (hn : h'.node = h.node) (a b : Str) :
    linksTry t h' a b = linksTry t h a b := by
  have ha := Host.createExcl_isOk_congr hn a 0o600
  unfold linksTry
  rcases hr : h.createExcl a 0o600 with e | h₁
  · rw [hr] at ha
    rcases hr' : h'.createExcl a 0o600 with e' | h₁'
    · rfl
    · rw [hr'] at ha
      cases ha
  · rw [hr] at ha
    rcases hr' : h'.createExcl a 0o600 with e' | h₁'
    · rw [hr'] at ha
      cases ha
    · dsimp only
      congr 1
      rw [Bool.eq_iff_iff, Host.link_made_isOk hr, Host.link_made_isOk hr',
        Host.createWith_isOk_congr hn, Host.resolve_congr hn]

section Trial

variable {k : Bool → Act World Outcome} {T : Host → Bool → Prop} {w₁ : World} {l : Loc}
  {c data : Str}

/-- The layers are as in `w` after a trial in `w₁`, and then `T` holds. -/
def TrialEnds (T : Host → Bool → Prop) (t : Task) (near : Str) (w w₁ : World) : Prop :=
  SameLayers w (hostLinksWork t near w₁).2 ∧
    T (hostLinksWork t near w₁).2.host (hostLinksWork t near w₁).1

theorem trial_settles (hk : ∀ works w, Runs (k works) w (Ends w (T w.host works))) (w w₁ : World) :
    Runs (hostLinksWork t near >>= k) w₁ (Settles w (TrialEnds T t near w w₁)) :=
  (hk _ _).settles w

/-- A trial changes nothing exactly if nothing is in the way. -/
theorem trial_same : SameLayers w (hostLinksWork t near w).2 ↔ TrialClean w near := by
  rcases hno : tried w near with _ | works
  · obtain ⟨hwh, -, ps, hps, hn⟩ := hostLinksWork_trial (t := t) hno
    have hsame : (w.host.unlinkAll ps).node = w.host.node ↔ _ := Host.unlinkAll_same
    rw [← hn] at hsame
    simp only [hps, forall_eq_or_imp, forall_eq] at hsame
    exact ⟨fun hs _ => hsame.1 (funext hs.tree), fun hc => ⟨congrFun (hsame.2 (hc hno)), hwh⟩⟩
  · rw [hostLinksWork_tried hno]
    exact iff_of_true (.refl w) fun h => by cases hno.symm.trans h

theorem trial_works (hc : TrialClean w near) :
    (hostLinksWork t near w).1 = linksKnown t w near := by
  rcases hno : tried w near with _ | works
  · obtain ⟨ha, hb⟩ := hc hno
    rw [(hostLinksWork_trial hno).2.1, linksKnown, hno]
    refine linksTry_congr (Host.unlinkAll_same.2 ?_) _ _
    simp [ha, hb]
  · rw [hostLinksWork_tried hno, linksKnown, hno]
    rfl

theorem trial_whiteouts : (hostLinksWork t near w).2.whiteouts = w.whiteouts := by
  rcases hno : tried w near with _ | works
  · exact (hostLinksWork_trial hno).1
  · rw [hostLinksWork_tried hno]

theorem trial_dir {n : Node} (hn : w.host.node l = some n) (hk : n.kind = .dir) :
    (hostLinksWork t near w).2.host.node l = some n := by
  rcases hno : tried w near with _ | works
  · obtain ⟨-, -, ps, -, hps⟩ := hostLinksWork_trial (t := t) hno
    rw [hps]
    exact Host.unlinkAll_dir hn hk ps
  · rw [hostLinksWork_tried hno]
    exact hn

variable (hT : ∀ {h h' : Host} works, h'.node = h.node → (T h' works ↔ T h works))

include hT in
/-- A new directory stays. -/
theorem trialEnds_of_kept (ho : Onward w w₁) (hd : w₁.host = w.host ∨ NewDir w.host w₁.host)
    (hl : w₁.linksWork = w.linksWork) : TrialEnds T t near w w₁ ↔
      SameLayers w w₁ ∧ TrialClean w near ∧ T w.host (linksKnown t w near) := by
  have hsame : SameLayers w (hostLinksWork t near w₁).2 → SameLayers w w₁ := by
    intro hs
    refine ⟨?_, by rw [← hs.whiteouts, trial_whiteouts]⟩
    rcases hd with hh | ⟨l, n, hnone, hn, hk⟩
    · exact .of_eq hh
    · have hl := hs.tree l
      rw [trial_dir hn hk, hnone] at hl
      cases hl
  have hiff : SameLayers w w₁ → (TrialEnds T t near w w₁ ↔
      TrialClean w near ∧ T w.host (linksKnown t w near)) := by
    intro hs1
    obtain ⟨hh, hwh⟩ := ho.same_iff_eq.1 hs1
    have hclean : TrialClean w near ↔ SameLayers w (hostLinksWork t near w₁).2 := by
      have h := @trial_same t w₁ near
      unfold TrialClean tried at h ⊢
      rw [hh, hl] at h
      rw [← h]
      exact ⟨hs1.trans, fun hs => ⟨fun l => by rw [hs.tree, hh], by rw [hs.whiteouts, hwh]⟩⟩
    unfold TrialEnds
    rw [hclean]
    refine and_congr_right fun hs => ?_
    have hworks : (hostLinksWork t near w₁).1 = linksKnown t w near := by
      have hc := hclean.2 hs
      unfold TrialClean tried at hc
      rw [← hh, ← hl] at hc
      rw [trial_works hc, linksKnown, linksKnown, tried, tried, hh, hl]
    rw [hworks]
    exact hT _ (funext hs.tree)
  exact ⟨fun h => ⟨hsame h.1, (hiff (hsame h.1)).1 h⟩, fun h => (hiff h.1).2 h.2⟩

theorem trialClean_iff (h0 : tried w near = none) : TrialClean w near ↔
    ∀ p, p = probeFst near ∨ p = probeSnd near → (w.host.unlink p).isOk = false := by
  rw [TrialClean, ProbeClean, forall_eq_or_imp, forall_eq]
  exact forall_prop_of_true h0

/-- A directory in which the name of a trial is free has had none. -/
theorem tried_of_free (hno : tried w₁ near = none) (hl : w₁.linksWork = w.linksWork)
    (hfree : ∃ p, (p = probeFst near ∨ p = probeSnd near) ∧
      w.host.resolve p false = .ok (.free l c)) : tried w near = none := by
  obtain ⟨p, hp, hr⟩ := hfree
  obtain ⟨hok, h0⟩ := tried_eq_none.1 hno
  have hne : dirOf near ≠ [] := by
    intro h
    rw [h] at hok
    cases hok
  refine tried_eq_none.2 ⟨?_, by rw [← hl, h0]⟩
  rcases hp with rfl | rfl
  · exact stat_dir (by decide) hne hr
  · exact stat_dir (by decide) hne hr

include hT in
/-- A new file goes if it is one of the two. -/
theorem trialEnds_of_adds (ha : w.host.Adds w₁.host (l ++ [c]) (.file data))
    (hwr : (w.host.node l).any Node.writable) (hwh : w₁.whiteouts = w.whiteouts)
    (hl : w₁.linksWork = w.linksWork) :
    TrialEnds T t near w w₁ ↔
      (tried w near = none ∧ ∃ p ∈ [probeFst near, probeSnd near],
        w.host.resolve p false = .ok (.free l c)) ∧ TrialClean w near ∧
      T w.host (linksKnown t w near) := by
  have hfile : ∀ t, Kind.file data ≠ .link t := nofun
  have hnew : ¬SameTree w.host w₁.host := (Grown.of_adds hfile ha).not_sameTree
  by_cases hno : tried w₁ near = none
  · obtain ⟨hwh', hworks, ps, hps, hn⟩ := hostLinksWork_trial (t := t) hno
    have hback : (w₁.host.unlinkAll ps).node = w.host.node ↔ _ := Host.unlinkAll_adds ha hwr
    have hback2 : (w₁.host.unlinkAll [probeFst near, probeSnd near]).node = w.host.node ↔ _ :=
      Host.unlinkAll_adds ha hwr
    simp only [hps, List.mem_pair] at hback hback2
    simp only [List.mem_pair]
    have hsame : SameLayers w (hostLinksWork t near w₁).2 ↔
        (hostLinksWork t near w₁).2.host.node = w.host.node :=
      ⟨fun hs => funext hs.tree, fun h => ⟨congrFun h, hwh'.trans hwh⟩⟩
    have htaken : (hostLinksWork t near w₁).2.host.node = w.host.node → tried w near = none →
        (T (hostLinksWork t near w₁).2.host (hostLinksWork t near w₁).1 ↔
          T w.host (linksKnown t w near)) := by
      intro h h0
      rw [hn, hback, ← hback2] at h
      rw [hworks, linksTry_congr h, linksKnown, h0]
      exact hT _ (by rw [hn, hback, ← hback2, h])
    unfold TrialEnds
    rw [hsame]
    constructor
    · rintro ⟨h, hTk⟩
      have h' := h
      rw [hn, hback] at h'
      have h0 := tried_of_free hno hl h'.2
      exact ⟨⟨h0, h'.2⟩, (trialClean_iff h0).2 h'.1, (htaken h h0).1 hTk⟩
    · rintro ⟨⟨h0, hown⟩, hc, hTk⟩
      have h : (hostLinksWork t near w₁).2.host.node = w.host.node := by
        rw [hn, hback]
        exact ⟨(trialClean_iff h0).1 hc, hown⟩
      exact ⟨h, (htaken h h0).2 hTk⟩
  · refine iff_of_false (fun h => ?_) fun h => hno ?_
    · obtain ⟨works, hw⟩ := Option.ne_none_iff_exists'.1 hno
      have hs := h.1.tree
      rw [hostLinksWork_tried hw] at hs
      exact hnew hs
    · obtain ⟨hok, h0⟩ := tried_eq_none.1 h.1.1
      refine tried_eq_none.2 ⟨?_, by rw [hl, h0]⟩
      obtain ⟨q, hq⟩ := stat_isOk.1 hok
      exact stat_isOk.2 ⟨q, Host.resolve_mono (ha.grows hfile).le hq⟩

end Trial

/-- The file of a descriptor cannot be given the name `p`. -/
def FdFails (h : Host) (p : Str) (works : Bool) : FdFile → Prop
  | .unnamed mode data => (h.createWith p (mode &&& 0o7777) data).isOk = false
  | .named l => if works then (h.linkTo l p).isOk = false else (h.createExcl p 0o600).isOk = false

theorem linkFdTo_ends (p : Str) (works : Bool) (f : FdFile) (w : World) :
    Runs (linkFdTo p works f) w (Ends w (FdFails w.host p works f)) := by
  rcases f with l | ⟨mode, data⟩
  · rcases works with _ | _
    · exact entered_ends (·.createExcl p 0o600) p _ w
    · have h :=
        (sys_attempt (w.logCall ⟨.link, [], .ok (.found l)⟩) .link p false (·.linkTo l p)).ends
      have hlog : SameLayers w (w.logCall ⟨.link, [], .ok (.found l)⟩) := .of_eq rfl rfl
      exact ⟨h.closing, fun ho => hlog.trans (h.still ho),
        (h.settles w).barred.trans (and_iff_right hlog)⟩
  · rcases works with _ | _
    · exact entered_ends (·.createWith p (mode &&& 0o7777) data) p _ w
    · exact (sys_attempt w .writeFile p false (·.createWith p (mode &&& 0o7777) data)).ends

/-! ### The call -/

/-- The new name is taken. -/
def PairTaken (t : Task) (w : World) (q p : Str) : Prop :=
  TrialClean w p ∧ LinkTaken w.host q p (linksKnown t w p)

theorem linkTaken_congr {h h' : Host} (hn : h'.node = h.node) {q p : Str} (works : Bool) :
    LinkTaken h' q p works ↔ LinkTaken h q p works := by
  unfold LinkTaken AliasFails Host.lstat
  rw [hostExists_congr hn, Host.nodeOf_congr hn, Host.createExcl_isOk_congr hn]

def FdTaken (t : Task) (w : World) (fd : Int) (p : Str) : Prop :=
  p = [] ∨ ∀ file, t.fd fd = some file → fdIsDir w.host file = false →
    (w.host.lstat p).isOk ∨ TrialClean w p ∧ FdFails w.host p (linksKnown t w p) file

theorem fdFails_congr {h h' : Host} (hn : h'.node = h.node) {p : Str} {file : FdFile}
    (works : Bool) : FdFails h' p works file ↔ FdFails h p works file := by
  unfold FdFails
  rcases file with l | ⟨mode, data⟩
  · dsimp only
    rw [Host.linkTo_isOk_congr hn, Host.createExcl_isOk_congr hn]
  · dsimp only
    rw [Host.createWith_isOk_congr hn]

theorem runs_withPath {x : World → Option Str} {k : Str → Act World Outcome} {abs : Str}
    {Q : Outcome → World → Prop} (h : x w = some abs) (hk : Runs (k abs) w Q) :
    Runs (withPath x k) w Q := by
  rw [runs_iff, withPath_apply h]
  exact hk

theorem fdNamed_settles {w₁ : World} {fd : Int} {R : Prop} (ho : Onward w w₁)
    (hsame : SameLayers w w₁ ↔ R)
    (hd : w₁.host = w.host ∨ NewDir w.host w₁.host) (hl : w₁.linksWork = w.linksWork) :
    Runs
      (if (PathClass.host p).realm ≠ .hostBacked ∨
        (PathClass.host p).hostPath = [] then refuse .exdev
      else match t.fd fd with
        | none => refuse .ebadf
        | some f => do
          if ← onHost (fdIsDir · f) then refuse .eperm
          else if ← onHost fun h => (h.lstat p).isOk then refuse .eexist
          else do
            let works ← hostLinksWork t p
            linkFdTo p works f) w₁ (Settles w (R ∧ FdTaken t w fd p)) := by
  -- under the left side the trees are equal
  have hconv : ∀ {C : Prop}, (w₁.host = w.host → (C ↔ FdTaken t w fd p)) →
      (SameLayers w w₁ ∧ C ↔ R ∧ FdTaken t w fd p) := by
    intro C hC
    rw [hsame]
    exact and_congr_right fun hR => hC (ho.same_iff_eq.1 (hsame.2 hR)).1
  have hstill : ∀ e : Errno, (w₁.host = w.host → FdTaken t w fd p) →
      Settles w (R ∧ FdTaken t w fd p) (.fail e) w₁ := fun e hC =>
    ((ends_still trivial e w₁).settles w).congr (hconv fun hh => iff_of_true trivial (hC hh))
  refine runs_ite (fun hp => runs_pure (hstill _ fun _ => .inl ?_)) fun hp => ?_
  · simpa [PathClass.host] using hp
  have hp : p ≠ [] := by simpa [PathClass.host] using hp
  rcases hf : t.fd fd with _ | file
  · refine runs_pure (hstill _ fun _ => .inr fun file hfile => ?_)
    cases hf.symm.trans hfile
  refine runs_read_bind
    (runs_ite (fun hdir => runs_pure (hstill _ fun hh => .inr fun f hf' hd' => ?_)) fun hdir => ?_)
  · cases hf.symm.trans hf'
    have hdir : fdIsDir w.host file = true := hh ▸ hdir
    rw [hd'] at hdir
    cases hdir
  refine runs_read_bind
    (runs_ite (fun hx => runs_pure (hstill _ fun hh => .inr fun f hf' hd' => ?_)) fun hx => ?_)
  · rw [hh] at hx
    exact .inl hx
  refine Runs.mono (trial_settles (T := fun h works => FdFails h p works file)
    (fun works w => linkFdTo_ends p works file w) w w₁) fun o w'' h => h.congr ?_
  rw [trialEnds_of_kept (fun works hn => fdFails_congr hn works) ho hd hl]
  refine hconv fun hh => ?_
  rw [hh] at hdir hx
  constructor
  · intro hC
    refine .inr fun f hf' _ => .inr ?_
    cases hf.symm.trans hf'
    exact hC
  · intro hC
    exact ((hC.resolve_left hp) file hf (by simpa using hdir)).resolve_left hx

theorem linkFromFd_settles (hm : Overlay w.mounts dst m)
    (hname : resolveSecond t r a2 at_ w = some dst) (fd : Int) :
    Runs (linkFromFd t r fd a2 at_) w
      (Settles w (emptyPathArg t r a2 = false →
        Ready w m dst ∧ FdTaken t w fd (aliased w.links (m.up dst)))) := by
  refine runs_ite (fun he => ?_) fun he => ?_
  · refine runs_pure (settles_alike (.fail _) (.refl w) fun hne => ?_)
    simp [he] at hne
  refine runs_withPath hname ?_
  obtain ⟨ho, hready⟩ := classifyWrite_parents w m dst
  have hfiles := classifyWrite_files w m .parentsOnly dst
  have hmade : (classifyWrite w m .parentsOnly dst).2.host = w.host ∨
      NewDir w.host (classifyWrite w m .parentsOnly dst).2.host := by
    simpa [classifyWrite] using mirrorParents_makes (m.up dst) (m.lo dst) w
  have hask : Runs (ask a2 dst true false .parentsOnly) w fun pc w' =>
      pc = .host (aliased w.links (m.up dst)) ∧ Onward w w' ∧ (SameLayers w w' ↔ Ready w m dst) ∧
        (w'.host = w.host ∨ NewDir w.host w'.host) ∧ w'.linksWork = w.linksWork := by
    rw [runs_iff]
    change (classify dst true false .parentsOnly w).1 = _ ∧
      Onward w ((classify dst true false .parentsOnly w).2.noteName a2 dst) ∧
      (SameLayers w ((classify dst true false .parentsOnly w).2.noteName a2 dst) ↔ _) ∧
      ((classify dst true false .parentsOnly w).2.host = _ ∨
        NewDir _ (classify dst true false .parentsOnly w).2.host) ∧
      (classify dst true false .parentsOnly w).2.linksWork = _
    rw [classify_overlay_parents hm]
    have hnote := Alike.noteName (classifyWrite w m .parentsOnly dst).2 a2 dst
    exact ⟨rfl, ho.trans (.of_alike hnote), ho.alike_iff hready hnote, hmade, by rw [hfiles.same]⟩
  refine runs_bind hask fun pc w' h => ?_
  obtain ⟨rfl, ho', hsame, hd, hl⟩ := h
  refine Runs.mono (fdNamed_settles ho' hsame hd hl) fun o w'' h => h.congr ?_
  exact ⟨fun hC _ => hC, fun hC => hC (by simpa using he)⟩

structure PairReady (w : World) (m : Mount) (src dst : Str) : Prop where
  src : ∀ m', Overlay w.mounts src m' → CopyReady w m' src
  dst : Ready w m dst

theorem prepared_still (hm : Overlay w.mounts dst m) (src : Str) :
    (prepared false src dst w).1 =
        ((classify src true false .copyLeaf w).1, .host (aliased w.links (m.up dst))) ∧
      Onward w (prepared false src dst w).2 ∧
      (SameLayers w (prepared false src dst w).2 ↔ PairReady w m src dst) ∧
      (prepared false src dst w).2.linksWork = w.linksWork := by
  obtain ⟨ho, hiff⟩ := classifyName_copy w src
  have hfiles := classify_files src true false .copyLeaf w
  have hworld :
      (classify src true false .copyLeaf w).2 = (classifyName src true false .copyLeaf w).2 := rfl
  rw [← hworld] at ho hiff
  unfold prepared
  generalize classify src true false .copyLeaf w = c at ho hiff hfiles
  obtain ⟨pc, w1⟩ := c
  dsimp only at ho hiff hfiles ⊢
  have hm1 : Overlay w1.mounts dst m := by rwa [hfiles.mounts]
  obtain ⟨ho2, hiff2⟩ := classifyWrite_parents w1 m dst
  have hfiles2 := classifyWrite_files w1 m .parentsOnly dst
  rw [if_neg nofun, if_neg nofun, classify_overlay_parents hm1, hfiles.links]
  refine ⟨rfl, ho.trans ho2, ?_, by rw [hfiles2.same, hfiles.same]⟩
  rw [ho.same_iff ho2, hiff2]
  constructor
  · rintro ⟨hs, hr⟩
    obtain ⟨hh, hwh⟩ := ho.same_iff_eq.1 hs
    exact ⟨hiff.1 hs, by rw [← hwh]; exact hr.shown, by rw [← hh]; exact hr.parents⟩
  · rintro ⟨hs, hr⟩
    have hs := hiff.2 hs
    obtain ⟨hh, hwh⟩ := ho.same_iff_eq.1 hs
    exact ⟨hs, by rw [hwh]; exact hr.shown, by rw [hh]; exact hr.parents⟩

theorem prepared_overlay {m' : Mount} (hm' : Overlay w.mounts src m')
    (hm : Overlay w.mounts dst m) :
    (prepared false src dst w).2 =
      (classifyWrite (classifyWrite w m' .copyLeaf src).2 m .parentsOnly dst).2 := by
  have hfiles := classifyWrite_files w m' .copyLeaf src
  have hm1 : Overlay (classifyWrite w m' .copyLeaf src).2.mounts dst m := by rwa [hfiles.mounts]
  have hsrc : (classify src true false .copyLeaf w).2 = (classifyWrite w m' .copyLeaf src).2 := by
    change (classifyName src true false .copyLeaf w).2 = _
    rw [classifyName_overlay hm']
  change (classify dst true false .parentsOnly (classify src true false .copyLeaf w).2).2 = _
  rw [hsrc, classify_overlay_parents hm1]

/-- The copy of the source is one of the two files that are made to try links, and nothing else
is made. -/
structure OwnProbe (w : World) (m' m : Mount) (src dst near : Str) (l : Loc) (c : Str) : Prop where
  overlay : Overlay w.mounts src m'
  shown : src ∉ w.whiteouts ∧ dst ∉ w.whiteouts
  copies : CopiesAlone w.host (m'.up src) (m'.lo src) l c
  parents : ParentsBut w.host (m.up dst) l c
  untried : tried w near = none
  named : ∃ p ∈ [probeFst near, probeSnd near], w.host.resolve p false = .ok (.free l c)

section Made

variable {m' : Mount} {l : Loc} {c : Str}

theorem copied_host (w : World) (m' : Mount) (src : Str) :
    (classifyWrite w m' .copyLeaf src).2.host = (copyUp (m'.up src) (m'.lo src) w).1.host := by
  simp [classifyWrite]

theorem parents_host (w : World) (m : Mount) (dst : Str) :
    (classifyWrite w m .parentsOnly dst).2.host =
      (mirrorParentsFromLower (m.up dst) (m.lo dst) w).1.host := by
  simp [classifyWrite]

theorem prepared_alone (hm' : Overlay w.mounts src m') (hm : Overlay w.mounts dst m)
    (hc : CopiesAlone w.host (m'.up src) (m'.lo src) l c) (hp : ParentsBut w.host (m.up dst) l c) :
    ∃ data, w.host.Adds (prepared false src dst w).2.host (l ++ [c]) (.file data) := by
  obtain ⟨data, ha⟩ := hc.copyUp_adds
  refine ⟨data, ?_⟩
  rw [← copied_host] at ha
  rw [prepared_overlay hm' hm, parents_host,
    (mirrorParents_still _ _ _).2.2 ((parentsThere_adds ha _).2 hp)]
  exact ha

/-- A directory is made, or at most the copy of the source. -/
theorem prepared_makes (hm : Overlay w.mounts dst m) (src : Str) :
    ((prepared false src dst w).2.host = w.host ∨ NewDir w.host (prepared false src dst w).2.host) ∨
      ∃ m' l c, Overlay w.mounts src m' ∧ CopiesAlone w.host (m'.up src) (m'.lo src) l c ∧
        ParentsBut w.host (m.up dst) l c := by
  by_cases hsrc : ∃ m', Overlay w.mounts src m'
  · obtain ⟨m', hm'⟩ := hsrc
    have hfst := copyUp_makes (m'.up src) (m'.lo src) w
    have hsnd := mirrorParents_makes (m.up dst) (m.lo dst) (classifyWrite w m' .copyLeaf src).2
    have hle : (classifyWrite w m' .copyLeaf src).2.host.Le (prepared false src dst w).2.host := by
      rw [prepared_overlay hm' hm, parents_host]
      exact (mirrorParents_still _ _ _).1.le
    have hle0 : w.host.Le (classifyWrite w m' .copyLeaf src).2.host :=
      (classifyWrite_copy w m' src).1.host.le
    rw [← parents_host, ← prepared_overlay hm' hm] at hsnd
    rw [← copied_host] at hfst
    rcases hfst with he | hd | ⟨l, c, hc⟩
    · rw [he] at hsnd
      exact .inl hsnd
    · exact .inl (.inr (hd.before hle))
    · rcases hsnd with he | hd
      · obtain ⟨data, ha⟩ := hc.copyUp_adds
        rw [← copied_host] at ha
        refine .inr ⟨m', l, c, hm', hc, (parentsThere_adds ha _).1 ?_⟩
        rw [prepared_overlay hm' hm, parents_host] at he
        exact (mirrorParents_still _ _ _).2.1 he
      · exact .inl (.inr (.after hle0 hd))
  · have hfst : (classify src true false .copyLeaf w).2 = w := by
      change (classifyName src true false .copyLeaf w).2 = _
      rw [classifyName_plain fun m' hm' => hsrc ⟨m', hm'⟩]
    have hhost : (prepared false src dst w).2.host =
        (mirrorParentsFromLower (m.up dst) (m.lo dst) w).1.host := by
      change (classify dst true false .parentsOnly (classify src true false .copyLeaf w).2).2.host =
        _
      rw [hfst, classify_overlay_parents hm, parents_host]
    rw [hhost]
    exact .inl (mirrorParents_makes (m.up dst) (m.lo dst) w)

theorem prepared_whiteouts (hm' : Overlay w.mounts src m') (hm : Overlay w.mounts dst m) :
    (prepared false src dst w).2.whiteouts = w.whiteouts ↔
      src ∉ w.whiteouts ∧ dst ∉ w.whiteouts := by
  rw [prepared_overlay hm' hm, classifyWrite_whiteouts _ _ (by decide),
    classifyWrite_whiteouts _ _ (by decide)]
  constructor
  · intro h
    have hd : dst ∉ w.whiteouts := by
      rw [← h]
      exact Finset.notMem_erase _ _
    have hs : src ∉ w.whiteouts := by
      rw [← h]
      exact fun hs => Finset.notMem_erase _ _ (Finset.mem_of_mem_erase hs)
    exact ⟨hs, hd⟩
  · rintro ⟨hs, hd⟩
    rw [Finset.erase_eq_of_notMem hs, Finset.erase_eq_of_notMem hd]

/-- After the trial the layers are as before the call if it was ready, or made no more than what
the trial removes. -/
theorem prepared_trial {T : Host → Bool → Prop} {w₁ : World} {near : Str}
    (hm : Overlay w.mounts dst m) (hw : Alike (prepared false src dst w).2 w₁)
    (hT : ∀ {h h' : Host} works, h'.node = h.node → (T h' works ↔ T h works)) :
    TrialEnds T t near w w₁ ↔ (PairReady w m src dst ∨ ∃ m' l c, OwnProbe w m' m src dst near l c) ∧
      TrialClean w near ∧ T w.host (linksKnown t w near) := by
  obtain ⟨-, ho, hsame, hl⟩ := prepared_still hm src
  have hl1 : w₁.linksWork = w.linksWork := by
    rw [hw, ← hl]
    rfl
  by_cases halone : ∃ m' l c, Overlay w.mounts src m' ∧
    CopiesAlone w.host (m'.up src) (m'.lo src) l c ∧ ParentsBut w.host (m.up dst) l c
  · obtain ⟨m', l, c, hm', hc, hp⟩ := halone
    obtain ⟨data, ha⟩ := prepared_alone hm' hm hc hp
    have hfile : ∀ t, Kind.file data ≠ .link t := nofun
    have hnot : ¬PairReady w m src dst := fun hr =>
      (Grown.of_adds hfile ha).not_sameTree (hsame.2 hr).tree
    have hwh := prepared_whiteouts hm' hm
    rw [← hw.host] at ha
    rw [← hw.whiteouts] at hwh
    rw [or_iff_right hnot]
    by_cases hshown : src ∉ w.whiteouts ∧ dst ∉ w.whiteouts
    · rw [trialEnds_of_adds hT ha hc.writable (hwh.2 hshown) hl1]
      refine and_congr_left fun _ => ⟨fun h => ⟨m', l, c, hm', hshown, hc, hp, h.1, h.2⟩, ?_⟩
      rintro ⟨m'', l', c', hown⟩
      obtain rfl : m' = m'' := Option.some.inj (hm'.deepest.symm.trans hown.overlay.deepest)
      cases hc.free.symm.trans hown.copies.free
      exact ⟨hown.untried, hown.named⟩
    · refine iff_of_false (fun h => hshown (hwh.1 ?_)) fun ⟨⟨_, _, _, hown⟩, _⟩ => hshown hown.shown
      rw [← h.1.whiteouts, trial_whiteouts]
  · have hkept := (prepared_makes hm src).resolve_right halone
    rw [← hw.host] at hkept
    rw [trialEnds_of_kept hT (ho.trans (.of_alike hw)) hkept hl1, ho.alike_iff hsame hw]
    refine and_congr_left fun _ => ⟨.inl, fun h => h.resolve_right ?_⟩
    rintro ⟨m', l, c, hown⟩
    exact halone ⟨m', l, c, hown.overlay, hown.copies, hown.parents⟩

end Made

structure LinkClean (t : Task) (r : Regs) (a1 a2 : Nat) (at_ : Bool) (lf : Option Nat) (w : World)
    (m : Mount) (dst : Str) : Prop where
  fromFd : ∀ fd, linkSourceFd t r a1 at_ lf w = some (some fd) → 0 ≤ fd →
    emptyPathArg t r a2 = false → Ready w m dst ∧ FdTaken t w fd (aliased w.links (m.up dst))
  ready : ∀ src, PairAsks t r a1 a2 at_ lf w src dst → PairReady w m src dst ∨
    PairPasses t r a1 a2 at_ false lf w src dst ∧
      ∃ m' l c, OwnProbe w m' m src dst (aliased w.links (m.up dst)) l c
  taken : ∀ src, PairPasses t r a1 a2 at_ false lf w src dst →
    PairTaken t w (classify src true false .copyLeaf w).1.hostPath (aliased w.links (m.up dst))

/-- A link from a descriptor. -/
theorem pathMut2_settles_fd (hm : Overlay w.mounts dst m)
    (hname : resolveSecond t r a2 at_ w = some dst) {fd : Int}
    (hfd : linkSourceFd t r a1 at_ lf w = some (some fd)) (h0 : 0 ≤ fd) :
    Runs (pathMut2 t r a1 a2 at_ false lf) w (Settles w (LinkClean t r a1 a2 at_ lf w m dst)) := by
  have hno : ∀ src, ¬PairAsks t r a1 a2 at_ lf w src dst := by
    intro src ha
    obtain ⟨fd', hfd', h0'⟩ := ha.named
    obtain rfl : some fd = fd' := Option.some.inj (hfd.symm.trans hfd')
    simp [h0] at h0'
  have heq : pathMut2 t r a1 a2 at_ false lf 0 w = linkFromFd t r fd a2 at_ w := by
    unfold pathMut2
    rw [Act.read_bind, hfd]
    dsimp only
    rw [if_pos (by simpa using h0)]
    rfl
  rw [runs_iff, heq]
  refine Settles.congr (linkFromFd_settles hm hname fd)
    ⟨fun hC => ?_, fun hC => hC.fromFd fd hfd h0⟩
  refine ⟨fun fd' hfd' _ => ?_, fun src ha => absurd ha (hno src),
    fun src hp => absurd hp.toPairAsks (hno src)⟩
  obtain rfl : fd = fd' := by simpa using hfd.symm.trans hfd'
  exact hC

theorem pathMut2_settles (hm : Overlay w.mounts dst m)
    (hname : resolveSecond t r a2 at_ w = some dst) :
    Runs (pathMut2 t r a1 a2 at_ false lf) w (Settles w (LinkClean t r a1 a2 at_ lf w m dst)) := by
  by_cases hfd : ∃ fd, linkSourceFd t r a1 at_ lf w = some (some fd) ∧ 0 ≤ fd
  · obtain ⟨fd, hfd, h0⟩ := hfd
    exact pathMut2_settles_fd hm hname hfd h0
  have hsrc : ∀ {src src' dst' : Str}, PairAsks t r a1 a2 at_ lf w src dst' →
      PairAsks t r a1 a2 at_ lf w src' dst → src' = src :=
    fun ha ha' => Option.some.inj (ha'.fst.symm.trans ha.fst)
  have hnofd : ∀ fd, linkSourceFd t r a1 at_ lf w = some (some fd) → 0 ≤ fd →
      emptyPathArg t r a2 = false → Ready w m dst ∧ FdTaken t w fd (aliased w.links (m.up dst)) :=
    fun fd hs h0 => absurd ⟨fd, hs, h0⟩ hfd
  have hrun := @pathMut2_run t r a1 a2 at_ false lf 0 w
  rw [runs_iff]
  generalize pathMut2 t r a1 a2 at_ false lf 0 w = res at hrun
  obtain ⟨o, w'⟩ := res
  rcases hrun with ⟨fd, hs, h0, -⟩ | ⟨hr, hw, hn⟩ | ⟨src, dst', ha, ho, hw, hn⟩
    | ⟨src, dst', hp, w1, hw, hres⟩
  · exact absurd ⟨fd, hs, h0⟩ hfd
  · refine settles_alike hr hw ⟨hnofd, fun src ha => absurd ha (hn src dst), fun src hp => ?_⟩
    exact absurd hp.toPairAsks (hn src dst)
  · obtain rfl : dst' = dst := Option.some.inj (ha.snd.symm.trans hname)
    obtain ⟨-, honw, hsame, -⟩ := prepared_still hm src
    obtain ⟨e, rfl : o = .fail e⟩ := ho
    refine (settles_refused (.fail e) (honw.alike_iff hsame hw)).congr
      ⟨fun h => ⟨hnofd, fun src' ha' => ?_, fun src' hp => ?_⟩,
      fun h => (h.ready src ha).resolve_right fun hp => hn hp.1⟩
    · rw [hsrc ha ha']
      exact .inl h
    · rw [hsrc ha hp.toPairAsks] at hp
      exact absurd hp hn
  · obtain rfl : dst' = dst := Option.some.inj (hp.snd.symm.trans hname)
    obtain ⟨hpc, -⟩ := prepared_still hm src
    have hact : Runs (movePair t a1 a2 false 0 src dst' (classify src true false .copyLeaf w).1
        (.host (aliased w.links (m.up dst')))) w1 (Settles w (TrialEnds (fun h works => LinkTaken h
          (classify src true false .copyLeaf w).1.hostPath (aliased w.links (m.up dst')) works) t
          (aliased w.links (m.up dst')) w w1)) :=
      trial_settles (linkPair_ends a1 a2 _ _) w w1
    rw [runs_iff] at hact
    rw [hpc] at hres
    rw [← hres] at hact
    refine hact.congr ?_
    rw [prepared_trial hm hw fun works hn => linkTaken_congr hn works]
    refine ⟨fun h => ⟨hnofd, fun src' ha' => ?_, fun src' hp' => ?_⟩,
      fun h => ⟨(h.ready src hp.toPairAsks).imp_right And.right, h.taken src hp⟩⟩
    · rw [hsrc hp.toPairAsks ha']
      exact h.1.imp_right fun hown => ⟨hp, hown⟩
    · rw [hsrc hp.toPairAsks hp'.toPairAsks]
      exact h.2

end Link

/-! ## Every creation -/

section Creation

variable {t : Task} {r : Regs} {sc : Sysno} {f : CreateForm} {w : World} {m : Mount} {abs : Str}

def CreateForm.Clean (t : Task) (r : Regs) (w : World) (m : Mount) (abs : Str) : CreateForm → Prop
  | .node arg at_ isNode => NodeClean t r arg at_ isNode w m abs
  | .symlink arg at_ => SymClean t r arg at_ w m abs
  | .link a1 a2 at_ lf => LinkClean t r a1 a2 at_ lf w m abs

/-- The call finds nothing to prepare, and the path at which the name would be made is taken. -/
def CreationClean (t : Task) (r : Regs) (sc : Sysno) (w : World) : Prop :=
  ∀ f abs m, createForm r sc = some f → f.name t r (setCurrentPid t.pid t.ppid w) = some abs →
    Overlay w.mounts abs m → (seenAt w abs).isSome →
    f.Clean t r (setCurrentPid t.pid t.ppid w) m abs

theorem serve_settles (hm : Overlay w.mounts abs m) (hname : f.name t r w = some abs) :
    Runs (f.serve t r) w (Settles w (f.Clean t r w m abs)) := by
  rcases f with ⟨arg, at_, isNode⟩ | ⟨arg, at_⟩ | ⟨a1, a2, at_, lf⟩
  · exact pathMut_settles hm hname
  · exact pathSymlink_settles hm hname
  · exact pathMut2_settles hm hname

/-- A creation whose name is there already fails and changes nothing exactly if it is clean. -/
theorem creation_excludes_iff (t : Task) (r : Regs) (sc : Sysno) (w : World) :
    Excludes t r sc w ↔ CreationClean t r sc w := by
  obtain ⟨hmounts, hsame⟩ : (setCurrentPid t.pid t.ppid w).mounts = w.mounts ∧
      ∀ w', SameLayers (setCurrentPid t.pid t.ppid w) w' ↔ SameLayers w w' := by
    rw [setCurrentPid_eq]
    exact ⟨rfl, fun w' => ⟨fun h => ⟨h.tree, h.whiteouts⟩, fun h => ⟨h.tree, h.whiteouts⟩⟩⟩
  have hends : ∀ {f abs m}, createForm r sc = some f →
    f.name t r (setCurrentPid t.pid t.ppid w) = some abs → Overlay w.mounts abs m →
    Settles (setCurrentPid t.pid t.ppid w)
        (f.Clean t r (setCurrentPid t.pid t.ppid w) m abs) (dispatch t r sc w).1
          (dispatch t r sc w).2 := by
    intro f abs m hf hname hm
    have h := serve_settles (by rwa [hmounts]) hname
    rwa [runs_iff, ← dispatch_create hf w] at h
  constructor
  · intro hex f abs m hf hname hm hseen
    have h := hends hf hname hm
    refine h.barred.1 ((@complete_barred_iff t r sc _ _ _ h.closing).1 fun k hk => ?_)
    obtain ⟨hn, hs⟩ := hex f abs m k hf hname hm hseen hk
    exact ⟨hn, (hsame _).2 hs⟩
  · intro hclean f abs m k hf hname hm hseen hk
    have h := hends hf hname hm
    obtain ⟨hn, hs⟩ :=
      (complete_barred_iff h.closing).2 (h.barred.2 (hclean f abs m hf hname hm hseen)) k hk
    exact ⟨hn, (hsame _).1 hs⟩

end Creation

/-! ## A directory over a file, and a link that fails -/

def handedPath : Outcome → Str
  | .redirect rd => newPath rd
  | _ => []

/-- `mkdir("/t")` over a file of the lower layer succeeds, and hides it. `link("/d/f", "/e")` fails,
as `/e` is there, and leaves a copy of its source in the upper layer. -/
theorem creation_ignores_lower :
    (runNative (twoTexts "/t".toList []) (twoPaths "/t".toList) .mkdir (layeredWorld ∅)).1 =
        .ret 0 ∧
      (runNative (twoTexts "/d/f".toList "/e".toList) (twoPaths "/d/f".toList) .link
        (layeredWorld ∅)).1 = .ret (-17) ∧
      ¬Excludes (twoTexts "/t".toList []) (twoPaths "/t".toList) .mkdir (layeredWorld ∅) ∧
      ¬Excludes (twoTexts "/d/f".toList "/e".toList) (twoPaths "/d/f".toList) .link
      (layeredWorld ∅) := by
  refine ⟨by decide +kernel, by decide +kernel, fun hex => ?_, fun hex => ?_⟩
  · have hpath :
      handedPath (dispatch (twoTexts "/t" []) (twoPaths "/t") .mkdir (layeredWorld ∅)).1 =
      "/srv/up/t" := by decide +kernel
    have hk : Exclusive (twoTexts "/t" []) (twoPaths "/t") .mkdir (takingKernel "/srv/up/t")
        (dispatch (twoTexts "/t" []) (twoPaths "/t") .mkdir (layeredWorld ∅)).1
        (dispatch (twoTexts "/t" []) (twoPaths "/t") .mkdir (layeredWorld ∅)).2 := by
      intro rd hrd
      rw [hrd] at hpath
      rw [← (show newPath rd = "/srv/up/t" from hpath)]
      exact takingKernel_exclusive rd rd rfl
    obtain ⟨hn, -⟩ :=
      hex (.node 0 false false) "/t" layeredMount _ rfl (by decide +kernel) (layered_overlay _ _)
      (by decide +kernel) hk
    exact hn ⟨0, by decide +kernel, le_refl 0⟩
  · obtain ⟨-, hs⟩ :=
      hex (.link 0 1 false none) "/e" layeredMount _ rfl (by decide +kernel) (layered_overlay _ _)
      (by decide +kernel) refusing_exclusive
    exact absurd (hs.tree ["srv", "up", "d"]) (by decide +kernel)

end Linuxity.Runtime

import Linuxity.Abi.Cstr
import Linuxity.Abi.Dots

/-!
# Abi.Whole — path strings that are cut

`read_cstr` returns what it could read, so a handler cannot tell a whole string from the front part
of one: a path that runs into memory that cannot be read, or that is too long, is served as if it
ended there.  Some handlers hand an empty string on to the kernel, which reads it again.
-/

namespace Linuxity.Abi

open Posix Wire Kernel Logic World

/-! ## The property -/

/-- A mount may do without a source. -/
def Omitted (r : Regs) (sc : Sysno) (op : Operand) : Prop := sc = .mount ∧ op.arg = 0 ∧ r.arg 0 = 0

/-- The error that belongs to the string, from the dispatcher or from the kernel that reads it
again. -/
inductive CutAnswer (mem : GuestMem) (a : Nat) (o : Outcome) : Prop
  | raw : IsRaw o → CutAnswer mem a o
  | fault : mem.Faults a → o = .fail .efault → CutAnswer mem a o
  | tooLong : mem.TooLong a → o = .fail .enametoolong → CutAnswer mem a o

/-- Each path of the call is the whole string in memory, or the call fails. -/
def PathsWhole (mem : GuestMem) (r : Regs) (sc : Sysno) : Prop :=
  ∀ (t : Task) (w : World), t.mem = mem →
    ∀ op ∈ operands r sc, Omitted r sc op ∨ mem.GuestString (r.arg op.arg) (t.cstr r op.arg) ∨
    CutAnswer mem (r.arg op.arg) (serve t r sc w).1

/-! ## The condition -/

def openat2Flags (mem : GuestMem) (r : Regs) : Nat :=
  ((mem.copyIn (r.arg 2) 8).getD []).reverse.foldl (fun v c => v * 256 + c.toNat) 0

/-- The calls that report an empty string as a fault, or hand it on. -/
def Reported (mem : GuestMem) (r : Regs) : Sysno → Prop
  | .open_ => hasAt (r.arg 1) .emptyPath
  | .openat => hasAt (r.arg 2) .emptyPath
  | .openat2 => hasAt (openat2Flags mem r) .emptyPath
  | .newfstatat => hasAt (r.arg 3) .emptyPath
  | .faccessat | .faccessat2 | .readlinkat | .umount2 => True
  | .utimes | .utime => r.arg 0 = 0
  | .utimensat => r.arg 1 = 0 ∨ hasAt (r.arg 3) .emptyPath ∧ int32 (r.arg 0) ≠ atFdCwd
  | .futimesat => r.arg 1 = 0
  | _ => False

/-- Each string ends within the limit of the reader, or cannot be read at all in a call that says
so. -/
def PathsEnd (mem : GuestMem) (r : Regs) (sc : Sysno) : Prop :=
  ∀ op ∈ operands r sc, Omitted r sc op ∨ mem.Terminated (r.arg op.arg) ∨
    mem.byte (r.arg op.arg) = none ∧ Reported mem r sc

/-! ## A namespace in which every path is served -/

/-- A task that can store everywhere, in a namespace with one producer that has every path. -/
structure Sham (w : World) : Prop where
  mounts : w.mounts = [mountVirtual slash fun _ => .ok {}]
  fds : ∀ fd, pathOfFd w fd = slash

def shamWorld : World where
  host := layeredHost
  mounts := [mountVirtual slash fun _ => .ok {}]
  fdTables _ := some { paths := fun _ => some slash }

def shamClass (abs : Str) : PathClass := { realm := .virtualFile, virtualPath := abs }

def Tame (e : Errno) : Prop := e ≠ .efault ∧ e ≠ .enametoolong

instance (e : Errno) : Decidable (Tame e) := inferInstanceAs (Decidable (_ ∧ _))

/-- The answer is about the path, and not about its string. -/
structure Plain (o : Outcome) : Prop where
  raw : ¬IsRaw o
  fault : o ≠ .fail .efault
  tooLong : o ≠ .fail .enametoolong

def Plainly (x : Act World Outcome) : Prop := ∀ w, Sham w → Plain (x w).1

section Rules

variable {w : World} {arg : Nat} {abs : Str}

theorem Sham.alike {w' : World} (hw : Sham w) (h : Alike w w') : Sham w' := by
  rw [h]
  exact ⟨hw.mounts, hw.fds⟩

theorem Sham.deepest (hw : Sham w) (abs : Str) :
    deepest w.mounts abs = some (mountVirtual slash fun _ => .ok {}) := by
  rw [hw.mounts]
  exact deepest_root rfl abs

theorem Sham.classifyName (hw : Sham w) (abs : Str) (fw fo : Bool) (wi : WriteIntent) :
    classifyName abs fw fo wi w = (shamClass abs, w) := by
  unfold Kernel.classifyName maxCross
  rw [classifyImpl]
  unfold classifyStep
  rw [hw.deepest]
  rfl

theorem Sham.classify (hw : Sham w) (abs : Str) (fw fo : Bool) (wi : WriteIntent) :
    classify abs fw fo wi w = (shamClass abs, w) := by
  unfold Kernel.classify
  rw [hw.classifyName]
  rfl

theorem Sham.ask (hw : Sham w) (arg : Nat) (abs : Str) (fw fo : Bool) (wi : WriteIntent) :
    ask arg abs fw fo wi w = (shamClass abs, w.noteName arg abs) := by
  unfold Abi.ask
  rw [hw.classify]

theorem Sham.askName (hw : Sham w) (arg : Nat) (abs : Str) (fw fo : Bool) (wi : WriteIntent) :
    askName arg abs fw fo wi w = (shamClass abs, w.noteName arg abs) := by
  unfold Abi.askName
  rw [hw.classifyName]

theorem Sham.produce (hw : Sham w) (abs : Str) : produce w abs = .ok {} := by
  unfold Abi.produce
  rw [hw.deepest]
  rfl

theorem Sham.dots (hw : Sham w) (t : Task) (r : Regs) (arg : Nat) (at_ : Bool) :
    (dotPrefixError t r arg at_ w).1 = none := by
  rcases h : (dotPrefixError t r arg at_ w).1 with _ | e
  · rfl
  · have hdot : (comps (t.cstr r arg)).any isDot := by
      by_contra hno
      unfold dotPrefixError at h
      rw [if_pos (by simpa using hno)] at h
      cases h
    rcases (dotPrefixError_eq_some hdot).1 h with ⟨cs, hs⟩ | ⟨hs, -⟩
    · have hp := hs.stops
      rw [problem, hw.classify] at hp
      cases hp
    · have hp := hs.denied.1
      rw [hw.classify] at hp
      cases hp

theorem Plain.fail {e : Errno} (he : Tame e) : Plain (.fail e) := by
  refine ⟨(by rintro ⟨⟩), fun h => ?_, fun h => ?_⟩
  · exact he.1 (by cases e <;> first | rfl | exact absurd h (by decide))
  · exact he.2 (by cases e <;> first | rfl | exact absurd h (by decide))

theorem Plain.virtualize {v : Int} (h : 0 ≤ v) (n : Int) : Plain (.virtualize v n) := by
  refine ⟨(by rintro ⟨⟩), fun he => ?_, fun he => ?_⟩
  all_goals
    have hv := (Outcome.virtualize.inj he).1
    simp only [errnoCode] at hv
    omega

theorem Plain.stored {t : Task} (ht : ∀ a, t.storable a) (addr : Nat) {v : Int} (h : 0 ≤ v) :
    Plain (stored t addr v) := by
  unfold Abi.stored
  rw [if_pos (ht addr)]
  exact .virtualize h 0

theorem Plain.abort : Plain .abort := ⟨(by rintro ⟨⟩), (fun h => by cases h), (fun h => by cases h)⟩

namespace Plainly

variable {k x y : Act World Outcome} {α : Type}

theorem pure {o : Outcome} (h : Plain o) : Plainly (Pure.pure o) := fun _ _ => h

theorem refuse {e : Errno} (he : Tame e) : Plainly (refuse e) := pure (.fail he)

theorem ite {c : Prop} [Decidable c] (hx : c → Plainly x) (hy : ¬c → Plainly y) :
    Plainly (if c then x else y) := by
  split_ifs with h
  · exact hx h
  · exact hy h

theorem read {g : World → α} {f : α → Act World Outcome} (h : ∀ w, Sham w → Plainly (f (g w))) :
    Plainly (Act.read g >>= f) :=
  fun w hw => h w hw w hw

theorem withPath {g : World → Option Str} {f : Str → Act World Outcome}
    (h : ∀ abs, Plainly (f abs)) : Plainly (withPath g f) := by
  refine read fun w _ => ?_
  rcases g w with _ | abs
  · exact pure .abort
  · exact h abs

theorem ask {fw fo : Bool} {wi : WriteIntent} {f : PathClass → Act World Outcome}
    (h : Plainly (f (shamClass abs))) : Plainly (ask arg abs fw fo wi >>= f) := by
  intro w hw
  rw [Act.bind_apply, hw.ask]
  exact h _ (hw.alike (.noteName w arg abs))

theorem looks {c : Act World α} {f : α → Act World Outcome} (hc : Looks c)
    (h : ∀ a, Plainly (f a)) : Plainly (c >>= f) := by
  intro w hw
  exact h _ _ (hw.alike (hc.keeps w))

theorem modify {g : World → World} {f : Unit → Act World Outcome} (hg : ∀ w, Sham w → Sham (g w))
    (h : Plainly (f ())) : Plainly (Act.modify g >>= f) := fun w hw => h _ (hg w hw)

theorem record {g : World → World} {o : Outcome} (h : Plain o) :
    Plainly (Act.modify g >>= fun _ => Pure.pure o) := fun _ _ => h

theorem refuseIf {c : Act World (Option Errno)} (hc : Looks c)
    (he : ∀ w, Sham w → ∀ e, (c w).1 = some e → Tame e) (h : Plainly k) :
    Plainly (refuseIf c k) := by
  intro w hw
  rcases hv : (c w).1 with _ | e
  · rw [refuseIf_apply hv]
    exact h _ (hw.alike (hc.keeps w))
  · rw [refuseIf_refused hv]
    exact .fail (he w hw e hv)

theorem refuses {c : Act World (Option Errno)} (hc : ∀ w, Sham w → ∃ e, (c w).1 = some e ∧ Tame e) :
    Plainly (Abi.refuseIf c k) := by
  intro w hw
  obtain ⟨e, he, htame⟩ := hc w hw
  rw [refuseIf_refused he]
  exact .fail htame

theorem dots {t : Task} {r : Regs} {at_ : Bool} (h : Plainly k) :
    Plainly (Abi.refuseIf (dotPrefixError t r arg at_) k) :=
  refuseIf (dotPrefixError_looks t r arg at_) (fun w hw e he => by rw [hw.dots] at he; cases he) h

theorem prefixLoop (h : Plainly k) : Plainly (Abi.refuseIf (guestPrefixLoop arg abs) k) := by
  refine refuseIf (guestPrefixLoop_looks arg abs) (fun w hw e he => ?_) h
  unfold guestPrefixLoop at he
  by_cases hd : dirOf abs = []
  · rw [if_pos hd] at he
    cases he
  · rw [if_neg hd, Act.bind_apply, hw.ask] at he
    cases he

end Plainly

end Rules

/-! ## The handlers in that namespace -/

section Handlers

variable {t : Task} {r : Regs} {arg : Nat} {at_ : Bool}

theorem exclusiveError_looks (flags : Nat) (raw abs : Str) (pc : PathClass) :
    Looks (exclusiveError arg flags raw abs pc) :=
  .ite (.pure _) <| .bind (.onHost _) fun _ => .ite (.pure _) <|
    .bind (.onHost _) fun _ => .ite (.pure _) <|
    .bind (ask_looks _ _ _ _) fun _ => .bind (.onHost _) fun _ => .ite (.pure _) (.pure _)

variable {abs dst raw1 raw2 src : Str} {e : Errno} {h : Host}

theorem exclusiveError_errno {flags : Nat} {raw : Str} {w : World} (hw : Sham w)
    (h : (exclusiveError arg flags raw abs (shamClass abs) w).1 = some e) : Tame e := by
  unfold exclusiveError at h
  by_cases hx : exclusive flags
  · rw [if_neg (by simpa using hx), onHost, Act.read_bind] at h
    have hdir : hostPathIsDir w.host (shamClass abs).hostPath = false := rfl
    rw [hdir, Bool.and_false, if_neg (by decide), onHost, Act.read_bind] at h
    have hreal : ((shamClass abs).realm == .hostBacked) = false := rfl
    rw [hreal, Bool.false_and, if_neg (by decide), Act.bind_apply, hw.ask, onHost,
      Act.read_bind] at h
    cases h
  · rw [if_pos (by simpa using hx)] at h
    cases h

theorem plainly_openVirtual (flags : Nat) (vp : Str) : Plainly (openVirtual t arg flags vp) := by
  refine .ite (fun _ => .pure (.fail (by decide))) fun _ => .read fun w hw => ?_
  rw [hw.produce]
  refine .modify (fun w hw => ⟨hw.mounts, hw.fds⟩) <| .record ?_
  exact ⟨(by rintro ⟨⟩), (fun h => by cases h), (fun h => by cases h)⟩

theorem plainly_open {flags : Nat} (h : t.cstr r arg = [] → hasAt flags .emptyPath = false) :
    Plainly (pathOpenFlags t r arg at_ flags) := by
  have hlink : ∀ abs, Looks (nofollowLink t arg flags abs) := fun abs =>
    .ite (.pure _) <| .bind (ask_looks _ _ _ _) fun _ =>
      .bind (.onHost _) fun _ => .ite (.pure _) (.pure _)
  refine .ite (fun h0 => ?_) fun _ => .dots <| .withPath fun abs => .ask <|
    .refuseIf (exclusiveError_looks _ _ _ _) (fun w hw e he => exclusiveError_errno hw he) <|
    .looks (hlink abs) fun l => ?_
  · rw [h h0]
    exact .pure (.fail (by decide))
  · rcases l with _ | link
    · exact .read fun w _ =>
        .ite (fun _ => .pure (.fail (by decide))) fun _ => plainly_openVirtual flags _
    · exact .ite (fun _ => .pure (.fail (by decide))) fun _ => .record
        ⟨not_isRaw_toHost arg link, (fun h => by cases h), fun h => by cases h⟩

theorem plainly_virtualStat (ht : ∀ a, t.storable a) (buf : Nat) (statx follow : Bool) (vp : Str) :
    Plainly (virtualStat t arg buf statx follow vp) := by
  refine .read fun w hw => ?_
  have hp : produceForStat vp w = .ok {} := by
    unfold produceForStat
    rw [hw.produce]
    rfl
  rw [hp]
  exact .pure (.stored ht buf (by decide))

theorem plainly_stat (ht : ∀ a, t.storable a) (follow : Bool)
    (h : t.cstr r arg = [] → (at_ && hasAt (r.arg 3) .emptyPath) = false) :
    Plainly (pathStat t r arg at_ follow) := by
  refine .ite (fun h0 => ?_) fun _ => .read fun w hw => .ite (fun hu => ?_) fun _ => .dots <|
    .withPath fun abs => .ask <| .ite (fun _ => ?_) fun _ => plainly_virtualStat ht _ _ _ _
  · have hnil : t.cstr r arg = [] := by
      unfold pathSyntax at h0
      split_ifs at h0 with h1
      exact h1
    rw [h hnil]
    exact .pure (.fail (by decide))
  · -- every descriptor has a record
    have hdir : ∀ d, int32 d ≠ atFdCwd → dirOfFd w d ≠ [] := fun d hd => by
      rw [dirOfFd, if_neg hd, hw.fds]
      decide
    simp only [Bool.and_eq_true, atDirfdUnresolvable, bne_iff_ne, beq_iff_eq] at hu
    exact absurd hu.2.2 (hdir _ hu.2.1.1.1)
  · refine .read fun w hw => ?_
    rw [hw.produce]
    exact .pure (.fail (by decide))

theorem plainly_statx (ht : ∀ a, t.storable a) : Plainly (pathStatx t r) := by
  refine .ite (fun _ => ?_) fun _ => .ite (fun _ => .pure (.fail (by decide))) fun _ => .dots <|
    .withPath fun abs => .ask <| plainly_virtualStat ht _ _ _ _
  refine .read fun w hw => ?_
  rw [hw.fds, if_neg (by decide)]
  refine .ask ?_
  rw [if_neg (by decide)]
  refine .read fun w hw => ?_
  rw [hw.produce]
  exact .pure (.stored ht _ (by decide))

theorem plainly_at (h : t.cstr r arg = [] → at_ = false) : Plainly (pathAt t r arg at_) := by
  refine .ite (fun h0 => ?_) fun _ => .dots <| .withPath fun abs => .ask <|
    .pure (.virtualize (by decide) 0)
  rw [h h0]
  exact .pure (.fail (by decide))

theorem plain_writeLink (ht : ∀ a, t.storable a) (buf cap : Nat) (tgt : Str) :
    Plain (writeLink t buf cap tgt) := by
  unfold writeLink
  dsimp only
  split_ifs
  · exact .virtualize (by decide) 0
  · exact .stored ht buf (by omega)

theorem plainly_readlink (ht : ∀ a, t.storable a) (h : t.cstr r arg = [] → at_ = false) :
    Plainly (doReadlink t r arg at_) := by
  refine .ite (fun h0 => ?_) fun _ => .ite (fun _ => .pure (.fail (by decide))) fun _ => .dots <|
      .withPath fun abs => .prefixLoop <|
      .withPath fun before => .ite (fun _ => .pure (plain_writeLink ht _ _ _)) fun _ =>
    .ite (fun _ => .pure (plain_writeLink ht _ _ _)) fun _ => .read fun w _ =>
    .ite (fun _ => .pure (plain_writeLink ht _ _ _)) fun _ => .ask <| .read fun w hw => ?_
  · rw [h h0]
    exact .pure (.fail (by decide))
  · rw [hw.produce]
    exact .pure (.fail (by decide))

theorem plainly_xattr (fw follow : Bool) : Plainly (pathXattr t r fw follow arg at_) :=
  .ite (fun _ => .pure (.fail (by decide))) fun _ => .withPath fun _ =>
    .ite (fun _ => .pure (.virtualize (by decide) 0)) fun _ => .ask <| .pure (.fail (by decide))

theorem plainly_chdir : Plainly (doChdir t r) := by
  refine .read fun w _ => .withPath fun abs => .ask <| .refuseIf (.onHost _) (fun w _ e he => ?_) <|
    ?_
  · cases he
  · refine .modify (fun w hw => ⟨hw.mounts, hw.fds⟩) ?_
    exact .pure (.virtualize (by decide) 0)

theorem plainly_chroot : Plainly (doChroot t r) := by
  refine .withPath fun abs => .ask <| .refuseIf (.onHost _) (fun w _ e he => ?_) <|
    .pure (.virtualize (by decide) 0)
  cases he

theorem plainly_mount : Plainly (doMount t r) := by
  have hk : Plainly (if t.cstr r 1 = [] then pure (.virtualize 0)
      else withPath (fun w => absolutize w (t.cstr r 1) w.cwd) fun tgt => do
        Act.modify fun w => { w with guestMounts := insert tgt w.guestMounts }
        pure (.virtualize 0)) :=
    .ite (fun _ => .pure (.virtualize (by decide) 0)) fun _ => .withPath fun tgt =>
      .record (.virtualize (by decide) 0)
  refine .ite (fun _ => .refuse (by decide)) fun _ =>
    .ite (fun _ => hk) fun _ => .withPath fun abs => .ask ?_
  rw [if_neg (fun h => by cases h)]
  exact .read fun w _ => .ite (fun _ => .refuse (by decide)) fun _ => hk

theorem plainly_umount (h : t.cstr r 0 ≠ []) : Plainly (doUmount2 t r) := by
  unfold doUmount2
  rw [if_neg h]
  refine .withPath fun tgt => .read fun w _ => .modify (fun w hw => ⟨hw.mounts, hw.fds⟩) ?_
  exact .ite (fun _ => .pure (.virtualize (by decide) 0)) fun _ => .refuse (by decide)

theorem plainly_exec : Plainly (pathExec t r arg) :=
  .ite (fun _ => .pure (.fail (by decide))) fun _ => .withPath fun _ => .ask <|
    .pure (.fail (by decide))

theorem virtualMutErrno_tame (abs : Str) (op : VMut) : Tame (virtualMutErrno abs op) := by
  cases op with
  | create => exact show Tame .enoent by decide
  | existing => exact show Tame .eexist by decide
  | metadata => exact show Tame .eperm by decide
  | remove =>
    unfold virtualMutErrno
    split_ifs <;> decide

theorem plain_mutVirtual (abs : Str) (wi : WriteIntent) : Plain (mutVirtual abs wi) := by
  cases wi with
  | parentsOnly | remove => exact .fail (virtualMutErrno_tame abs _)
  | copyLeaf =>
    unfold mutVirtual
    split_ifs
    · exact .virtualize (by decide) 0
    · exact .fail (virtualMutErrno_tame abs _)

theorem dotTailErrno_errno {rm : Bool} {d : DotTail} (h : dotTailErrno rm d = some e) : Tame e := by
  rcases rm with _ | _ <;> rcases d with _ | _ | _ <;> cases h <;> decide

theorem plainly_removeDot (rm : Bool) {k : Act World Outcome} (hk : Plainly k) :
    Plainly (removeDot t r arg at_ rm k) := by
  unfold removeDot
  dsimp only
  rcases h : dotTailErrno (removedirFlag r arg at_ rm) (dotTail (t.cstr r arg)) with _ | e
  · exact hk
  · exact .withPath fun abs => .ask <| .read fun w _ => .ite (fun _ => .refuse (by decide)) fun _ =>
      .refuse (dotTailErrno_errno h)

theorem plainly_mut (wi : WriteIntent) (sp rm mk : Bool) :
    Plainly (pathMut t r arg at_ wi sp rm mk) := by
  have hk : Plainly (withPath (resolveArg t r arg at_) fun abs => do
      let pc ← ask arg abs true false wi
      if ← onHost (dotTraversalDenied · (t.cstr r arg) pc.hostPath) then refuse .eacces
      else refuseIf (guestPrefixLoop arg abs) (mutClass t r arg wi sp mk abs pc)) :=
    .withPath fun abs => .ask <| .read fun w _ => .ite (fun _ => .refuse (by decide)) fun _ =>
      .prefixLoop <| .pure (plain_mutVirtual abs wi)
  refine .ite (fun _ => .refuse (by decide)) fun _ => .dots ?_
  split_ifs
  · exact plainly_removeDot rm hk
  · exact hk

theorem plainly_utimes {flags : Option Nat} (hnull : nullPathArg r arg = false)
    (hf : flags.any (hasAt · .emptyPath) → t.cstr r arg = [] → at_ ∧ int32 (r.arg 0) = atFdCwd) :
    Plainly (doUtimes t r arg at_ flags) := by
  refine .ite (fun h0 => ?_) fun _ => plainly_mut _ _ _ _
  rw [hnull, Bool.false_or, Bool.and_eq_true] at h0
  obtain ⟨hat, hcwd⟩ := hf h0.1 (cstr_of_null (.inr h0.2))
  rw [if_neg (by simp [hat]), if_pos hcwd, hnull]
  exact .refuse (by decide)

theorem plainly_chmodPath (abs : Str) (mode : Nat) : Plainly (chmodPath arg abs mode) := by
  refine .refuses fun w hw => ⟨_, ?_, virtualMutErrno_tame abs .metadata⟩
  unfold chmodTarget
  rw [Act.bind_apply, hw.ask]
  rfl

theorem linkMode_errno {w : World} (hw : Sham w)
    (h : (linkMode arg abs w).1 = some e) : Tame e := by
  unfold linkMode at h
  rw [Act.bind_apply, hw.ask] at h
  cases h

theorem plainly_linkMode {c : Prop} [Decidable c] {k : Act World Outcome} (h : Plainly k) :
    Plainly (refuseIf (if c then linkMode arg abs else pure none) k) := by
  split_ifs
  · refine .refuseIf (.bind (ask_looks _ _ _ _) fun _ => ?_) (fun w hw e he => linkMode_errno hw he)
      h
    exact .bind (.onHost _) fun _ => .ite (.pure _) (.pure _)
  · exact .refuseIf (.pure none) (fun w hw e he => by cases he) h

theorem plainly_chmod (wf : Bool) : Plainly (doChmod t r arg at_ wf) := by
  refine .ite (fun _ => ?_) fun _ => .ite (fun _ => .refuse (by decide)) fun _ => .dots <|
      .withPath fun abs =>
    plainly_linkMode <| plainly_chmodPath _ _
  refine .read fun w hw => ?_
  rw [hw.fds, if_neg (by decide)]
  exact plainly_linkMode <| plainly_chmodPath _ _

theorem plainly_chown (uid gid : Nat) (follow : Bool) :
    Plainly (doChown t r arg uid gid at_ follow) := by
  refine .ite (fun _ => .read fun w hw => ?_) fun _ =>
      .ite (fun _ => .refuse (by decide)) fun _ => .withPath fun abs =>
    .ask <| .read fun w _ => ?_
  · rw [hw.fds, if_neg (by decide)]
    exact .record (.virtualize (by decide) 0)
  · have herr : chownError w.host abs follow (shamClass abs) =
        some (if virtualIsWritable abs then .virtualize 0
          else .fail (virtualMutErrno abs .metadata)) := rfl
    beta_reduce
    rw [herr]
    split_ifs
    · exact .pure (.virtualize (by decide) 0)
    · exact .pure (.fail (virtualMutErrno_tame abs _))

theorem plainly_symlink {target : Nat} : Plainly (pathSymlink t r target arg at_) := by
  refine .ite (fun _ => .refuse (by decide)) fun _ => .ite (fun _ => .refuse (by decide)) fun _ =>
      .dots <| .withPath fun link => .ite (fun _ => .ask <| .refuse (by decide)) fun _ => .ask <|
      .read fun w _ =>
    .ite (fun _ => .refuse (by decide)) fun _ => .prefixLoop ?_
  exact .refuse (virtualMutErrno_tame link _)

theorem plainly_linkFromFd (fd : Int) : Plainly (linkFromFd t r fd arg at_) := by
  refine .ite (fun _ => .refuse (by decide)) fun _ => .withPath fun dst => .ask ?_
  rw [if_pos (.inl (fun h => by cases h))]
  exact .refuse (by decide)

theorem tame_of_guard {c : Prop} [Decidable c] {e' : Errno} (ht : Tame e')
    (he : (if c then none else some e') = some e) : Tame e := by
  split_ifs at he
  cases he
  exact ht

theorem renameDotError_tame
    (he : renameDotError h raw1 raw2 (shamClass src) (shamClass dst) = some e) : Tame e :=
  tame_of_guard (by decide) he

/-- A synthesized class has no host path, so no name is found at it. -/
theorem renameSlashError_tame
    (he : renameSlashError h raw1 raw2 (shamClass src) (shamClass dst) = some e) : Tame e :=
  tame_of_guard (by decide) he

theorem linkSlashError_tame
    (he : linkSlashError h raw1 raw2 (shamClass src) (shamClass dst) = some e) : Tame e :=
  tame_of_guard (by decide) he

theorem virtualPairError_refuses (mounts : List Mount) (src dst : Str) (mm : Bool) :
    ∃ e, virtualPairError mounts src dst (shamClass src) (shamClass dst) mm = some e ∧ Tame e := by
  unfold virtualPairError
  by_cases hs : underVirtualMount mounts src ≠ underVirtualMount mounts dst
  · rw [if_pos hs]
    exact ⟨_, rfl, by decide⟩
  · rw [if_neg hs]
    rcases underVirtualMount mounts src with _ | _
    · exact ⟨.enoent, rfl, by decide⟩
    · rcases mm with _ | _
      · exact ⟨.eexist, rfl, by decide⟩
      · exact ⟨.eperm, rfl, by decide⟩

theorem pairError_refuses (w : World) (raw1 raw2 src dst : Str) (mm : Bool) :
    ∃ e, pairError w raw1 raw2 src dst (shamClass src) (shamClass dst) mm = some e ∧ Tame e := by
  obtain ⟨e, he, htame⟩ := virtualPairError_refuses w.mounts src dst mm
  unfold pairError
  rw [he]
  rcases mm with _ | _
  · rcases hl : linkSlashError w.host raw1 raw2 (shamClass src) (shamClass dst) with _ | e'
    · exact ⟨e, by simp, htame⟩
    · exact ⟨e', by simp, linkSlashError_tame hl⟩
  · rcases hd : renameDotError w.host raw1 raw2 (shamClass src) (shamClass dst) with _ | e'
    · rcases hs : renameSlashError w.host raw1 raw2 (shamClass src) (shamClass dst) with _ | e'
      · exact ⟨e, by simp, htame⟩
      · exact ⟨e', by simp, renameSlashError_tame hs⟩
    · exact ⟨e', by simp, renameDotError_tame hd⟩

theorem searchError_tame {ps pd : PathClass} {gone : Bool}
    (he : searchError h raw1 raw2 ps pd gone = some e) : Tame e := by
  unfold searchError at he
  split_ifs at he <;> cases he <;> decide

theorem plainly_pair (a1 a2 : Nat) (mm : Bool) (rf : Nat) (src dst : Str) :
    Plainly (pairChecked t r a1 a2 at_ mm rf src dst (shamClass src) (shamClass dst)) := by
  have hgone : ∀ gone : Bool, ∀ k, Plainly k →
      Plainly (refuseIf (if gone then pure none else dotPrefixError t r a2 at_) k) := by
    intro gone k hk
    rcases gone with _ | _
    · exact .dots hk
    · exact .refuseIf (.pure none) (fun w hw e he => by cases he) hk
  refine .dots <| .prefixLoop <| .read fun w _ => hgone _ _ <|
    .refuseIf (.onHost _) (fun w hw e he => searchError_tame he) <|
    .read fun w _ => .refuseIf (.pure none) (fun w hw e he => by cases he) <|
    .refuses fun w _ => pairError_refuses w _ _ _ _ _

theorem plainly_mut2 (a1 a2 : Nat) (mm : Bool) (lf : Option Nat) (rf : Nat) :
    Plainly (pathMut2 t r a1 a2 at_ mm lf rf) := by
  refine .read fun w _ => ?_
  rcases linkSourceFd t r a1 at_ lf w with _ | fd
  · exact .pure .abort
  refine .ite (fun _ => plainly_linkFromFd _) fun _ =>
      .ite (fun _ => .refuse (by decide)) fun _ => .withPath fun src =>
    .withPath fun dst => ?_
  have hask : ∀ f : PathClass × PathClass →
      Act World Outcome, Plainly (f (shamClass src, shamClass dst)) →
      Plainly (askPair a1 a2 mm src dst >>= f) := by
    intro f hf w hw
    have he : askPair a1 a2 mm src dst w =
        ((shamClass src, shamClass dst), (w.noteName a1 src).noteName a2 dst) := by
      have hw' : Sham (w.noteName a1 src) := hw.alike (.noteName w a1 src)
      unfold askPair
      rcases mm with _ | _
      · simp only [Bool.false_eq_true, if_false, Act.bind_apply, hw.ask, hw'.ask, Act.pure_apply]
      · simp only [if_true, Act.bind_apply, hw.askName, hw'.askName, Act.pure_apply]
    rw [Act.bind_apply, he]
    exact hf _ ((hw.alike (.noteName w a1 src)).alike (.noteName _ a2 dst))
  exact hask _ (plainly_pair a1 a2 mm rf src dst)

end Handlers

/-! ## The calls -/

section Calls

variable {t : Task} {r : Regs} {sc : Sysno} {op : Operand}

/-- A call that does not report an empty string answers about the path. -/
theorem serve_plainly (ht : ∀ a, t.storable a) (hop : op ∈ operands r sc)
    (h : t.cstr r op.arg = [] → ¬Reported t.mem r sc) : Plainly (serve t r sc) := by
  have one {o : Operand} (ho : op ∈ [o]) : t.cstr r o.arg = [] → ¬Reported t.mem r sc :=
    List.mem_singleton.1 ho ▸ h
  have hnull {arg : Nat} (h0 : nullPathArg r arg) : t.cstr r arg = [] := cstr_of_null (.inl h0)
  cases sc
  case open_ | openat | openat2 => exact plainly_open fun h0 => Bool.eq_false_iff.2 (one hop h0)
  case creat => exact plainly_open fun _ => by decide
  case stat | lstat => exact plainly_stat ht _ fun _ => rfl
  case newfstatat => exact plainly_stat ht _ fun h0 => Bool.eq_false_iff.2 (one hop h0)
  case statx => exact plainly_statx ht
  case access => exact plainly_at fun _ => rfl
  case faccessat | faccessat2 => exact plainly_at fun h0 => absurd trivial (one hop h0)
  case readlink => exact plainly_readlink ht fun _ => rfl
  case readlinkat => exact plainly_readlink ht fun h0 => absurd trivial (one hop h0)
  case statfs =>
    exact .ite (fun _ => .pure (.fail (by decide))) fun _ => .withPath fun _ => .ask <|
      .pure (.stored ht _ (by decide))
  case chroot => exact plainly_chroot
  case chdir => exact plainly_chdir
  case getxattr | listxattr | lgetxattr | llistxattr | setxattr | removexattr | lsetxattr
    | lremovexattr | getxattrat | listxattrat
    | setxattrat | removexattrat => exact plainly_xattr _ _
  case inotifyAddWatch | fanotifyMark => exact .withPath fun _ => .ask <| .pure (.fail (by decide))
  case mount => exact plainly_mount
  case umount2 => exact plainly_umount fun h0 => absurd trivial (one hop h0)
  case execve | execveat => exact plainly_exec
  case mkdir | mkdirat | mknod | mknodat | rmdir | unlink | unlinkat | truncate =>
    exact plainly_mut _ _ _ _
  case utimes | utime | futimesat =>
    refine plainly_utimes (Bool.eq_false_iff.2 fun h0 => ?_) fun hf => by cases hf
    exact one hop (hnull h0) (beq_iff_eq.1 h0)
  case utimensat =>
    refine plainly_utimes (Bool.eq_false_iff.2 fun h0 => ?_) fun hf h0 => ⟨rfl, ?_⟩
    · exact one hop (hnull h0) (.inl (beq_iff_eq.1 h0))
    · by_contra hfd
      exact one hop h0 (.inr ⟨hf, hfd⟩)
  case chmod | fchmodat | fchmodat2 => exact plainly_chmod _
  case chown | lchown | fchownat => exact plainly_chown _ _ _
  case rename | renameat | renameat2 | link | linkat => exact plainly_mut2 _ _ _ _ _
  case symlink | symlinkat => exact plainly_symlink
  all_goals cases hop

/-- A call that reports an empty string does so in every namespace. -/
theorem serve_reported (hop : op ∈ operands r sc) (hb : t.mem.byte (r.arg op.arg) = none)
    (h : Reported t.mem r sc) (w : World) : CutAnswer t.mem (r.arg op.arg) (serve t r sc w).1 := by
  have hnil : t.cstr r op.arg = [] := by
    rw [Task.cstr, GuestMem.readCstr, GuestMem.cstrFrom, hb]
  have hfault := GuestMem.faults_of_byte hb
  have one {o : Operand} (ho : op ∈ [o]) : t.cstr r o.arg = [] := List.mem_singleton.1 ho ▸ hnil
  have hopen {arg : Nat} {at_ : Bool} {flags : Nat} (h0 : t.cstr r arg = [])
    (hf : hasAt flags .emptyPath) :
      (pathOpenFlags t r arg at_ flags w).1 = .fwd := by
    unfold pathOpenFlags
    rw [if_pos h0, hf]
    rfl
  have hutimes {arg : Nat} {at_ : Bool} {flags : Option Nat} (h0 : nullPathArg r arg) :
      (doUtimes t r arg at_ flags w).1 = .fail .efault ∨
        (doUtimes t r arg at_ flags w).1 = .fwd := by
    unfold doUtimes
    rw [if_pos (by simp [h0]), h0]
    by_cases hat : at_
    · rw [if_neg (by simp [hat])]
      by_cases hfd : int32 (r.arg 0) = atFdCwd
      · rw [if_pos hfd]
        exact .inl rfl
      · rw [if_neg hfd]
        exact .inr rfl
    · rw [if_pos (by simpa using hat)]
      exact .inl rfl
  have answer {o : Outcome} (ho : o = .fail .efault ∨ o = .fwd) :
      CutAnswer t.mem (r.arg op.arg) o :=
    ho.elim (.fault hfault) fun ho => .raw (ho ▸ .forward)
  cases sc
  case open_ | openat | openat2 => exact answer (.inr (hopen (one hop) h))
  case newfstatat =>
    refine answer (.inr ?_)
    have h0 : t.cstr r 1 = [] := one hop
    have h : hasAt (r.arg 3) .emptyPath := h
    change (pathStat t r 1 true _ w).1 = _
    unfold pathStat
    rw [if_pos (by simp [pathSyntax, h0]), h]
    rfl
  case faccessat | faccessat2 =>
    refine answer (.inr ?_)
    have h0 : t.cstr r 1 = [] := one hop
    change (pathAt t r 1 true w).1 = _
    unfold pathAt
    rw [if_pos h0]
    rfl
  case readlinkat =>
    refine answer (.inr ?_)
    have h0 : t.cstr r 1 = [] := one hop
    change (doReadlink t r 1 true w).1 = _
    unfold doReadlink
    rw [if_pos h0]
    rfl
  case umount2 =>
    refine answer (.inl ?_)
    have h0 : t.cstr r 0 = [] := one hop
    change (doUmount2 t r w).1 = _
    unfold doUmount2
    rw [if_pos h0]
    rfl
  case utimes | utime | futimesat => exact answer (hutimes (beq_iff_eq.2 h))
  case utimensat =>
    by_cases hz : r.arg 1 = 0
    · exact answer (hutimes (beq_iff_eq.2 hz))
    · obtain ⟨hf, hfd⟩ := h.resolve_left hz
      have h0 : t.cstr r 1 = [] := one hop
      refine answer (.inr ?_)
      change (doUtimes t r 1 true (some (r.arg 3)) w).1 = _
      unfold doUtimes
      rw [if_pos (by simp [hf, emptyCstrArg, nullPathArg, h0]), if_neg (by decide), if_neg hfd]
      rfl
  all_goals exact absurd h id

end Calls

/-- Path strings are read whole or refused just where every one ends within the reader's limit, or
cannot be read at all and the call says so. -/
theorem paths_whole_iff (mem : GuestMem) (r : Regs) (sc : Sysno) :
    PathsWhole mem r sc ↔ PathsEnd mem r sc := by
  constructor
  · intro h op hop
    let t : Task := { mem := mem }
    rcases h t shamWorld rfl op hop with hom | hwhole | hans
    · exact .inl hom
    · exact .inr (.inl (GuestMem.guestString_readCstr.1 hwhole))
    · by_contra hno
      have hterm : ¬mem.Terminated (r.arg op.arg) := fun hterm => hno (.inr (.inl hterm))
      have hplain : Plain (serve t r sc shamWorld).1 := by
        refine serve_plainly (fun _ => rfl) hop (fun h0 hrep => ?_) shamWorld ⟨rfl, fun _ => rfl⟩
        exact hno (.inr (.inr ⟨GuestMem.byte_eq_none_of_readCstr h0 hterm, hrep⟩))
      cases hans with
      | raw hr => exact hplain.raw hr
      | fault _ he => exact hplain.fault he
      | tooLong _ he => exact hplain.tooLong he
  · rintro h t w rfl op hop
    rcases h op hop with hom | hterm | ⟨hb, hrep⟩
    · exact .inl hom
    · exact .inr (.inl (GuestMem.guestString_readCstr.2 hterm))
    · exact .inr (.inr (serve_reported hop hb hrep w))

def cutTask : Task := { mem := .ofText "/t" }

def cutRegs : Regs := ⟨87, fun | 0 => 1 | _ => 0⟩

/-- `unlink` removes the file whose name is the front part of the string. -/
theorem cut_string_removes :
    ¬PathsWhole cutTask.mem cutRegs .unlink ∧ cutTask.mem.byte 3 = none ∧
    (serve cutTask cutRegs .unlink (layeredWorld ∅)).1 = .virtualize 0 ∧
    (serve cutTask cutRegs .unlink (layeredWorld ∅)).2.whiteouts = {"/t".toList} := by
  have hserve : (serve cutTask cutRegs .unlink (layeredWorld ∅)).1 = .virtualize 0 := by
    decide +kernel
  refine ⟨fun h => ?_, by decide, hserve, by decide +kernel⟩
  rcases h cutTask (layeredWorld ∅) rfl ⟨0, none, false, true, some true⟩ (by simp [operands]) with
    ⟨hom, -⟩ | ⟨-, hz⟩ | hans
  · cases hom
  · exact absurd hz (by decide +kernel)
  · rw [hserve] at hans
    cases hans with
    | raw hr => cases hr
    | fault _ he => exact absurd he (by decide)
    | tooLong _ he => exact absurd he (by decide)

end Linuxity.Abi

import Linuxity.Abi.Frame.Rules

/-!
# Abi.Frame.Change — the handlers that change a path
-/

namespace Linuxity.Abi

open Posix Wire Kernel Logic World

section Mutate

variable {F : Prop} (t : Task) (r : Regs) (arg : Nat) (abs : Str)

theorem unlink_steady (p : Str) : Steadies (fun w => w.unlink p) := fun w => .sys w _ _ _ _

theorem createExcl_steady (p : Str) (mode : Nat) : Steadies (fun w => w.createExcl p mode) :=
  fun w => .sys w _ _ _ _

theorem createWith_steady (p : Str) (mode : Nat) (data : Str) :
    Steadies (fun w => w.createWith p mode data) :=
  fun w => .sys w _ _ _ _

theorem onHost_steady {α : Type} (f : Host → α) : Steadies (onHost f) := .read _

theorem unlinkWithLinks_ends (name : Str) : Ends Steady F Modest (unlinkWithLinks name) := by
  refine .bind (.read _) fun links =>
    .ite (fun _ => .bind (unlink_steady name) fun e => ?_) fun _ => ?_
  · rcases e with e | _
    · exact .refuse e
    · exact .done fun w => .putLinks w _
  · cases links.promote name with
    | none => exact .answer (unlink_steady name)
    | some hl =>
      exact .bind (.modify fun w => .putLinks w _) fun _ => .answer fun w => .rename w _ _

theorem fifoCreate_ends (abs host : Str) (mode : Nat) :
    Ends Steady F Modest (fifoCreate t arg abs host mode) := by
  refine .bind (.ask _ _ _ _ _) fun now =>
      .bind (onHost_steady _) fun _ => .ite (fun _ => .refuse _) fun _ =>
    .bind (.modify fun w => .foldl (fun w d => .sys w _ _ _ _) _ w) fun _ =>
      .bind (createExcl_steady _ _) fun e => ?_
  rcases e with e | _
  · exact .refuse e
  · refine .done fun w => ?_
    exact ((Steady.clearWhiteout w _).trans (.putMetas _ _ _)).trans (.putMetas _ _ _)

theorem removeDot_ends (at_ rm : Bool) {k : Act World Outcome} (hk : Ends Steady F Modest k) :
    Ends Steady F Modest (removeDot t r arg at_ rm k) := by
  unfold removeDot
  dsimp only
  cases dotTailErrno (removedirFlag r arg at_ rm) (dotTail (t.cstr r arg)) with
  | none => exact hk
  | some e =>
    exact .withPath fun _ => .bind (.ask _ _ _ _ _) fun _ => .bind (onHost_steady _) fun _ =>
      .ite (fun _ => .refuse _) fun _ => .refuse _

theorem mutHost_ends (wi : WriteIntent) (sp mk : Bool) (abs : Str) (pc : PathClass) :
    Ends Steady F Modest (mutHost t r arg wi sp mk abs pc) := by
  refine .bind (.read _) fun w =>
    .ite (fun _ => fifoCreate_ends t _ _ _ _) fun _ => .ite (fun _ => ?_) fun _ => ?_
  · exact .bind (.modify fun w => .putMetas w _ _) fun _ =>
      .ite (fun _ => unlinkWithLinks_ends _) fun _ => .toHost _ _
  · refine .pure ?_ rfl
    rintro (_ | h)
    simp [Redirect.isNoop] at h

theorem mutVirtual_ends (wi : WriteIntent) : Ends Steady F Modest (pure (mutVirtual abs wi)) := by
  refine .settled ?_
  cases wi with
  | copyLeaf =>
    unfold mutVirtual
    split_ifs <;> exact ⟨_, _⟩
  | _ => exact ⟨_, _⟩

theorem whiteOut_steady : Steadies (whiteOut abs) :=
  .modify fun w => (Steady.addWhiteout w abs).trans (.putMetas _ _ _)

theorem mutClass_ends (wi : WriteIntent) (sp mk : Bool) (abs : Str) (pc : PathClass) :
    Ends Steady F Modest (mutClass t r arg wi sp mk abs pc) :=
  .ite (fun _ => mutVirtual_ends _ _) fun _ =>
    .ite (fun _ => .bind (whiteOut_steady _) fun _ =>
        .ite (fun _ => .value 0) fun _ => mutHost_ends t r _ _ _ _ _ _)
      fun _ => .ite (fun _ => .refuse _) fun _ => mutHost_ends t r _ _ _ _ _ _

theorem pathMut_ends (at_ : Bool) (wi : WriteIntent) (sp rm mk : Bool) :
    Ends Steady F Modest (pathMut t r arg at_ wi sp rm mk) := by
  refine .ite (fun _ => .refuse _) fun _ => .refuseIf (.dotPrefixError _ _ _ _) ?_
  have hk : Ends Steady F Modest (withPath (resolveArg t r arg at_) fun abs => do
      let pc ← ask arg abs true false wi
      if ← onHost (dotTraversalDenied · (t.cstr r arg) pc.hostPath) then refuse .eacces
      else refuseIf (guestPrefixLoop arg abs) (mutClass t r arg wi sp mk abs pc)) :=
    .withPath fun _ => .bind (.ask _ _ _ _ _) fun _ =>
      .bind (onHost_steady _) fun _ => .ite (fun _ => .refuse _)
      fun _ => .refuseIf (.guestPrefixLoop _ _) (mutClass_ends t r _ _ _ _ _ _)
  split_ifs with h
  · exact removeDot_ends t r _ _ _ hk
  · exact hk

/-- The kernel gets no path, or none that names anything. -/
theorem doUtimes_ends (at_ : Bool) (flags : Option Nat) :
    Ends Steady (nullPathArg r arg ∨ emptyCstrArg t r arg) Modest (doUtimes t r arg at_ flags) := by
  refine .ite (fun h => .ite (fun _ => .refuse _) fun _ =>
        .ite (fun _ => .refuse _) fun _ => .fwd ?_) fun _ =>
    pathMut_ends t r _ _ _ _ _ _
  rcases Bool.or_eq_true_iff.1 h with h | h
  · exact .inl h
  · exact .inr (Bool.and_eq_true_iff.1 h).2

theorem chmodUpper_ends (mode : Nat) : Ends Steady F Modest (chmodUpper arg abs mode) := by
  refine .bind (.ask _ _ _ _ _) fun wc => .bind (onHost_steady _) fun _ =>
    .ite (fun _ => ?_) fun _ => .done fun w => .putMetas w _ _
  refine .bind (onHost_steady _) fun keep => .bind (.chmodHost _ _) fun e => ?_
  rcases e with e | landed
  · rcases e <;> first | exact .refuse _ | exact .done fun w => .putMetas w _ _
  · exact .done fun w => .putMetas w _ _

theorem chmodPath_ends (mode : Nat) : Ends Steady F Modest (chmodPath arg abs mode) :=
  .refuseIf (.chmodTarget _ _) (chmodUpper_ends _ _ _)

theorem chmodFd_ends (arg mode : Nat) : Ends Steady F Modest (chmodFd t r arg mode) := by
  refine .bind (.read _) fun gp => .ite (fun _ => ?_) fun _ =>
    .refuseIf (.ite (.linkMode _ _) (.pure _)) (chmodPath_ends _ _ _)
  rcases t.fd (int32 (r.arg 0)) with _ | (l | _)
  · exact .refuse _
  · exact .answer fun w => .chmodFd w l _
  · exact .value 0

theorem doChmod_ends (at_ fl : Bool) : Ends Steady F Modest (doChmod t r arg at_ fl) :=
  .ite (fun _ => chmodFd_ends t r _ _) fun _ => .ite (fun _ => .refuse _) fun _ =>
    .refuseIf (.dotPrefixError _ _ _ _) <| .withPath fun _ =>
      .refuseIf (.ite (.linkMode _ _) (.pure _)) (chmodPath_ends _ _ _)

theorem doFchmod_ends : Ends Steady True Modest (doFchmod t r) := by
  refine .bind (.read _) fun gp =>
      .ite (fun _ => .fwd trivial) fun _ => .ite (fun _ => .refuse _) fun _ =>
    .refuseIf (.linkMode _ _) <| .bind (.ask _ _ _ _ _) fun wc => .bind (.ite (.pure _) ?_) fun _ =>
      .done fun w => .putMetas w _ _
  refine .bind (.chmodHost _ _) fun e => ?_
  rcases e with _ | _ <;> exact .pure _

theorem recordOwner_ends (uid gid : Nat) : Ends Steady F Modest (recordOwner abs uid gid) :=
  .done fun w => .putMetas w _ _

theorem settled_chownError {h : Host} {abs : Str} {fo : Bool} {pc : PathClass} {o : Outcome}
    (ho : chownError h abs fo pc = some o) : Settled o := by
  unfold chownError at ho
  split at ho
  · split_ifs at ho <;> · cases ho; exact ⟨_, _⟩
  · cases ho
    exact ⟨_, _⟩
  · split_ifs at ho
    · cases ho
      exact ⟨_, _⟩
    · split at ho <;> cases ho <;> exact ⟨_, _⟩
    · split at ho <;> cases ho <;> exact ⟨_, _⟩

theorem doChown_ends (arg ua ga : Nat) (at_ fo : Bool) :
    Ends Steady (t.cstr r arg = []) Modest (doChown t r arg ua ga at_ fo) := by
  refine .ite (fun h => ?_) fun _ => .ite (fun _ => .refuse _) fun _ => .withPath fun abs =>
    .bind (.ask _ _ _ _ _) fun pc => .bind_read fun w => ?_
  · have he : emptyCstrArg t r arg := (Bool.and_eq_true_iff.1 (Bool.and_eq_true_iff.1 h).1).2
    have hraw : t.cstr r arg = [] := by simpa using (Bool.and_eq_true_iff.1 he).2
    exact .bind (.read _) fun _ => .ite (fun _ => .fwd hraw) fun _ => recordOwner_ends _ _ _
  · dsimp only
    cases ho : chownError w.host abs fo pc with
    | none => exact recordOwner_ends _ _ _
    | some o => exact .settled (settled_chownError ho)

theorem doFchown_ends : Ends Steady True Modest (doFchown r) :=
  .bind (.read _) fun _ => .ite (fun _ => .fwd trivial) fun _ => recordOwner_ends _ _ _

theorem symlinkSlash_ends (link : Str) : Ends Steady F Modest (symlinkSlash arg link) := by
  refine .bind (.ask _ _ _ _ _) fun pc => ?_
  rcases pc.realm with _ | _ | _
  · exact .bind (onHost_steady _) fun _ =>
        .ite (fun _ => .refuse _) fun _ => .bind (onHost_steady _) fun _ =>
      .ite (fun _ => .refuse _) fun _ => .refuse _
  · exact .refuse _
  · exact .refuse _

theorem pathSymlink_ends (ta la : Nat) (at_ : Bool) :
    Ends Steady F Modest (pathSymlink t r ta la at_) :=
  .ite (fun _ => .refuse _) fun _ => .ite (fun _ => .refuse _) fun _ =>
      .refuseIf (.dotPrefixError _ _ _ _) <|
      .withPath fun _ => .ite (fun _ => symlinkSlash_ends _ _) fun _ => .bind (.ask _ _ _ _ _)
      fun _ =>
      .bind (onHost_steady _) fun _ => .ite (fun _ => .refuse _) fun _ =>
        .refuseIf (.guestPrefixLoop _ _) <|
        .ite (fun _ => .refuse _) fun _ => .ite (fun _ => .refuse _) fun _ => .toHost _ _

end Mutate

/-! ## `rename`, `link` and the mounts -/

section Rename

variable {F : Prop} (t : Task) (r : Regs)

theorem tryLink_steady (a b : Str) : Steadies (tryLink t a b) := by
  intro w
  unfold tryLink
  split_ifs
  · exact .link w a b
  · rfl

theorem probeLinks_steady (a b : Str) : Steadies (probeLinks t a b) := by
  have gone (p : Str) : Steadies (Act.modify fun w => (w.unlink p).2) :=
    .modify fun w => .sys w _ _ _ _
  refine .bind (gone a) fun _ => .bind (gone b) fun _ => .bind (createExcl_steady _ _) fun e => ?_
  rcases e with _ | _
  · exact .pure _
  · exact .bind (tryLink_steady t a b) fun _ => .bind (gone a) fun _ => .bind (gone b) fun _ =>
      .bind (.modify fun _ => rfl) fun _ => .pure _

theorem hostLinksWork_steady (near : Str) : Steadies (hostLinksWork t near) := by
  refine .bind (.read _) fun w => ?_
  split
  · exact .pure _
  · exact .pure _
  · exact probeLinks_steady t _ _

theorem linkAlias_ends (src dst : Str) : Ends Steady F Modest (linkAlias src dst) := by
  refine .bind (onHost_steady _) fun n => ?_
  rcases n with e | n
  · exact .refuse e
  · refine .ite (fun _ => .refuse _) fun _ => .bind (createExcl_steady _ _) fun e => ?_
    rcases e with e | _
    · exact .refuse e
    · exact .done fun w => .putLinks w _

theorem linkFdTo_ends (dst : Str) (works : Bool) (f : FdFile) :
    Ends Steady F Modest (linkFdTo dst works f) := by
  rcases f with l | _
  · refine .ite (fun _ => .answer fun w => .linkFd w l dst) fun _ =>
      .bind (createExcl_steady _ _) fun e => ?_
    rcases e with e | _
    · exact .refuse e
    · exact .done fun w => .putLinks w _
  · refine .ite (fun _ => .answer (createWith_steady _ _ _)) fun _ =>
      .bind (createWith_steady _ _ _) fun e => ?_
    rcases e with e | _
    · exact .refuse e
    · exact .done fun w => .sys w _ _ _ _

theorem linkFromFd_ends (fd : Int) (a2 : Nat) (at_ : Bool) :
    Ends Steady F Modest (linkFromFd t r fd a2 at_) := by
  refine .ite (fun _ => .refuse _) fun _ => .withPath fun _ => .bind (.ask _ _ _ _ _) fun pd =>
    .ite (fun _ => .refuse _) fun _ => ?_
  cases t.fd fd with
  | none => exact .refuse _
  | some f =>
    exact .bind (onHost_steady _) fun _ =>
        .ite (fun _ => .refuse _) fun _ => .bind (onHost_steady _) fun _ =>
      .ite (fun _ => .refuse _) fun _ =>
        .bind (hostLinksWork_steady t _) fun _ => linkFdTo_ends _ _ _

theorem renameCall_steady (flags : Nat) (src dst : Str) : Steadies (renameCall flags src dst) := by
  intro w
  unfold renameCall
  split_ifs
  · exact .rename w _ _
  · exact .exchange w _ _
  · rfl

theorem saveReplaced_steady (dst : Str) : Steadies (saveReplaced dst) := by
  intro w
  unfold saveReplaced
  split_ifs
  · rfl
  · rcases w.links.promote dst with _ | ⟨heir, links⟩
    · rfl
    · have h := (Steady.putLinks w links).trans (.rename _ dst heir)
      rcases hr : (w.putLinks links).rename dst heir with ⟨_ | _, w'⟩ <;> rw [hr] at h <;>
        simp only [hr]
      · exact h.trans (.putLinks _ _)
      · exact h

theorem restoreReplaced_steady (heir : Option Str) (dst : Str) :
    Steadies (restoreReplaced heir dst) := by
  intro w
  rcases heir with _ | heir
  · rfl
  · exact ((Steady.rename w heir dst).trans (.sys _ _ _ _ _)).trans (.putLinks _ _)

theorem renameKeeping_ends (flags : Nat) (src dst : Str) (there : Bool) (heir : Option Str) :
    Ends Steady F Modest (renameKeeping flags src dst there heir) := by
  refine .bind (renameCall_steady _ _ _) fun e => ?_
  rcases e with e | _
  · exact .bind (restoreReplaced_steady _ _) fun _ => .refuse e
  · exact .done fun w => .putLinks w _

theorem renameWithLinks_ends (src dst : Str) (flags : Nat) :
    Ends Steady F Modest (renameWithLinks src dst flags) := by
  refine .bind (.read _) fun w => ?_
  rcases w.host.lstat src with e | s
  · exact .refuse e
  · refine .ite (fun _ => .refuse _) fun _ =>
        .ite (fun _ => .value 0) fun _ => .ite (fun _ => ?_) fun _ =>
      renameKeeping_ends _ _ _ _ _
    refine .ite (fun _ => .refuse _) fun _ => .bind (saveReplaced_steady _) fun e => ?_
    rcases e with e | heir
    · exact .refuse e
    · exact renameKeeping_ends _ _ _ _ _

theorem movePair_ends (a1 a2 : Nat) (mm : Bool) (fl : Nat) (src dst : Str) (ps pd : PathClass) :
    Ends Steady F Modest (movePair t a1 a2 mm fl src dst ps pd) := by
  have both : Ends Steady F Modest (pure (.redirect
      { first := { arg := a1, hostPath := ps.hostPath },
        second := some { arg := a2, hostPath := pd.hostPath } })) := by
    refine .pure ?_ rfl
    rintro (_ | h)
    simp [Redirect.isNoop] at h
  refine .ite (fun _ => .bind (.modify fun w => .putMetas w _ _) fun _ => .bind (.read _) fun _ =>
    .ite (fun _ => renameWithLinks_ends _ _ _) fun _ => both) fun _ =>
    .bind (hostLinksWork_steady t _) fun _ => .ite (fun _ => linkAlias_ends _ _) fun _ => both

theorem askPair_steady (a1 a2 : Nat) (mm : Bool) (src dst : Str) :
    Steadies (askPair a1 a2 mm src dst) := by
  rcases mm with _ | _
  · exact .bind (.ask _ _ _ _ _) fun _ => .bind (.ask _ _ _ _ _) fun _ => .pure _
  · exact .bind (.askName _ _ _ _ _) fun _ => .bind (.askName _ _ _ _ _) fun _ => .pure _

theorem pairChecked_ends (a1 a2 : Nat) (at_ mm : Bool) (fl : Nat) (src dst : Str)
    (ps pd : PathClass) : Ends Steady F Modest (pairChecked t r a1 a2 at_ mm fl src dst ps pd) :=
  .refuseIf (.dotPrefixError _ _ _ _) <| .refuseIf (.guestPrefixLoop _ _) <|
      .bind (onHost_steady _) fun _ =>
    .refuseIf (.ite (.pure _) (.dotPrefixError _ _ _ _)) <| .refuseIf (onHost_steady _) <|
      .bind (onHost_steady _) fun _ => .refuseIf (.ite (.guestPrefixLoop _ _) (.pure _)) <|
        .refuseIf (.read _) (movePair_ends t _ _ _ _ _ _ _ _)

theorem pathMut2_ends (a1 a2 : Nat) (at_ mm : Bool) (lf : Option Nat) (fl : Nat) :
    Ends Steady F Modest (pathMut2 t r a1 a2 at_ mm lf fl) := by
  refine .bind (.read _) fun fd => ?_
  rcases fd with _ | fd
  · exact .pure (by rintro ⟨⟩) trivial
  · exact .ite (fun _ => linkFromFd_ends t r _ _ _) fun _ => .ite (fun _ => .refuse _) fun _ =>
      .withPath fun _ => .withPath fun _ => .bind (askPair_steady _ _ _ _ _) fun _ =>
        pairChecked_ends t r _ _ _ _ _ _ _ _ _

theorem bindSource_ends {k : Act World Outcome} (hk : Ends Steady F Modest k) :
    Ends Steady F Modest (bindSource t r k) :=
  .ite (fun _ => hk) fun _ => .withPath fun _ =>
      .bind (.ask _ _ _ _ _) fun _ => .ite (fun _ => .refuse _) fun _ =>
    .bind (onHost_steady _) fun _ => .ite (fun _ => .refuse _) fun _ => hk

theorem doMount_ends : Ends Steady F Modest (doMount t r) :=
  .ite (fun _ => .refuse _) fun _ => bindSource_ends t r <|
      .ite (fun _ => .value 0) fun _ => .withPath fun _ =>
    .done fun _ => rfl

theorem doUmount2_ends : Ends Steady F Modest (doUmount2 t r) :=
  .ite (fun _ => .refuse _) fun _ => .withPath fun _ => .bind (.read _) fun _ =>
      .bind (.modify fun _ => rfl) fun _ =>
    .ite (fun _ => .value 0) fun _ => .refuse _

end Rename

end Linuxity.Abi

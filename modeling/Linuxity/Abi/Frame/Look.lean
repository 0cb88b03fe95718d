import Linuxity.Abi.Frame.Rules

/-!
# Abi.Frame.Look — the handlers that look a path up, and `open`
-/

namespace Linuxity.Abi

open Posix Wire Kernel Logic World

section Look

variable {F : Prop} (t : Task) (r : Regs) (arg : Nat)

theorem fastStat_steady (hp gp : Str) : Steadies (fastStat hp gp) := by
  intro w
  unfold fastStat
  split_ifs
  · rfl
  · cases w.host.lstat hp with
    | error e => rfl
    | ok n =>
      dsimp only
      split <;> rfl

theorem virtualStat_ends (arg buf : Nat) (sx fo : Bool) (vp : Str) :
    Ends Steady F Modest (virtualStat t arg buf sx fo vp) := by
  refine .bind (.read _) fun vf => ?_
  rcases vf with e | vf
  · refine .bind (.read _) fun tgt => .ite (fun _ => .fail _) fun _ =>
      .ite (fun _ => ?_) fun _ => .stored _ _ _
    exact .bind (.ask _ _ _ _ _) fun tc =>
      .ite (fun _ => .scrubbed _ _ _ _ _) fun _ => .stored _ _ _
  · exact .stored _ _ _

theorem statClass_ends (arg buf : Nat) (sx fo : Bool) (abs : Str) (pc : PathClass) :
    Ends Steady F Modest (statClass t arg buf sx fo abs pc) := by
  unfold statClass
  rcases pc.realm with _ | _ | _
  · exact .bind (fastStat_steady _ _) fun _ =>
      .ite (fun _ => .stored _ _ _) fun _ => .scrubbed _ _ _ _ _
  · exact virtualStat_ends t _ _ _ _ _
  · exact .fail _

theorem statNeedsDir_ends (arg buf : Nat) (fo : Bool) (abs : Str) (pc : PathClass) :
    Ends Steady F Modest (statNeedsDir t arg buf fo abs pc) := by
  unfold statNeedsDir
  rcases pc.realm with _ | _ | _
  · exact .scrubbed _ _ _ _ _
  · refine .bind (.read _) fun vf => ?_
    rcases vf with e | vf
    · exact statClass_ends t _ _ _ _ _ _
    · exact .ite (fun _ => .fail _) fun _ => statClass_ends t _ _ _ _ _ _
  · exact .fail _

theorem statPath_ends (at_ fo : Bool) :
    Ends Steady F Modest (refuseIf (dotPrefixError t r arg at_) <|
        withPath (resolveRaw t r (t.cstr r arg) at_ fo) fun abs =>
        ask arg abs false fo >>= fun pc =>
        if pathSyntax (t.cstr r arg) = .needsDir then statNeedsDir t arg (r.arg (arg + 1)) fo abs pc
        else statClass t arg (r.arg (arg + 1)) false fo abs pc) :=
  .refuseIf (.dotPrefixError _ _ _ _) <| .withPath fun _ => .bind (.ask _ _ _ _ _) fun _ =>
    .ite (fun _ => statNeedsDir_ends t _ _ _ _ _) fun _ => statClass_ends t _ _ _ _ _ _

theorem pathStat_ends (at_ fo : Bool) : Ends Steady True Modest (pathStat t r arg at_ fo) := by
  refine .ite (fun _ => .pure (fun _ => trivial) ?_) fun _ => .bind (.read _) fun _ =>
      .ite (fun _ => .fwd trivial) fun _ =>
    statPath_ends t r arg at_ fo
  split_ifs
  · rfl
  · trivial

theorem pathSyntax_ne_empty {raw : Str} (hne : raw ≠ []) : pathSyntax raw ≠ .empty := by
  unfold pathSyntax
  rw [if_neg hne]
  split_ifs <;> simp

/-- `stat` leaves the string to the kernel if it is empty, or if the descriptor has no record. -/
theorem pathStat_raw {arg : Nat} {at_ fo : Bool} {w : World} (hne : t.cstr r arg ≠ [])
    (h : IsRaw (pathStat t r arg at_ fo w).1) : at_ ∧ atDirfdUnresolvable w r (t.cstr r arg) := by
  unfold pathStat at h
  simp only [pathSyntax_ne_empty hne, if_false] at h
  by_cases hu : (at_ && atDirfdUnresolvable w r (t.cstr r arg))
  · simpa using hu
  · refine ((statPath_ends (F := False) t r arg at_ fo).raw w ?_).elim
    simpa only [Act.read_bind, hu, Bool.false_eq_true, if_false] using h

theorem statxFd_ends (h : t.cstr r 1 = []) :
    Ends Steady (t.cstr r 1 = []) Modest (statxFd t r) := by
  refine .bind (.read _) fun gp => .ite (fun _ => .fwd h) fun _ => .bind (.ask _ _ _ _ _) fun pc =>
    .ite (fun _ => .fwd h) fun _ => .bind (.read _) fun vf => ?_
  rcases vf with e | vf
  · exact .fail _
  · exact .stored _ _ _

theorem pathStatx_ends : Ends Steady (t.cstr r 1 = []) Modest (pathStatx t r) :=
  .ite (fun h => statxFd_ends t r h.1) fun _ => .ite (fun _ => .fail _) fun _ =>
    .refuseIf (.dotPrefixError _ _ _ _) <| .withPath fun _ => .bind (.ask _ _ _ _ _) fun _ =>
      statClass_ends t _ _ _ _ _ _

theorem pathAt_ends (at_ : Bool) : Ends Steady (t.cstr r arg = []) Modest (pathAt t r arg at_) := by
  refine .ite (fun h => .pure (fun _ => h) ?_) fun _ => .refuseIf (.dotPrefixError _ _ _ _) <|
      .withPath fun _ =>
    .bind (.ask _ _ _ _ _) fun pc => ?_
  · split_ifs
    · rfl
    · trivial
  rcases pc.realm with _ | _ | _
  · exact .toHost _ _
  · exact .value 0
  · exact .fail _

theorem pathWatch_ends (at_ : Bool) : Ends Steady F Modest (pathWatch t r arg at_) := by
  refine .withPath fun _ => .bind (.ask _ _ _ _ _) fun pc => ?_
  rcases pc.realm with _ | _ | _
  · exact .toHost _ _
  · exact .fail _
  · exact .fail _

theorem writeLink_ends (buf cap : Nat) (tgt : Str) :
    Ends Steady F Modest (Pure.pure (writeLink t buf cap tgt)) := by
  refine .settled ?_
  unfold writeLink
  dsimp only
  split_ifs
  · exact ⟨_, _⟩
  · exact .stored _ _ _

theorem readlinkClass_ends (arg buf cap : Nat) (abs : Str) (pc : PathClass) :
    Ends Steady F Modest (readlinkClass t arg buf cap abs pc) := by
  unfold readlinkClass
  rcases pc.realm with _ | _ | _
  · exact .toHost _ _
  · refine .bind (.read _) fun vf => ?_
    rcases vf with e | vf
    · exact .fail _
    · exact .ite (fun _ => .fail _) fun _ => .ite (fun _ => .fail _) fun _ => writeLink_ends t _ _ _
  · exact .fail _

theorem doReadlink_ends (at_ : Bool) :
    Ends Steady (t.cstr r arg = []) Modest (doReadlink t r arg at_) := by
  refine .ite (fun h => .pure (fun _ => h) ?_) fun _ => .ite (fun _ => .fail _) fun _ =>
    .refuseIf (.dotPrefixError _ _ _ _) <| .withPath fun _ => .refuseIf (.guestPrefixLoop _ _) <|
        .withPath fun _ =>
      .ite (fun _ => writeLink_ends t _ _ _) fun _ =>
          .ite (fun _ => writeLink_ends t _ _ _) fun _ =>
        .bind (.read _) fun _ => .ite (fun _ => writeLink_ends t _ _ _) fun _ =>
          .bind (.ask _ _ _ _ _) fun _ => readlinkClass_ends t _ _ _ _ _
  split_ifs
  · rfl
  · trivial

theorem pathStatfs_ends : Ends Steady F Modest (pathStatfs t r) := by
  refine .ite (fun _ => .fail _) fun _ => .withPath fun _ => .bind (.ask _ _ _ _ _) fun pc => ?_
  rcases pc.realm with _ | _ | _
  · exact .toHost _ _
  · exact .stored _ _ _
  · exact .fail _

theorem pathXattr_ends (fw fo : Bool) (arg : Nat) (at_ : Bool) :
    Ends Steady True Modest (pathXattr t r fw fo arg at_) :=
  .ite (fun _ => .fail _) fun _ => .withPath fun _ => .ite (fun _ => .value 0) fun _ =>
    .bind (.ask _ _ _ _ _) fun _ =>
        .ite (fun _ => .fail _) fun _ => .ite (fun _ => .fail _) fun _ =>
      .pure (fun _ => trivial) rfl

theorem execScript_ends (abs interp sharg : Str) :
    Ends Steady F Modest (execScript t arg abs interp sharg) := by
  refine .withPath fun _ => .bind (.ask _ _ _ _ _) fun sic => ?_
  cases t.program (hostOr sic interp) with
  | dynamic ld =>
    exact .withPath fun _ => .bind (.ask _ _ _ _ _) fun _ => .pure (by rintro ⟨⟩) trivial
  | plain | foreign | script => exact .pure (by rintro ⟨⟩) trivial

theorem pathExec_ends : Ends Steady F Modest (pathExec t r arg) := by
  refine .ite (fun _ => .fail _) fun _ => .withPath fun abs => .bind (.ask _ _ _ _ _) fun pc => ?_
  rcases pc.realm with _ | _ | _
  · simp only
    cases t.program pc.hostPath with
    | plain => exact .toHost _ _
    | foreign => exact .fail _
    | script i a => exact execScript_ends t _ _ _ _
    | dynamic i =>
      exact .withPath fun _ => .bind (.ask _ _ _ _ _) fun _ => .pure (by rintro ⟨⟩) trivial
  · exact .fail _
  · exact .fail _

theorem doChroot_ends : Ends Steady F Modest (doChroot t r) :=
  .withPath fun _ => .bind (.ask _ _ _ _ _) fun _ => .refuseIf (.read _) (.value 0)

theorem doGetcwd_ends : Ends Steady F Modest (doGetcwd t r) :=
  .bind (.read _) fun _ => .ite (fun _ => .fail _) fun _ =>
    .ite (fun _ => .fail _) fun _ => .stored _ _ _

end Look

/-! ## `chdir` and `open` -/

section Open

variable {F : Prop} (t : Task) (r : Regs) (arg flags : Nat)

theorem chdirTo_ends (p : Str) : Ends Moving F Modest (pure (chdirTo p)) :=
  .pure (by rintro (_ | h); simp [Redirect.isNoop] at h) rfl

theorem setCwd_moving (c : Str) (w : World) : Moving w (setCwd c w) := by
  refine ⟨?_, fun _ => by simp [setCwd]⟩
  simp [Steady, setCwd]

theorem doChdir_ends : Ends Moving F Modest (doChdir t r) := by
  refine .bind (.read _) fun old => .withPath fun abs => .bind (.ask _ _ _ _ _) fun pc =>
      .refuseIf (.read _) <|
      .bind (.modify (setCwd_moving _)) fun _ => .ite (fun _ => .value 0) fun _ =>
      .ite (fun _ => chdirTo_ends _) fun _ =>
        .bind (.ask _ _ _ _ _) fun oc => .bind (.read _) fun hp => ?_
  rcases hp with _ | hp
  · exact .value 0
  · exact chdirTo_ends hp

theorem doFchdir_ends : Ends Moving True Modest (doFchdir r) :=
  .bind (.read _) fun _ => .ite (fun _ => .fwd trivial) fun _ =>
    .bind (.modify (setCwd_moving _)) fun _ => .fwd trivial

theorem setPending_keeps (path : Str) (flags : Nat) :
    Keeps Opening (Act.modify (setPending path flags)) :=
  fun _ => rfl

theorem exclusiveError_keeps (raw abs : Str) (pc : PathClass) :
    Steadies (exclusiveError arg flags raw abs pc) :=
  .ite (.pure _) <| .bind (.read _) fun _ => .ite (.pure _) <|
    .bind (.read _) fun _ => .ite (.pure _) <|
    .bind (.ask _ _ _ _ _) fun _ => .bind (.read _) fun _ => .ite (.pure _) (.pure _)

theorem nofollowLink_keeps (abs : Str) : Steadies (nofollowLink t arg flags abs) :=
  .ite (.pure _) <| .bind (.ask _ _ _ _ _) fun _ =>
    .bind (.read _) fun _ => .ite (.pure _) (.pure _)

theorem grantRootWrite_steady (abs host : Str) (w : World) :
    Steady w (grantRootWrite abs host w) := by
  unfold grantRootWrite
  split
  · rfl
  · rename_i n _
    split
    · split_ifs
      · rfl
      · have h := Steady.sys w .chmod host true (·.chmod host ((n.mode &&& 0o7777) ||| 0o600))
        dsimp only
        unfold World.chmod
        rcases hr : w.sys .chmod host true (·.chmod host ((n.mode &&& 0o7777) ||| 0o600)) with
          ⟨_ | _, w'⟩
        · simpa only [hr] using h
        · rw [hr] at h
          dsimp only
          split_ifs
          · exact h
          · exact h.trans (.putMetas _ _ _)
    · rfl

theorem fifoOpen_ends (abs : Str) : Ends Opening F AnyOutcome (fifoOpen t arg flags abs) := by
  unfold fifoOpen
  rcases t.fifoTurn with _ | e | p
  · exact .pure (by rintro ⟨⟩) trivial
  · exact .fail e
  · exact .bind (setPending_keeps _ _) fun _ => .toHost _ _

theorem openHost_ends (abs hp : Str) : Ends Opening F AnyOutcome (openHost t arg flags abs hp) := by
  refine .bind (.read _) fun _ => .ite (fun _ => fifoOpen_ends t _ _ _) fun _ =>
    .bind (setPending_keeps _ _) fun _ => ?_
  have last : Ends Opening F AnyOutcome (do
      let mayBlock ← onHost fun h => !hasFor t.arch flags .nonblock && !hasFor t.arch flags .path &&
        isFifoAt h hp
      pure (.redirect { first := { arg := arg, hostPath := hp }, mayBlock := mayBlock })) := by
    refine .bind (.read _) fun _ => .pure ?_ trivial
    rintro (_ | h)
    simp [Redirect.isNoop] at h
  exact .ite (fun _ =>
        .bind (.modify fun w => Lax.steady (grantRootWrite_steady _ _ w)) fun _ => last) fun _ =>
    .bind (.modify fun _ => rfl) fun _ => last

theorem openVirtual_ends (vp : Str) : Ends Opening F AnyOutcome (openVirtual t arg flags vp) := by
  refine .ite (fun _ => .fail _) fun _ => .bind (.read _) fun vf => ?_
  rcases vf with e | vf
  · exact .fail e
  · exact .bind (setPending_keeps _ _) fun _ =>
      .bind (.modify fun _ => rfl) fun _ => .pure (by rintro ⟨⟩) trivial

theorem pathOpenFlags_ends (arg : Nat) (at_ : Bool) (flags : Nat) :
    Ends Opening (t.cstr r arg = []) AnyOutcome (pathOpenFlags t r arg at_ flags) := by
  refine .ite (fun h => .pure (fun _ => h) trivial) fun _ => .refuseIf (.dotPrefixError _ _ _ _) <|
      .withPath fun abs =>
    .bind (.ask _ _ _ _ _) fun pc =>
      .refuseIf ((exclusiveError_keeps _ _ _ _ _).mono fun _ _ => Lax.steady) <|
      .bind ((nofollowLink_keeps t _ _ _).mono fun _ _ => Lax.steady) fun link => ?_
  rcases link with _ | link
  · refine .bind (.read _) fun _ => .ite (fun _ => .fail _) fun _ => ?_
    unfold openClass
    rcases pc.realm with _ | _ | _
    · exact openHost_ends t _ _ _ _
    · exact openVirtual_ends t _ _ _
    · exact .fail _
  · exact .ite (fun _ => .fail _) fun _ => .bind (setPending_keeps _ _) fun _ => .toHost _ _

end Open

end Linuxity.Abi

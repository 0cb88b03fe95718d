import Linuxity.Kernel.Absolutize

/-!
# Kernel.Prepare — what making a path ready for writing leaves behind

On an overlay mount a question for writing makes the upper copy, records the modes it had to widen
and clears the whiteout of the path.  Everywhere else it changes nothing.
-/

namespace Linuxity.Kernel

open Posix Wire

namespace World

def HostOnly (w w' : World) : Prop := w' = { w with host := w'.host, calls := w'.calls }

namespace HostOnly

variable {w w' w'' : World}

theorem trans (h1 : HostOnly w w') (h2 : HostOnly w' w'') : HostOnly w w'' := by
  unfold HostOnly at *
  rw [h2, h1]

theorem metas (h : HostOnly w w') : w'.metas = w.metas := by rw [h]

theorem whiteouts (h : HostOnly w w') : w'.whiteouts = w.whiteouts := by rw [h]

theorem links (h : HostOnly w w') : w'.links = w.links := by rw [h]

theorem sys (w : World) (op : HostOp) (p : Str) (f : Bool) (run : Host → Except Errno Host) :
    HostOnly w (w.sys op p f run).2 := by
  unfold World.sys
  rcases run w.host with e | h
  · rfl
  · rfl

theorem logCall (w : World) (c : HostCall) : HostOnly w (w.logCall c) := rfl

theorem appendTo (w : World) (j : Str) : HostOnly w (w.appendTo j) := by
  unfold World.appendTo
  split_ifs
  · rfl
  · exact sys w _ _ _ _

theorem foldl {α β : Type} {f : World × β → α → World × β}
    (hf : ∀ acc a, HostOnly acc.1 (f acc a).1) (as : List α) (acc : World × β) :
    HostOnly acc.1 (as.foldl f acc).1 := by
  induction as generalizing acc with
  | nil => rfl
  | cons a as ih => exact trans (hf acc a) (ih (f acc a))

end HostOnly

@[simp] theorem appendTo_metas (w : World) (j : Str) : (w.appendTo j).metas = w.metas :=
  (HostOnly.appendTo w j).metas

@[simp] theorem appendTo_whiteouts (w : World) (j : Str) : (w.appendTo j).whiteouts = w.whiteouts :=
  (HostOnly.appendTo w j).whiteouts

@[simp] theorem appendTo_links (w : World) (j : Str) : (w.appendTo j).links = w.links :=
  (HostOnly.appendTo w j).links

@[simp] theorem putMetas_metas (w : World) (s : MetaStore) (b : Bool) :
    (w.putMetas s b).metas = s := by
  unfold putMetas
  split_ifs <;> simp

@[simp] theorem putMetas_whiteouts (w : World) (s : MetaStore) (b : Bool) :
    (w.putMetas s b).whiteouts = w.whiteouts := by
  unfold putMetas
  split_ifs <;> simp

@[simp] theorem putMetas_links (w : World) (s : MetaStore) (b : Bool) :
    (w.putMetas s b).links = w.links := by
  unfold putMetas
  split_ifs <;> simp

@[simp] theorem clearWhiteout_whiteouts (w : World) (abs : Str) :
    (w.clearWhiteout abs).whiteouts = w.whiteouts.erase abs := by
  unfold clearWhiteout
  split_ifs with h
  · simp
  · rw [Finset.erase_eq_of_notMem h]

@[simp] theorem clearWhiteout_metas (w : World) (abs : Str) :
    (w.clearWhiteout abs).metas = w.metas := by
  unfold clearWhiteout
  split_ifs <;> simp

@[simp] theorem addWhiteout_metas (w : World) (abs : Str) :
    (w.addWhiteout abs).metas = w.metas := by
  unfold addWhiteout
  split_ifs <;> simp

@[simp] theorem addWhiteout_links (w : World) (abs : Str) :
    (w.addWhiteout abs).links = w.links := by
  unfold addWhiteout
  split_ifs <;> simp

@[simp] theorem addWhiteout_host (w : World) (abs : Str) : (w.addWhiteout abs).host = w.host := by
  unfold addWhiteout
  split_ifs
  · rfl
  · rw [appendTo_host]

@[simp] theorem putLinks_host (w : World) (t : LinkTable) : (w.putLinks t).host = w.host := by
  rw [putLinks, appendTo_host]

end World

open World

/-! ## Copying up -/

theorem mkdirExact_hostOnly (w : World) (p : Str) (mode : Nat) :
    HostOnly w (mkdirExact w p mode).2 := by
  have h : HostOnly w (w.mkdir p mode).2 := .sys w _ _ _ _
  unfold mkdirExact
  generalize w.mkdir p mode = x at h ⊢
  obtain ⟨_ | _, w'⟩ := x
  · exact h
  · exact h.trans (.sys _ _ _ _ _)

theorem writeExact_hostOnly (w : World) (p : Str) (mode : Nat) (data : Str) :
    HostOnly w (writeExact w p mode data).2 := by
  have h : HostOnly w (w.writeFile p mode data).2 := .sys w _ _ _ _
  unfold writeExact
  generalize w.writeFile p mode data = x at h ⊢
  obtain ⟨_ | _, w'⟩ := x
  · exact h
  · exact h.trans (.sys _ _ _ _ _)

theorem mirrorParents_hostOnly (up lo : Str) (w : World) :
    HostOnly w (mirrorParentsFromLower up lo w).1 := by
  unfold mirrorParentsFromLower
  split_ifs
  · rfl
  · exact .foldl (fun acc sub => mkdirExact_hostOnly acc.1 sub _) _ (w, [])

theorem copyLeaf_hostOnly (up lo : Str) (w : World) : HostOnly w (copyLeaf up lo w) := by
  unfold copyLeaf
  split_ifs
  · exact mkdirExact_hostOnly w _ _
  · rcases w.host.readFile lo with e | data
    · rfl
    · exact writeExact_hostOnly w _ _ _

theorem copyUp_hostOnly (up lo : Str) (w : World) : HostOnly w (copyUp up lo w).1 := by
  have h := mirrorParents_hostOnly up lo w
  unfold copyUp
  generalize mirrorParentsFromLower up lo w = x at h ⊢
  obtain ⟨w', ws⟩ := x
  dsimp only
  split_ifs
  · exact h
  · exact h.trans (copyLeaf_hostOnly up lo w')

theorem setMode_table_of_ne (s : MetaStore) {path p : Str} (hne : p ≠ path) (mode : Nat)
    (hm : Option Nat) : (s.setMode path mode hm).table p = s.table p := by
  unfold MetaStore.setMode MetaStore.put
  split_ifs
  · rcases s.table path with _ | r
    · rfl
    · exact Function.update_of_ne hne _ _
  · exact Function.update_of_ne hne _ _

theorem recordWidened_metas (abs : Str) {p : Str} (hp : ¬p <+: abs) (ws : Widened) (w : World) :
    (recordWidened abs ws w).metas.table p = w.metas.table p := by
  unfold recordWidened
  induction ws generalizing w with
  | nil => rfl
  | cons e ws ih =>
    rw [List.foldl_cons, ih]
    split_ifs
    · have hne : p ≠ abs.take (abs.length - e.1) := by
        rintro rfl
        exact hp (List.take_prefix _ _)
      simp [World.setMetaMode, setMode_table_of_ne _ hne]
    · rfl

theorem recordWidened_whiteouts (abs : Str) (ws : Widened) (w : World) :
    (recordWidened abs ws w).whiteouts = w.whiteouts := by
  unfold recordWidened
  induction ws generalizing w with
  | nil => rfl
  | cons e ws ih =>
    rw [List.foldl_cons, ih]
    split_ifs <;> simp [World.setMetaMode]

/-! ## A question for writing -/

structure Overlay (ms : List Mount) (abs : Str) (m : Mount) : Prop where
  deepest : deepest ms abs = some m
  host : m.producer = none
  upper : m.upper ≠ []

variable {w : World} {abs : Str} {wi : WriteIntent}

theorem classifyName_overlay {m : Mount} (hm : Overlay w.mounts abs m) (fo : Bool) :
    classifyName abs true fo wi w = classifyWrite w m wi abs := by
  unfold classifyName classifyImpl classifyStep
  simp only [hm.deepest, hm.host, ne_eq, hm.upper, not_false_eq_true, if_true]

theorem classifyRead_nofollow (w : World) (m : Mount) (depth : Nat) (abs : Str) :
    ∃ pc, classifyRead w m depth false abs = .done pc := by
  unfold classifyRead
  simp only [Bool.false_eq_true, if_false]
  rcases probeLink w.host (m.up abs) with _ | _ | _ | _
  · exact ⟨_, rfl⟩
  · exact ⟨_, rfl⟩
  · split_ifs
    · exact ⟨_, rfl⟩
    · exact ⟨_, rfl⟩
  · exact ⟨_, rfl⟩

theorem classifyStep_nofollow (w : World) (depth : Nat) (fw : Bool) (wi : WriteIntent) (abs : Str) :
    ∃ pc, (classifyStep w depth fw false wi abs).1 = .done pc := by
  unfold classifyStep
  simp only [Bool.false_eq_true, if_false]
  rcases deepest w.mounts abs with _ | m
  · exact ⟨_, rfl⟩
  dsimp only
  rcases m.producer with _ | prod
  · split_ifs
    · exact ⟨_, rfl⟩
    · exact classifyRead_nofollow w m depth abs
    · exact ⟨_, rfl⟩
  · dsimp only
    rcases prod abs with e | vf
    · exact ⟨_, rfl⟩
    · dsimp only
      split_ifs
      · exact ⟨_, rfl⟩
      · exact ⟨_, rfl⟩

theorem classifyName_plain (h : ∀ m, ¬Overlay w.mounts abs m) (fw : Bool) :
    (classifyName abs fw false wi w).2 = w := by
  have hstep : (classifyStep w (maxCross - maxCross) fw false wi abs).2 = w := by
    unfold classifyStep
    rcases hd : deepest w.mounts abs with _ | m
    · rfl
    dsimp only
    rcases hp : m.producer with _ | prod
    · have hu : m.upper = [] := by
        by_contra hu
        exact h m ⟨hd, hp, hu⟩
      rw [if_neg (by simp [hu])]
      rfl
    · dsimp only
      rcases prod abs with e | vf
      · rfl
      · dsimp only
        split_ifs <;> rfl
  obtain ⟨pc, hpc⟩ := classifyStep_nofollow w (maxCross - maxCross) fw wi abs
  unfold classifyName classifyImpl
  generalize classifyStep w (maxCross - maxCross) fw false wi abs = x at hstep hpc
  obtain ⟨c, w'⟩ := x
  obtain rfl : c = .done pc := hpc
  exact hstep

theorem classifyWrite_whiteouts (w : World) (m : Mount) (hwi : wi ≠ .remove) (abs : Str) :
    (classifyWrite w m wi abs).2.whiteouts = w.whiteouts.erase abs := by
  unfold classifyWrite
  rcases wi with _ | _ | _
  · simp [recordWidened_whiteouts, (copyUp_hostOnly _ _ w).whiteouts]
  · simp [recordWidened_whiteouts, (mirrorParents_hostOnly _ _ w).whiteouts]
  · exact absurd rfl hwi

theorem classifyName_metas (w : World) (wi : WriteIntent) {p : Str} (hp : ¬p <+: abs) :
    (classifyName abs true false wi w).2.metas.table p = w.metas.table p := by
  by_cases h : ∃ m, Overlay w.mounts abs m
  · obtain ⟨m, hm⟩ := h
    rw [classifyName_overlay hm]
    unfold classifyWrite
    rcases wi with _ | _ | _
    · simp [recordWidened_metas abs hp, (copyUp_hostOnly _ _ w).metas]
    · simp [recordWidened_metas abs hp, (mirrorParents_hostOnly _ _ w).metas]
    · dsimp only
      split_ifs <;> rfl
  · rw [classifyName_plain (fun m hm => h ⟨m, hm⟩)]

end Linuxity.Kernel

import Linuxity.Kernel.Absolutize

/-!
# Kernel.Alike — the names that were asked about do not matter

Two worlds that differ only in the log `named` give the same answers and stay alike.
-/

namespace Linuxity.Kernel

open Posix Wire

namespace World

def withNamed (w : World) (l : List (Nat × Str)) : World := { w with named := l }

/-- Only the names that were asked about differ. -/
def Alike (w w' : World) : Prop := w' = w.withNamed w'.named

namespace Alike

variable {w w' w'' : World}

@[refl] theorem refl (w : World) : Alike w w := rfl

theorem trans (h1 : Alike w w') (h2 : Alike w' w'') : Alike w w'' := by
  rw [h2, h1]
  rfl

theorem symm (h : Alike w w') : Alike w' w := by
  rw [h]
  rfl

theorem withNamed (w : World) (l : List (Nat × Str)) : Alike w (w.withNamed l) := rfl

theorem noteName (w : World) (arg : Nat) (abs : Str) : Alike w (w.noteName arg abs) := rfl

theorem host (h : Alike w w') : w'.host = w.host := by rw [h]; rfl

theorem mounts (h : Alike w w') : w'.mounts = w.mounts := by rw [h]; rfl

theorem whiteouts (h : Alike w w') : w'.whiteouts = w.whiteouts := by rw [h]; rfl

theorem links (h : Alike w w') : w'.links = w.links := by rw [h]; rfl

theorem metas (h : Alike w w') : w'.metas = w.metas := by rw [h]; rfl

/-- What a function makes of a world without looking at the log, it makes of any world alike. -/
theorem congr {α : Type} {f : World → α × World}
    (hf : ∀ w l, f (w.withNamed l) = ((f w).1, (f w).2.withNamed l)) (h : Alike w w') :
    (f w').1 = (f w).1 ∧ Alike (f w).2 (f w').2 := by
  rw [h, hf]
  exact ⟨rfl, withNamed _ _⟩

end Alike

section

variable (w : World) (l : List (Nat × Str))

@[simp] theorem withNamed_host : (w.withNamed l).host = w.host := (rfl)

@[simp] theorem withNamed_mounts : (w.withNamed l).mounts = w.mounts := (rfl)

theorem sys_withNamed (op : HostOp) (p : Str) (f : Bool) (run : Host → Except Errno Host) :
    (w.withNamed l).sys op p f run = ((w.sys op p f run).1, (w.sys op p f run).2.withNamed l) := by
  unfold sys
  simp only [withNamed_host]
  rcases run w.host with e | h
  · rfl
  · rfl

theorem appendTo_withNamed (j : Str) : (w.withNamed l).appendTo j = (w.appendTo j).withNamed l := by
  unfold appendTo
  split_ifs
  · rfl
  · rw [sys_withNamed]

theorem clearWhiteout_withNamed (abs : Str) :
    (w.withNamed l).clearWhiteout abs = (w.clearWhiteout abs).withNamed l := by
  unfold clearWhiteout
  by_cases h : abs ∈ w.whiteouts
  · have h' : abs ∈ (w.withNamed l).whiteouts := h
    rw [if_pos h, if_pos h']
    exact appendTo_withNamed { w with whiteouts := w.whiteouts.erase abs } l _
  · have h' : abs ∉ (w.withNamed l).whiteouts := h
    rw [if_neg h, if_neg h']

theorem putMetas_withNamed (s : MetaStore) (touched : Bool) :
    (w.withNamed l).putMetas s touched = (w.putMetas s touched).withNamed l := by
  unfold putMetas
  split_ifs
  · exact appendTo_withNamed { w with metas := s } l _
  · rfl

end

end World

open World

section

variable (w : World) (l : List (Nat × Str))

theorem mkdirExact_withNamed (p : Str) (mode : Nat) :
    mkdirExact (w.withNamed l) p mode =
      ((mkdirExact w p mode).1, (mkdirExact w p mode).2.withNamed l) := by
  unfold mkdirExact World.mkdir
  rw [sys_withNamed]
  rcases w.sys .mkdir p false (·.mkdir p mode) with ⟨_ | _, w'⟩
  · rfl
  · dsimp only
    rw [World.chmod, sys_withNamed, World.chmod]

theorem writeExact_withNamed (p : Str) (mode : Nat) (data : Str) :
    writeExact (w.withNamed l) p mode data =
      ((writeExact w p mode data).1, (writeExact w p mode data).2.withNamed l) := by
  unfold writeExact World.writeFile
  rw [sys_withNamed]
  rcases w.sys .writeFile p true (·.writeFile p mode data) with ⟨_ | _, w'⟩
  · rfl
  · dsimp only
    rw [World.chmod, sys_withNamed, World.chmod]

theorem mirrorStep_withNamed (up loDir : Str) (ws : Widened) (sub : Str) :
    mirrorStep up loDir (w.withNamed l, ws) sub =
      ((mirrorStep up loDir (w, ws) sub).1.withNamed l, (mirrorStep up loDir (w, ws) sub).2) := by
  unfold mirrorStep
  simp only [withNamed_host, mkdirExact_withNamed]

theorem mirrorParents_withNamed (up lo : Str) : mirrorParentsFromLower up lo (w.withNamed l) =
    ((mirrorParentsFromLower up lo w).1.withNamed l, (mirrorParentsFromLower up lo w).2) := by
  unfold mirrorParentsFromLower
  split_ifs
  · rfl
  generalize ([] : Widened) = ws
  induction cuts [] (dirOf up) generalizing w ws with
  | nil => rfl
  | cons sub subs ih =>
    rw [List.foldl_cons, List.foldl_cons, mirrorStep_withNamed]
    exact ih (mirrorStep up (dirOf lo) (w, ws) sub).1 (mirrorStep up (dirOf lo) (w, ws) sub).2

theorem copyLeaf_withNamed (up lo : Str) :
    copyLeaf up lo (w.withNamed l) = (copyLeaf up lo w).withNamed l := by
  unfold copyLeaf
  simp only [withNamed_host, mkdirExact_withNamed]
  split_ifs
  · rfl
  · rcases w.host.readFile lo with e | data
    · rfl
    · simp only [writeExact_withNamed]

theorem copyUp_withNamed (up lo : Str) :
    copyUp up lo (w.withNamed l) = ((copyUp up lo w).1.withNamed l, (copyUp up lo w).2) := by
  unfold copyUp
  rw [mirrorParents_withNamed]
  simp only [withNamed_host, copyLeaf_withNamed]
  split_ifs <;> rfl

theorem recordWidened_withNamed (abs : Str) (ws : Widened) :
    recordWidened abs ws (w.withNamed l) = (recordWidened abs ws w).withNamed l := by
  unfold recordWidened
  induction ws generalizing w with
  | nil => rfl
  | cons e ws ih =>
    rw [List.foldl_cons, List.foldl_cons]
    by_cases h : e.1 ≤ abs.length
    · rw [if_pos h, if_pos h, World.setMetaMode, putMetas_withNamed]
      exact ih _
    · rw [if_neg h, if_neg h]
      exact ih w

theorem classifyWrite_withNamed (m : Mount) (wi : WriteIntent) (abs : Str) :
    classifyWrite (w.withNamed l) m wi abs =
      ((classifyWrite w m wi abs).1, (classifyWrite w m wi abs).2.withNamed l) := by
  unfold classifyWrite
  rcases wi with _ | _ | _
  · simp only [copyUp_withNamed, recordWidened_withNamed, clearWhiteout_withNamed]
  · simp only [mirrorParents_withNamed, recordWidened_withNamed, clearWhiteout_withNamed]
  · by_cases h1 : hostExists w.host (m.up abs)
    · have h1' : hostExists (w.withNamed l).host (m.up abs) := h1
      simp only [if_pos h1, if_pos h1']
      rfl
    · have h1' : ¬hostExists (w.withNamed l).host (m.up abs) := h1
      by_cases h2 : w.isWhiteout abs || !hostExists w.host (m.lo abs)
      · have h2' : (w.withNamed l).isWhiteout abs || !hostExists (w.withNamed l).host (m.lo abs) :=
          h2
        simp only [if_neg h1, if_pos h2, if_neg h1', if_pos h2']
      · have h2' :
            ¬((w.withNamed l).isWhiteout abs || !hostExists (w.withNamed l).host (m.lo abs)) := h2
        simp only [if_neg h1, if_neg h2, if_neg h1', if_neg h2']

theorem classifyStep_withNamed (depth : Nat) (fw fo : Bool) (wi : WriteIntent) (abs : Str) :
    classifyStep (w.withNamed l) depth fw fo wi abs =
      ((classifyStep w depth fw fo wi abs).1,
      (classifyStep w depth fw fo wi abs).2.withNamed l) := by
  unfold classifyStep
  simp only [withNamed_host, withNamed_mounts]
  rcases deepest w.mounts abs with _ | m
  · rfl
  · dsimp only
    rcases m.producer with _ | prod
    · split_ifs
      · simp only [classifyWrite_withNamed]
      · rfl
      · rfl
      · rfl
    · dsimp only
      rcases prod abs with e | vf
      · rfl
      · dsimp only
        split_ifs <;> rfl

theorem classifyImpl_withNamed (fw : Bool) (wi : WriteIntent) (budget : Nat) (fo : Bool)
    (abs : Str) :
    classifyImpl fw wi budget fo abs (w.withNamed l) =
      ((classifyImpl fw wi budget fo abs w).1,
      (classifyImpl fw wi budget fo abs w).2.withNamed l) := by
  induction budget generalizing fo abs w with
  | zero =>
    unfold classifyImpl
    rw [classifyStep_withNamed]
    rcases classifyStep w (maxCross - 0) fw fo wi abs with ⟨_ | _, w'⟩ <;> rfl
  | succ budget ih =>
    unfold classifyImpl
    rw [classifyStep_withNamed]
    rcases classifyStep w (maxCross - (budget + 1)) fw fo wi abs with ⟨_ | next, w'⟩
    · rfl
    · exact ih w' true next

theorem classify_withNamed (abs : Str) (fw fo : Bool) (wi : WriteIntent) :
    classify abs fw fo wi (w.withNamed l) =
      ((classify abs fw fo wi w).1, (classify abs fw fo wi w).2.withNamed l) := by
  unfold classify classifyName
  rw [classifyImpl_withNamed]
  rfl

theorem physicalIfSymlink_withNamed (fuel : Nat) (abs : Str) :
    physicalIfSymlink (w.withNamed l) fuel abs = physicalIfSymlink w fuel abs := by
  induction fuel generalizing abs with
  | zero => rfl
  | succ fuel ih =>
    unfold physicalIfSymlink
    have hfun : physicalIfSymlink (w.withNamed l) fuel = physicalIfSymlink w fuel := funext ih
    rw [classify_withNamed, hfun]
    rfl

theorem absolutize_withNamed (path dir : Str) :
    absolutize (w.withNamed l) path dir = absolutize w path dir := by
  have hfun : physicalIfSymlink (w.withNamed l) 41 = physicalIfSymlink w 41 :=
    funext (physicalIfSymlink_withNamed w l 41)
  unfold absolutize resolveDotdot
  rw [hfun]
  rfl

end

/-! ## Worlds that show the same files -/

structure SameView (w w' : World) : Prop where
  host : w'.host = w.host
  mounts : w'.mounts = w.mounts
  whiteouts : w'.whiteouts = w.whiteouts
  links : w'.links = w.links

namespace SameView
variable {w w' : World}

theorem classifyStep (hv : SameView w w') (depth : Nat) (fo : Bool) (wi : WriteIntent) (abs : Str) :
    (Kernel.classifyStep w' depth false fo wi abs).1 =
      (Kernel.classifyStep w depth false fo wi abs).1 := by
  simp only [Kernel.classifyStep, classifyRead, World.isWhiteout, hv.host, hv.mounts, hv.whiteouts,
    Bool.false_eq_true, if_false]
  split
  · rfl
  · split
    · split
      · rfl
      · split_ifs <;> rfl
    · split_ifs <;> rfl

theorem classifyImpl (hv : SameView w w') (wi : WriteIntent) (budget : Nat) (fo : Bool)
    (abs : Str) :
    (Kernel.classifyImpl false wi budget fo abs w').1 =
      (Kernel.classifyImpl false wi budget fo abs w).1 := by
  have read (v : World) (d : Nat) (fo : Bool) (abs : Str) :
      Kernel.classifyStep v d false fo wi abs = ((Kernel.classifyStep v d false fo wi abs).1, v) :=
    Prod.ext rfl (classifyStep_same (.inl rfl) v d fo abs)
  induction budget generalizing fo abs with
  | zero =>
    rw [Kernel.classifyImpl, Kernel.classifyImpl, read w', read w, hv.classifyStep]
    rcases (Kernel.classifyStep w (maxCross - 0) false fo wi abs).1 with pc | next <;> rfl
  | succ budget ih =>
    rw [Kernel.classifyImpl, Kernel.classifyImpl, read w', read w, hv.classifyStep]
    rcases (Kernel.classifyStep w (maxCross - (budget + 1)) false fo wi abs).1 with pc | next
    · rfl
    · exact ih true next

theorem classify (hv : SameView w w') (abs : Str) (fo : Bool) (wi : WriteIntent) :
    (Kernel.classify abs false fo wi w').1 = (Kernel.classify abs false fo wi w).1 := by
  have h := hv.classifyImpl wi maxCross fo abs
  simp only [Kernel.classify, classifyName, resolveAlias, h, classifyImpl_read, hv.links]

end SameView
end Linuxity.Kernel

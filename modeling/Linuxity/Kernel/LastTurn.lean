import Linuxity.Kernel.Classify
import Mathlib.Logic.Relation

/-!
# Kernel.LastTurn — the turn of the classifier that answers

A classification is a sequence of turns, each asking again about another guest path, and only the
last one answers or touches the host.  `onward` is the guest path that the chase goes on to from a
guest path; `StepRun` says all that a turn can do.
-/

namespace Linuxity.Kernel

open Posix Wire

/-! ## From one guest path to the next -/

section Onward

variable (h : Host) (ms : List Mount) (m : Mount) (g : Str)

/-- The layer entry that shows at a guest path: the upper one unless it is missing. -/
def visiblePath : Str := if m.upper ≠ [] ∧ probeLink h (m.up g) ≠ .absent then m.up g else m.lo g

/-- The text of the link that shows at a guest path. -/
def shownLink : Option Str :=
  if m.upper = [] then (h.readlink (m.lo g)).toOption
  else
    match probeLink h (m.up g) with
    | .symlink t => some t
    | .present | .notdir => none
    | .absent => (h.readlink (m.lo g)).toOption

/-- Neither layer has the name, as far as `readlink` can tell. -/
def Missing : Prop :=
  (m.upper = [] ∨ probeLink h (m.up g) = .absent) ∧
    (h.readlink (m.lo g) = .error .enoent ∨ h.readlink (m.lo g) = .error .eloop)

instance : Decidable (Missing h m g) := inferInstanceAs (Decidable (_ ∧ _))

/-- The guest path that the chase goes on to: the target of the link, or for a missing name what
the nearest link among its directories makes of it. -/
def onward : Option Str :=
  match deepest ms g with
  | none => none
  | some m =>
    if m.producer.isSome then none
    else
      match shownLink h m g with
      | some t => some (linkTarget m (visiblePath h m g) t)
      | none =>
        if Missing h m g then
          match chaseUp h m (m.lo g).length (m.lo g) [] with
          | some (.reclassify a) => some a
          | _ => none
        else none

def LeadsOn (g g' : Str) : Prop := onward h ms g = some g'

/-- The end of a turn of `follow_from`: the layer that holds the next name. -/
def descend (depth k : Nat) : Chase :=
  if m.upper = [] then followFrom h ms m depth k (m.lo g) []
  else
    match probeLink h (m.up g) with
    | .symlink next => followFrom h ms m depth k (m.up g) next
    | .present | .notdir => .done (.host (m.up g))
    | .absent => followFrom h ms m depth k (m.lo g) []

end Onward

section Turn

variable {h : Host} {ms : List Mount} {m : Mount} {depth k : Nat} {w w' : World}
  {forWrite follow : Bool} {wi : WriteIntent} {abs b g t : Str} {pc : PathClass}

/-- The upper layer is visible exactly when the probe does not answer that the name is missing. -/
theorem visiblePath_up (hu : m.upper ≠ []) (hpr : probeLink h (m.up g) ≠ .absent) :
    visiblePath h m g = m.up g := if_pos ⟨hu, hpr⟩

theorem visiblePath_lo (hpr : m.upper = [] ∨ probeLink h (m.up g) = .absent) :
    visiblePath h m g = m.lo g := by
  refine if_neg ?_
  rintro ⟨hu, ha⟩
  rcases hpr with h | h
  · exact hu h
  · exact ha h

theorem chaseUp_spec {fuel : Nat} {head tail : Str} {c : Chase}
    (hc : chaseUp h m fuel head tail = some c) :
    c = .done (.missing .eloop) ∨ ∃ a, c = .reclassify a ∧ Normal a := by
  induction fuel generalizing head tail with
  | zero => cases hc
  | succ fuel ih =>
    rw [chaseUp] at hc
    split_ifs at hc
    dsimp only at hc
    split at hc
    · exact ih hc
    · exact .inl (Option.some.inj hc).symm
    · cases hc
    · exact .inr ⟨_, (Option.some.inj hc).symm, normalizePath_normal _⟩

theorem linkTarget_normal (m : Mount) (host target : Str) : Normal (linkTarget m host target) := by
  unfold linkTarget
  split_ifs <;> exact normalizePath_normal _

theorem onward_host (hd : deepest ms g = some m) (hm : m.producer = none) :
    onward h ms g = match shownLink h m g with
      | some t => some (linkTarget m (visiblePath h m g) t)
      | none =>
        if Missing h m g then
          match chaseUp h m (m.lo g).length (m.lo g) [] with
          | some (.reclassify a) => some a
          | _ => none
        else none := by
  unfold onward
  rw [hd]
  simp only [hm, Option.isSome_none, Bool.false_eq_true, if_false]

theorem LeadsOn.normal (ho : LeadsOn h ms g b) : Normal b := by
  have hhost : ∃ m, deepest ms g = some m ∧ m.producer = none := by
    unfold LeadsOn onward at ho
    cases hd : deepest ms g with
    | none => rw [hd] at ho; cases ho
    | some m => cases hm : m.producer <;> simp [hd, hm] at ho ⊢
  obtain ⟨m, hd, hm⟩ := hhost
  rw [LeadsOn, onward_host hd hm] at ho
  split at ho
  · cases ho
    exact linkTarget_normal _ _ _
  · split_ifs at ho
    split at ho
    · rename_i hc
      cases ho
      obtain hloop | ⟨a, ha, hn⟩ := chaseUp_spec hc
      · cases hloop
      · cases ha
        exact hn
    · cases ho

/-! ## One turn of the chase -/

theorem followFrom_link {host first : Str}
    (ht : (if first ≠ [] then .ok first else h.readlink host) = .ok t) :
    followFrom h ms m depth (k + 1) host first =
      if (deepest ms (linkTarget m host t)).map (·.pre) ≠ some m.pre then
        if maxCross ≤ depth then .done (.missing .eloop) else .reclassify (linkTarget m host t)
      else descend h ms m (linkTarget m host t) depth k := by
  rw [followFrom, ht]
  rfl

theorem readlink_of_toOption (hr : (h.readlink g).toOption = some t) :
    (if ([] : Str) ≠ [] then .ok [] else h.readlink g) = .ok t := by
  rw [if_neg (by simp)]
  cases hl : h.readlink g with
  | error e => rw [hl] at hr; cases hr
  | ok t' => rw [hl] at hr; cases hr; rfl

/-- The chase at a link goes on to the link's target. -/
theorem descend_link (hs : shownLink h m g = some t) (depth k : Nat) :
    descend h ms m g depth (k + 1) =
      if (deepest ms (linkTarget m (visiblePath h m g) t)).map (·.pre) ≠ some m.pre then
        if maxCross ≤ depth then .done (.missing .eloop)
        else .reclassify (linkTarget m (visiblePath h m g) t)
      else descend h ms m (linkTarget m (visiblePath h m g) t) depth k := by
  rw [shownLink] at hs
  rw [descend]
  by_cases hu : m.upper = []
  · rw [if_pos hu] at hs ⊢
    rw [visiblePath_lo (.inl hu)]
    exact followFrom_link (readlink_of_toOption hs)
  · rw [if_neg hu] at hs ⊢
    cases hpr : probeLink h (m.up g) with
    | symlink t' =>
      rw [hpr] at hs
      obtain rfl : t' = t := by simpa using hs
      have hne : t' ≠ [] := by
        rintro rfl
        exact probeLink_ne_symlink_nil _ _ hpr
      rw [visiblePath_up hu (by simp [hpr])]
      exact followFrom_link (by rw [if_pos hne])
    | present | notdir => simp [hpr] at hs
    | absent =>
      rw [hpr] at hs
      rw [visiblePath_lo (.inr hpr)]
      exact followFrom_link (readlink_of_toOption hs)

theorem descend_zero : descend h ms m g depth 0 =
    if m.upper ≠ [] ∧ (probeLink h (m.up g) = .present ∨ probeLink h (m.up g) = .notdir)
    then .done (.host (visiblePath h m g)) else .done (.missing .eloop) := by
  rw [descend]
  by_cases hu : m.upper = []
  · rw [if_pos hu, if_neg fun h => h.1 hu, followFrom]
  · rw [if_neg hu]
    cases hpr : probeLink h (m.up g) <;> simp [hu, followFrom, visiblePath, hpr]

/-- The chase at a name that is not a link rests there, unless the name is missing. -/
theorem descend_rest (hs : shownLink h m g = none) (depth k : Nat) :
    descend h ms m g depth (k + 1) =
      if Missing h m g then (chasePrefix h m depth (maxHops - (k + 1)) (m.lo g)).getD
      (.done (.host (visiblePath h m g))) else .done (.host (visiblePath h m g)) := by
  -- what `follow_from` makes of a lower name that is not a link
  have hlower (hup : m.upper = [] ∨ probeLink h (m.up g) = .absent)
      (hr : (h.readlink (m.lo g)).toOption = none) :
      followFrom h ms m depth (k + 1) (m.lo g) [] =
        if Missing h m g then
          (chasePrefix h m depth (maxHops - (k + 1)) (m.lo g)).getD
            (.done (.host (visiblePath h m g)))
        else .done (.host (visiblePath h m g)) := by
    rw [followFrom, if_neg (by simp), visiblePath_lo hup]
    cases he : h.readlink (m.lo g) with
    | ok t => rw [he] at hr; cases hr
    | error e => simp [Missing, hup, he]
  rw [shownLink] at hs
  rw [descend]
  by_cases hu : m.upper = []
  · rw [if_pos hu] at hs ⊢
    exact hlower (.inl hu) hs
  · rw [if_neg hu] at hs ⊢
    cases hpr : probeLink h (m.up g) with
    | symlink t => simp [hpr] at hs
    | present | notdir => simp [Missing, hu, hpr, visiblePath]
    | absent =>
      rw [hpr] at hs
      exact hlower (.inr hpr) hs

/-- **The chase in one mount** gives up, asks again, or rests at a name that nothing leads on
from. -/
theorem descend_run (hd : deepest ms g = some m) (hm : m.producer = none) (depth k : Nat) :
    descend h ms m g depth k = .done (.missing .eloop) ∨
      (depth < maxCross ∧ ∃ b, Relation.TransGen (LeadsOn h ms) g b ∧
        descend h ms m g depth k = .reclassify b) ∨
      ∃ g', Relation.ReflTransGen (LeadsOn h ms) g g' ∧ onward h ms g' = none ∧
        deepest ms g' = some m ∧ descend h ms m g depth k = .done (.host (visiblePath h m g')) := by
  induction k generalizing g with
  | zero =>
    rw [descend_zero]
    split_ifs with hup
    · refine .inr (.inr ⟨g, .refl, ?_, hd, rfl⟩)
      rw [onward_host hd hm]
      rcases hup with ⟨hu, hpr | hpr⟩ <;> simp [shownLink, Missing, hu, hpr]
    · exact .inl rfl
  | succ k ih =>
    cases hs : shownLink h m g with
    | some t =>
      have hon : LeadsOn h ms g (linkTarget m (visiblePath h m g) t) := by
        rw [LeadsOn, onward_host hd hm, hs]
      rw [descend_link hs]
      split_ifs with hcross hdepth
      · exact .inl rfl
      · exact .inr (.inl ⟨not_le.1 hdepth, _, .single hon, rfl⟩)
      · rcases ih (deepest_of_map_pre hd hcross) with
          he | ⟨hlt, b, hb, he⟩ | ⟨g', hg', hrest, hd', he⟩
        · exact .inl he
        · exact .inr (.inl ⟨hlt, b, .head hon hb, he⟩)
        · exact .inr (.inr ⟨g', .head hon hg', hrest, hd', he⟩)
    | none =>
      have hon := @onward_host h ms m g hd hm
      rw [hs] at hon
      dsimp only at hon
      rw [descend_rest hs]
      split_ifs at hon ⊢ with hmiss
      · rw [chasePrefix]
        split_ifs with hlim
        · exact .inl rfl
        · have hlt : depth < maxCross := not_le.1 fun h => hlim (.inr h)
          cases hc : chaseUp h m (m.lo g).length (m.lo g) [] with
          | none =>
            rw [hc] at hon
            exact .inr (.inr ⟨g, .refl, hon, hd, rfl⟩)
          | some c =>
            rw [hc] at hon
            rcases chaseUp_spec hc with rfl | ⟨b, rfl, -⟩
            · exact .inl rfl
            · exact .inr (.inl ⟨hlt, b, .single hon, rfl⟩)
      · exact .inr (.inr ⟨g, .refl, hon, hd, rfl⟩)

/-! ## One turn of the classifier -/

/-- A name that is whited out and has not been made again. -/
def Gone (w : World) (m : Mount) (g : Str) : Prop :=
  m.upper ≠ [] ∧ probeLink w.host (m.up g) = .absent ∧ w.isWhiteout g

instance (w : World) (m : Mount) (g : Str) : Decidable (Gone w m g) :=
  inferInstanceAs (Decidable (_ ∧ _))

/-- A turn that does not write: the chase, or the entry that shows. -/
theorem classifyStep_read (hd : deepest w.mounts abs = some m) (hm : m.producer = none)
    (hr : forWrite = false ∨ m.upper = []) : classifyStep w depth forWrite follow wi abs =
      (if Gone w m abs then .done (.missing .enoent)
        else if follow then descend w.host w.mounts m abs depth maxHops
        else .done (.host (visiblePath w.host m abs)), w) := by
  unfold classifyStep
  rw [hd]
  by_cases hu : m.upper = []
  · cases follow <;> simp [hm, hu, Gone, descend, visiblePath]
  · obtain rfl := hr.resolve_right hu
    simp only [hm, ne_eq, hu, not_false_eq_true, if_true, Bool.false_eq_true, if_false,
      classifyRead, Gone, descend, visiblePath, true_and]
    cases hpr : probeLink w.host (m.up abs) <;> simp

/-- The producer of the mount of `g` redirects `g` to `hp`. -/
def RedirectAt (ms : List Mount) (g hp : Str) : Prop :=
  ∃ m prod vf, deepest ms g = some m ∧ m.producer = some prod ∧ prod g = .ok vf ∧
    vf.redirectHost = hp

/-- All that a turn about `abs` can come to. -/
inductive StepRun (w : World) (depth : Nat) (forWrite follow : Bool) (wi : WriteIntent)
    (abs : Str) : Chase → World → Prop
  | missing {e : Errno} : StepRun w depth forWrite follow wi abs (.done (.missing e)) w
  | redirect {hp : Str} (hr : RedirectAt w.mounts abs hp) :
    StepRun w depth forWrite follow wi abs (.done (.host hp)) w
  | virtual : StepRun w depth forWrite follow wi abs
      (.done { realm := .virtualFile, virtualPath := abs }) w
  | written {m : Mount} (hw : forWrite) (hd : deepest w.mounts abs = some m)
    (hm : m.producer = none) (hu : m.upper ≠ []) : StepRun w depth forWrite follow wi abs
      (.done (classifyWrite w m wi abs).1) (classifyWrite w m wi abs).2
  | shown {m : Mount} {g : Str} (hr : forWrite = false ∨ m.upper = [])
    (hlead : Relation.ReflTransGen (LeadsOn w.host w.mounts) abs g)
    (hstay : follow = false → g = abs)
    (hrest : follow → onward w.host w.mounts g = none) (hd : deepest w.mounts g = some m)
    (hm : m.producer = none) :
    StepRun w depth forWrite follow wi abs (.done (.host (visiblePath w.host m g))) w
  | again {b : Str} (hlt : depth < maxCross) (hf : follow)
    (hlead : Relation.TransGen (LeadsOn w.host w.mounts) abs b) :
    StepRun w depth forWrite follow wi abs (.reclassify b) w

theorem classifyStep_run (w : World) (depth : Nat) (forWrite follow : Bool) (wi : WriteIntent)
    (abs : Str) :
    StepRun w depth forWrite follow wi abs (classifyStep w depth forWrite follow wi abs).1
      (classifyStep w depth forWrite follow wi abs).2 := by
  cases hd : deepest w.mounts abs with
  | none =>
    simp only [classifyStep, hd]
    exact .missing
  | some m =>
    cases hm : m.producer with
    | some prod =>
      simp only [classifyStep, hd, hm]
      cases hvf : prod abs with
      | error e => exact .missing
      | ok vf =>
        dsimp only
        split_ifs
        · exact .redirect ⟨m, prod, vf, hd, hm, hvf, rfl⟩
        · exact .virtual
    | none =>
      by_cases hr : forWrite = false ∨ m.upper = []
      · rw [classifyStep_read hd hm hr]
        split_ifs with _ hf
        · exact .missing
        · rcases descend_run hd hm depth maxHops with
            he | ⟨hlt, b, hb, he⟩ | ⟨g, hg, hrest, hd', he⟩ <;> rw [he]
          · exact .missing
          · exact .again hlt hf hb
          · exact .shown hr hg (fun h => by simp [hf] at h) (fun _ => hrest) hd' hm
        · exact .shown hr .refl (fun _ => rfl) (fun h => absurd h hf) hd hm
      · obtain ⟨hw, hu⟩ := not_or.1 hr
        have hw : forWrite = true := by simpa using hw
        simp only [classifyStep, hd, hm, ne_eq, hu, not_false_eq_true, hw, if_true]
        exact .written rfl hd hm hu

theorem classifyStep_reclassify
    (hs : classifyStep w depth forWrite follow wi abs = (.reclassify b, w')) :
    depth < maxCross ∧ follow ∧ Relation.TransGen (LeadsOn w.host w.mounts) abs b ∧ w' = w := by
  have hrun := classifyStep_run w depth forWrite follow wi abs
  rw [hs] at hrun
  cases hrun with
  | again hlt hf hlead => exact ⟨hlt, hf, hlead, rfl⟩

theorem LeadsOn.normal_of_led (hl : Relation.TransGen (LeadsOn h ms) g b) : Normal b := by
  cases hl with
  | single ho => exact ho.normal
  | tail _ ho => exact ho.normal

/-- **The last turn.** Either the classifier gives up, or its answer is that of one turn, about the
path itself or about one that it was led to by links. -/
theorem classifyImpl_last (forWrite : Bool) (wi : WriteIntent) (budget : Nat) (follow : Bool)
    (abs : Str) (w : World) :
    classifyImpl forWrite wi budget follow abs w = (.missing .eloop, w) ∨
      ∃ g d, (g = abs ∨ follow ∧ Relation.TransGen (LeadsOn w.host w.mounts) abs g) ∧
        StepRun w d forWrite follow wi g (.done (classifyImpl forWrite wi budget follow abs w).1)
          (classifyImpl forWrite wi budget follow abs w).2 := by
  induction budget generalizing follow abs with
  | zero =>
    have hrun := classifyStep_run w (maxCross - 0) forWrite follow wi abs
    rw [classifyImpl]
    rcases hs : classifyStep w (maxCross - 0) forWrite follow wi abs with ⟨pc | b, w'⟩
    · rw [hs] at hrun
      exact .inr ⟨abs, _, .inl rfl, hrun⟩
    · exact absurd (classifyStep_reclassify hs).1 (by omega)
  | succ budget ih =>
    have hrun := classifyStep_run w (maxCross - (budget + 1)) forWrite follow wi abs
    rw [classifyImpl]
    rcases hs : classifyStep w (maxCross - (budget + 1)) forWrite follow wi abs with ⟨pc | b, w'⟩
    · rw [hs] at hrun
      exact .inr ⟨abs, _, .inl rfl, hrun⟩
    · obtain ⟨-, rfl, hlead, rfl⟩ := classifyStep_reclassify hs
      rcases ih true b with hl | ⟨g, d, hg, hl⟩
      · exact .inl hl
      · refine .inr ⟨g, d, .inr ⟨rfl, ?_⟩, hl⟩
        rcases hg with rfl | ⟨-, hg⟩
        · exact hlead
        · exact hlead.trans hg

theorem classifyWrite_hostBacked (hp : (classifyWrite w m wi abs).1.hostPath ≠ []) :
    (classifyWrite w m wi abs).1.realm = .hostBacked := by
  unfold classifyWrite at hp ⊢
  rcases wi with _ | _ | _
  · rfl
  · rfl
  · dsimp only at hp ⊢
    split_ifs at hp ⊢
    · rfl
    · exact absurd rfl hp
    · exact absurd rfl hp

theorem StepRun.hostBacked (hs : StepRun w depth forWrite follow wi abs (.done pc) w')
    (hp : pc.hostPath ≠ []) : pc.realm = .hostBacked := by
  cases hs with
  | missing => exact absurd rfl hp
  | virtual => exact absurd rfl hp
  | redirect | shown => rfl
  | written => exact classifyWrite_hostBacked hp

theorem classify_hostBacked (hp : (classify abs forWrite follow wi w).1.hostPath ≠ []) :
    (classify abs forWrite follow wi w).1.realm = .hostBacked := by
  unfold classify classifyName resolveAlias at hp ⊢
  simp only at hp ⊢
  split_ifs at hp ⊢ with hc
  · split
    · exact hc.1
    · exact hc.1
  · rcases classifyImpl_last forWrite wi maxCross follow abs w with hl | ⟨_, _, _, hl⟩
    · rw [hl] at hp
      exact absurd rfl hp
    · exact hl.hostBacked hp

end Turn

end Linuxity.Kernel

import Linuxity.Kernel.Absolutize
import Linuxity.Kernel.Chase
import Linuxity.Kernel.LastTurn
import Linuxity.Logic.Run

/-!
# Kernel.Ends — symlink resolution comes to an end (`kernel/file_namespace.hpp`)

The functions of the source, taken turn by turn with the counters they really have.  Nothing here
bounds the number of turns: that every resolution ends is what is proved, and that its answer is the
one `classifyImpl` and `absolutize` compute.
-/

namespace Linuxity.Kernel

open Posix Wire Logic

/-! ## Classification, turn by turn -/

inductive Resolving where
  | impl (abs : Str) (follow : Bool) (depth : Nat)
  | follow (m : Mount) (host pre : Str) (hops depth : Nat)
  /-- The loop of `chase_prefix`, called by `follow_from` at `host`. -/
  | chase (m : Mount) (host head tail : Str) (depth : Nat)

section Turn

variable (w : World) (forWrite : Bool) (wi : WriteIntent)

abbrev Turned := Resolving ⊕ (PathClass × World)

def implTurn (abs : Str) (follow : Bool) (depth : Nat) : Turned :=
  match deepest w.mounts abs with
  | none => .inr (.missing .enoent, w)
  | some m =>
    match m.producer with
    | some prod =>
      match prod abs with
      | .error e => .inr (.missing e, w)
      | .ok vf =>
        if vf.redirectHost ≠ [] then .inr (.host vf.redirectHost, w)
        else .inr ({ realm := .virtualFile, virtualPath := abs }, w)
    | none =>
      if m.upper ≠ [] then
        if forWrite then .inr (classifyWrite w m wi abs)
        else
          match probeLink w.host (m.up abs) with
          | .absent =>
            if w.isWhiteout abs then .inr (.missing .enoent, w)
            else if follow then .inl (.follow m (m.lo abs) [] 0 depth)
            else .inr (.host (m.lo abs), w)
          | .symlink target =>
            if follow then .inl (.follow m (m.up abs) target 0 depth)
            else .inr (.host (m.up abs), w)
          | .present | .notdir => .inr (.host (m.up abs), w)
      else if follow then .inl (.follow m (m.lo abs) [] 0 depth)
      else .inr (.host (m.lo abs), w)

def followTurn (m : Mount) (host pre : Str) (hops depth : Nat) : Turned :=
  if 40 ≤ hops then .inr (.missing .eloop, w)
  else
    match if pre ≠ [] then .ok pre else w.host.readlink host with
    | .error e =>
      if e = .enoent ∨ e = .eloop then
        -- the check at the head of `chase_prefix`
        if 39 ≤ hops ∨ 8 ≤ depth then .inr (.missing .eloop, w)
        else .inl (.chase m host host [] depth)
      else .inr (.host host, w)
    | .ok target =>
      let guestAbs := linkTarget m host target
      if (deepest w.mounts guestAbs).map (·.pre) ≠ some m.pre then
        if 8 ≤ depth then .inr (.missing .eloop, w) else .inl (.impl guestAbs true (depth + 1))
      else if m.upper = [] then .inl (.follow m (m.lo guestAbs) [] (hops + 1) depth)
      else
        match probeLink w.host (m.up guestAbs) with
        | .symlink next => .inl (.follow m (m.up guestAbs) next (hops + 1) depth)
        | .present | .notdir => .inr (.host (m.up guestAbs), w)
        | .absent => .inl (.follow m (m.lo guestAbs) [] (hops + 1) depth)

/-- Without a link among the components, `follow_from` answers with its own path. -/
def chaseTurn (m : Mount) (host head tail : Str) (depth : Nat) : Turned :=
  if dirOf head = [] then .inr (.host host, w)
  else
    let tail := '/' :: leafOf head ++ tail
    let head := dirOf head
    match w.host.readlink head with
    | .error .enoent => .inl (.chase m host head tail depth)
    | .error .eloop => .inr (.missing .eloop, w)
    | .error _ => .inr (.host host, w)
    | .ok target =>
      let next := if isAbs target then target else hostToGuest m (upToSlash head ++ target)
      .inl (.impl (normalizePath (next ++ tail)) true (depth + 1))

def resolvingTurn : Resolving → Turned
  | .impl abs follow depth => implTurn w forWrite wi abs follow depth
  | .follow m host pre hops depth => followTurn w m host pre hops depth
  | .chase m host head tail depth => chaseTurn w m host head tail depth

def ClassifiesTo (c : Resolving) (r : PathClass × World) : Prop :=
  Halts (resolvingTurn w forWrite wi) c r

end Turn

/-! ## It ends -/

section Ends

variable {w : World} {forWrite : Bool} {wi : WriteIntent} {r : PathClass × World}

/-- What is left to do after a turn of `classify_impl` or one of its chases. -/
def After (w : World) (forWrite : Bool) (wi : WriteIntent) (depth : Nat) (r : PathClass × World) :
    Chase × World → Prop
  | (.done pc, w') => r = (pc, w')
  | (.reclassify next, _) => ClassifiesTo w forWrite wi (.impl next true (depth + 1)) r

theorem length_dirOf_lt {s : Str} (hs : dirOf s ≠ []) : (dirOf s).length < s.length := by
  have hup : (upToSlash s).length ≤ s.length := by
    rw [upToSlash, List.length_reverse]
    exact (List.dropWhile_suffix _).length_le.trans_eq List.length_reverse
  have hpos := List.length_pos_iff.2 hs
  rw [dirOf, List.length_dropLast] at *
  omega

variable {depth : Nat} {m : Mount}

/-- The length of the path is turns enough for the prefixes. -/
theorem classifiesTo_chase {host head tail : Str} {fuel : Nat} (hfuel : head.length ≤ fuel)
    (h : After w forWrite wi depth r ((chaseUp w.host m fuel head tail).getD (.done (.host host)),
        w)) : ClassifiesTo w forWrite wi (.chase m host head tail depth) r := by
  have hend : ∀ {t tail : Str}, dirOf t = [] → r = (.host host, w) →
      ClassifiesTo w forWrite wi (.chase m host t tail depth) r := by
    intro t tail ht hr
    refine .stop ?_
    rw [resolvingTurn, chaseTurn, if_pos ht, hr]
  induction fuel generalizing head tail with
  | zero =>
    rw [List.length_eq_zero_iff.1 (Nat.le_zero.1 hfuel)]
    exact hend rfl h
  | succ fuel ih =>
    rw [chaseUp] at h
    by_cases hd : dirOf head = []
    · rw [if_pos hd] at h
      exact hend hd h
    rw [if_neg hd] at h
    have hturn : resolvingTurn w forWrite wi (.chase m host head tail depth) =
        chaseTurn w m host head tail depth := rfl
    rw [chaseTurn, if_neg hd] at hturn
    dsimp only at h hturn
    have hlen : (dirOf head).length ≤ fuel := by
      have := length_dirOf_lt hd
      omega
    cases hr : w.host.readlink (dirOf head) with
    | ok target =>
      rw [hr] at h hturn
      exact .turn hturn h
    | error e =>
      rw [hr] at h hturn
      cases e with
      | enoent => exact .turn hturn (ih hlen h)
      | _ => exact .stop (hturn.trans (congrArg Sum.inr h.symm))

/-- The loop of `follow_from`, by induction on the hops it has left. -/
theorem classifiesTo_follow {host pre : Str} {hops k : Nat} (hk : hops + k = maxHops)
    (h : After w forWrite wi depth r (followFrom w.host w.mounts m depth k host pre, w)) :
    ClassifiesTo w forWrite wi (.follow m host pre hops depth) r := by
  have hturn : resolvingTurn w forWrite wi (.follow m host pre hops depth) =
      followTurn w m host pre hops depth := rfl
  rw [followTurn] at hturn
  induction k generalizing host pre hops with
  | zero =>
    rw [if_pos (by rw [maxHops] at hk; omega)] at hturn
    exact .stop (hturn.trans (congrArg Sum.inr h.symm))
  | succ k ih =>
    rw [if_neg (by rw [maxHops] at hk; omega)] at hturn
    rw [followFrom] at h
    cases ht : (if pre ≠ [] then .ok pre else w.host.readlink host : Except Errno Str) with
    | error e =>
      rw [ht] at h hturn
      dsimp only at h hturn
      by_cases he : e = .enoent ∨ e = .eloop
      · rw [if_pos he] at h hturn
        rw [chasePrefix, show maxHops - (k + 1) = hops by omega] at h
        by_cases hlim : 39 ≤ hops ∨ 8 ≤ depth
        · rw [if_pos (by exact hlim)] at h
          rw [if_pos hlim] at hturn
          exact .stop (hturn.trans (congrArg Sum.inr h.symm))
        · rw [if_neg (by exact hlim)] at h
          rw [if_neg hlim] at hturn
          exact .turn hturn (classifiesTo_chase le_rfl h)
      · rw [if_neg he] at h hturn
        exact .stop (hturn.trans (congrArg Sum.inr h.symm))
    | ok target =>
      rw [ht] at h hturn
      dsimp only at h hturn
      have hnext : hops + 1 + k = maxHops := by omega
      by_cases hcross : (deepest w.mounts (linkTarget m host target)).map (·.pre) ≠ some m.pre
      · rw [if_pos hcross] at h hturn
        by_cases hdepth : 8 ≤ depth
        · rw [if_pos (by exact hdepth)] at h
          rw [if_pos hdepth] at hturn
          exact .stop (hturn.trans (congrArg Sum.inr h.symm))
        · rw [if_neg (by exact hdepth)] at h
          rw [if_neg hdepth] at hturn
          exact .turn hturn h
      rw [if_neg hcross] at h hturn
      by_cases hu : m.upper = []
      · rw [if_pos hu] at h hturn
        exact .turn hturn (ih hnext h rfl)
      rw [if_neg hu] at h hturn
      cases hp : probeLink w.host (m.up (linkTarget m host target)) with
      | symlink next =>
        rw [hp] at h hturn
        exact .turn hturn (ih hnext h rfl)
      | absent =>
        rw [hp] at h hturn
        exact .turn hturn (ih hnext h rfl)
      | present =>
        rw [hp] at h hturn
        exact .stop (hturn.trans (congrArg Sum.inr h.symm))
      | notdir =>
        rw [hp] at h hturn
        exact .stop (hturn.trans (congrArg Sum.inr h.symm))

theorem classifiesTo_step {abs : Str} {follow : Bool}
    (h : After w forWrite wi depth r (classifyStep w depth forWrite follow wi abs)) :
    ClassifiesTo w forWrite wi (.impl abs follow depth) r := by
  have hturn : resolvingTurn w forWrite wi (.impl abs follow depth) =
      implTurn w forWrite wi abs follow depth := rfl
  have hstop : ∀ {o : PathClass × World}, implTurn w forWrite wi abs follow depth = .inr o → r = o →
      ClassifiesTo w forWrite wi (.impl abs follow depth) r := by
    rintro o ho rfl
    exact .stop (hturn.trans ho)
  have hchase : ∀ {m : Mount} {host pre : Str},
      implTurn w forWrite wi abs follow depth = .inl (.follow m host pre 0 depth) →
      After w forWrite wi depth r (followFrom w.host w.mounts m depth maxHops host pre, w) →
      ClassifiesTo w forWrite wi (.impl abs follow depth) r := by
    intro m host pre ho hr
    exact .turn (hturn.trans ho) (classifiesTo_follow (Nat.zero_add _) hr)
  rw [implTurn] at hstop hchase
  rw [classifyStep] at h
  cases hd : deepest w.mounts abs with
  | none =>
    rw [hd] at h hstop
    exact hstop rfl h
  | some m =>
    rw [hd] at h hstop hchase
    dsimp only at h hstop hchase
    cases hprod : m.producer with
    | some prod =>
      rw [hprod] at h hstop
      dsimp only at h hstop
      cases hvf : prod abs with
      | error e =>
        rw [hvf] at h hstop
        exact hstop rfl h
      | ok vf =>
        rw [hvf] at h hstop
        dsimp only at h hstop
        split_ifs at h hstop
        · exact hstop rfl h
        · exact hstop rfl h
    | none =>
      rw [hprod] at h hstop hchase
      by_cases hu : m.upper ≠ []
      · rw [if_pos hu] at h hstop hchase
        cases forWrite with
        | true => exact hstop rfl h
        | false =>
          rw [if_neg Bool.false_ne_true] at h hstop hchase
          rw [classifyRead] at h
          cases hpr : probeLink w.host (m.up abs) with
          | absent =>
            rw [hpr] at h hstop hchase
            dsimp only at h hstop hchase
            split_ifs at h hstop hchase
            · exact hstop rfl h
            · exact hchase rfl h
            · exact hstop rfl h
          | symlink target =>
            rw [hpr] at h hstop hchase
            dsimp only at h hstop hchase
            split_ifs at h hstop hchase
            · exact hchase rfl h
            · exact hstop rfl h
          | present =>
            rw [hpr] at h hstop
            exact hstop rfl h
          | notdir =>
            rw [hpr] at h hstop
            exact hstop rfl h
      · rw [if_neg hu] at h hstop hchase
        split_ifs at h hstop hchase
        · exact hchase rfl h
        · exact hstop rfl h

/-- A call of `classify_impl` with `budget` crossings left ends with the model's answer. -/
theorem classifiesTo_impl {budget : Nat} (hb : budget ≤ maxCross) (follow : Bool) (abs : Str) :
    ClassifiesTo w forWrite wi (.impl abs follow (maxCross - budget))
      (classifyImpl forWrite wi budget follow abs w) := by
  induction budget generalizing follow abs with
  | zero =>
    refine classifiesTo_step ?_
    rw [classifyImpl]
    rcases hs : classifyStep w (maxCross - 0) forWrite follow wi abs with ⟨pc | next, w'⟩
    · exact rfl
    · exact absurd (classifyStep_reclassify hs).1 (by omega)
  | succ budget ih =>
    refine classifiesTo_step ?_
    rw [classifyImpl]
    rcases hs : classifyStep w (maxCross - (budget + 1)) forWrite follow wi abs with ⟨pc | next, w'⟩
    · exact rfl
    · obtain ⟨_, _, _, rfl⟩ := classifyStep_reclassify hs
      have := ih (by omega) true next
      rwa [show maxCross - budget = maxCross - (budget + 1) + 1 by omega] at this

end Ends

/-! ## The paths of `..` -/

/-- A component that needs no look at the tree: the next `cur`. -/
def plainStep (cur c : Str) : Option Str :=
  if c = dot then some cur
  else if c ≠ dotdot then some (cur ++ '/' :: c)
  else if cur = [] then some cur
  else none

/-- The last component cut off, with `phys` the answer of `physical_if_symlink`. -/
def cutLast (cur phys : Str) : Option Str :=
  let cur := if phys = [] then cur else if phys = slash then [] else phys
  if cur = [] then none else some (dirOf cur)

def linkNext (w : World) (abs : Str) (depth : Nat) : Option Str :=
  if 40 < depth then none
  else
    let lc := (classify abs false false .copyLeaf w).1
    if lc.realm ≠ .hostBacked ∨ lc.hostPath = [] then none
    else
      match w.host.readlink lc.hostPath with
      | .error _ => none
      | .ok t => if t = [] then none else some (if isAbs t then t else dirOf abs ++ '/' :: t)

inductive PathCall where
  | whole (p : Str) (depth : Nat)
  | dots (cur : Str) (cs : List Str) (depth : Nat)
  | phys (abs : Str) (depth : Nat)

/-- The call returns, with `none` for the exception. -/
inductive Returns (w : World) : PathCall → Option Str → Prop
  | normal {p : Str} {d : Nat} : ¬ dotdot <:+: p → Returns w (.whole p d) (some (normalizePath p))
  | walk {p : Str} {d : Nat} {o : Option Str} : dotdot <:+: p → Returns w (.dots [] (comps p) d) o →
      Returns w (.whole p d) (o.map fun cur => if cur = [] then slash else cur)
  | finish {cur : Str} {d : Nat} : Returns w (.dots cur [] d) (some cur)
  | plain {cur c cur' : Str} {cs : List Str} {d : Nat} {o : Option Str} :
      plainStep cur c = some cur' → Returns w (.dots cur' cs d) o →
      Returns w (.dots cur (c :: cs) d) o
  | up {cur c cur' : Str} {cs : List Str} {d : Nat} {phys o : Option Str} : plainStep cur c = none →
      Returns w (.phys cur d) phys → phys.bind (cutLast cur) = some cur' →
      Returns w (.dots cur' cs d) o → Returns w (.dots cur (c :: cs) d) o
  | thrown {cur c : Str} {cs : List Str} {d : Nat} {phys : Option Str} : plainStep cur c = none →
      Returns w (.phys cur d) phys → phys.bind (cutLast cur) = none →
      Returns w (.dots cur (c :: cs) d) none
  | notLink {abs : Str} {d : Nat} : linkNext w abs d = none → Returns w (.phys abs d) (some [])
  | link {abs next n : Str} {d : Nat} {deeper : Option Str} : linkNext w abs d = some next →
      Returns w (.whole next (d + 1)) (some n) → Returns w (.phys n (d + 1)) deeper →
      Returns w (.phys abs d) (deeper.map fun deeper => if deeper = [] then n else deeper)
  | linkThrown {abs next : Str} {d : Nat} : linkNext w abs d = some next →
      Returns w (.whole next (d + 1)) none → Returns w (.phys abs d) none

section Dots

variable {w : World}

theorem Returns.deterministic {c : PathCall} {o o' : Option Str} (h : Returns w c o)
    (h' : Returns w c o') : o = o' := by
  induction h generalizing o' with
  | normal hp =>
    cases h' with
    | normal => rfl
    | walk hp' => exact absurd hp' hp
  | walk hp _ ih =>
    cases h' with
    | normal hp' => exact absurd hp hp'
    | walk _ hrest => rw [ih hrest]
  | finish =>
    cases h'
    rfl
  | plain hs _ ih =>
    cases h' with
    | plain hs' hrest =>
      cases hs.symm.trans hs'
      exact ih hrest
    | up hs' => cases hs.symm.trans hs'
    | thrown hs' => cases hs.symm.trans hs'
  | up hs _ hcut _ ihp ih =>
    cases h' with
    | plain hs' => cases hs.symm.trans hs'
    | up _ hp hcut' hrest =>
      cases ihp hp
      cases hcut.symm.trans hcut'
      exact ih hrest
    | thrown _ hp hcut' =>
      cases ihp hp
      cases hcut.symm.trans hcut'
  | thrown hs _ hcut ihp =>
    cases h' with
    | plain hs' => cases hs.symm.trans hs'
    | up _ hp hcut' =>
      cases ihp hp
      cases hcut.symm.trans hcut'
    | thrown => rfl
  | notLink hn =>
    cases h' with
    | notLink => rfl
    | link hn' => cases hn.symm.trans hn'
    | linkThrown hn' => cases hn.symm.trans hn'
  | link hn _ _ ihw ihd =>
    cases h' with
    | notLink hn' => cases hn.symm.trans hn'
    | link hn' hw hd =>
      cases hn.symm.trans hn'
      cases ihw hw
      rw [ihd hd]
    | linkThrown hn' hw =>
      cases hn.symm.trans hn'
      cases ihw hw
  | linkThrown hn _ ihw =>
    cases h' with
    | notLink hn' => cases hn.symm.trans hn'
    | link hn' hw =>
      cases hn.symm.trans hn'
      cases ihw hw
    | linkThrown => rfl

theorem dotdotStep_eq (phys : Str → Option Str) (cur c : Str) :
    dotdotStep phys cur c = match plainStep cur c with
      | some cur' => some cur'
      | none => (phys cur).bind (cutLast cur) := by
  unfold dotdotStep plainStep
  split_ifs
  · rfl
  · rfl
  · rfl
  · rfl

variable {phys : Str → Option Str} {d : Nat}

theorem returns_dots (hphys : ∀ abs, Returns w (.phys abs d) (phys abs)) (cs : List Str)
    (cur : Str) :
    Returns w (.dots cur cs d) (cs.foldlM (dotdotStep phys) cur) := by
  induction cs generalizing cur with
  | nil => exact .finish
  | cons c cs ih =>
    rw [List.foldlM_cons, dotdotStep_eq]
    cases hs : plainStep cur c with
    | some cur' => exact .plain hs (ih cur')
    | none =>
      cases hcut : (phys cur).bind (cutLast cur) with
      | none => exact .thrown hs (hphys cur) hcut
      | some cur' => exact .up hs (hphys cur) hcut (ih cur')

theorem returns_whole (hphys : ∀ abs, Returns w (.phys abs d) (phys abs)) (p : Str) :
    Returns w (.whole p d) (resolveDotdotWith phys p) := by
  rw [resolveDotdotWith]
  split_ifs with hp
  · have := Returns.walk hp (returns_dots hphys (comps p) [])
    rwa [Option.map_eq_bind] at this
  · exact .normal hp

theorem physicalIfSymlink_eq {fuel depth : Nat} (hfuel : fuel + 1 + depth = 41) (abs : Str) :
    physicalIfSymlink w (fuel + 1) abs = match linkNext w abs depth with
      | none => some []
      | some next => (resolveDotdotWith (physicalIfSymlink w fuel) next).bind fun n =>
        (physicalIfSymlink w fuel n).map fun deeper => if deeper = [] then n else deeper := by
  have hdepth : ¬ 40 < depth := by omega
  rw [physicalIfSymlink, linkNext, if_neg hdepth]
  dsimp only
  split_ifs with hreal
  · rfl
  · cases w.host.readlink (classify abs false false .copyLeaf w).1.hostPath with
    | error e => rfl
    | ok t =>
      dsimp only
      by_cases ht : t = []
      · rw [if_pos ht, if_pos ht]
      · rw [if_neg ht, if_neg ht]
        simp only [Option.map_eq_bind]
        rfl

/-- The depth counts up to 41, whatever the calls in between: induction on what is left of it. -/
theorem returns_phys {fuel depth : Nat} (hfuel : fuel + depth = 41) (abs : Str) :
    Returns w (.phys abs depth) (physicalIfSymlink w fuel abs) := by
  induction fuel generalizing depth abs with
  | zero =>
    refine .notLink ?_
    rw [linkNext, if_pos (by omega)]
  | succ fuel ih =>
    have hphys : ∀ abs, Returns w (.phys abs (depth + 1)) (physicalIfSymlink w fuel abs) :=
      fun abs => ih (by omega) abs
    rw [physicalIfSymlink_eq hfuel]
    cases hn : linkNext w abs depth with
    | none => exact .notLink hn
    | some next =>
      have hwhole := returns_whole hphys next
      dsimp only
      cases hr : resolveDotdotWith (physicalIfSymlink w fuel) next with
      | none => exact .linkThrown hn (hr ▸ hwhole)
      | some n => exact .link hn (hr ▸ hwhole) (hphys n)

def joinedPath (w : World) (path dirPath : Str) : Str :=
  if isAbs path then path
  else
    let base := if dirPath = [] then w.cwd else dirPath
    let base := if base = [] then slash else base
    let base := if base.getLast? = some '/' then base else base ++ slash
    base ++ path

theorem absolutize_eq (w : World) (path dirPath : Str) :
    absolutize w path dirPath = resolveDotdot w (joinedPath w path dirPath) := by
  unfold absolutize joinedPath
  by_cases hp : isAbs path
  · rw [if_pos hp, if_pos hp]
  · rw [if_neg hp, if_neg hp]

end Dots

/-! ## Cyclic names -/

section Cyclic

variable {w : World} {wi : WriteIntent} {g p : Str}

/-- The links from `p` lead into a cycle. -/
def Cyclic (w : World) (p : Str) : Prop := ∃ g, Visited w p g ∧ Relation.TransGen (Hop w) g g

/-- Every relative link that the code comes to within its limits is cut at the layer it shows from,
and that layer is not the host root mounted elsewhere. -/
def RightlyCut (w : World) (s : Spot) : Prop :=
  ∀ e, Reaches w s e → e.hops < maxHops → ∀ t m, viewLink w e.name = some t →
    deepest w.mounts e.name = some m → isAbs t = false →
    linkBase m (visiblePath w.host m e.name) = visibleLayer w.host m e.name ∧
      (visibleLayer w.host m e.name = slash → comps m.pre = [])

theorem Cyclic.hop (hc : Cyclic w p) : ∃ t, viewLink w p = some t ∧ Cyclic w (refTarget p t) := by
  obtain ⟨g, hv, hg⟩ := hc
  obtain rfl | ⟨c, ⟨t, ht, rfl⟩, hrest⟩ := hv.cases_head
  · obtain ⟨c, ⟨t, ht, rfl⟩, hrest⟩ := Relation.TransGen.head'_iff.1 hg
    exact ⟨t, ht, p, hrest, hg⟩
  · exact ⟨t, ht, g, hrest, hg⟩

variable {t : Str} {m : Mount}

theorem RightlyCut.next {s s' : Spot} (hcut : RightlyCut w s) (hn : s.Next w s') :
    RightlyCut w s' :=
  fun e he => hcut e (.head hn he)

theorem RightlyCut.linkTarget_eq {x k : Nat} (hcut : RightlyCut w ⟨x, k, g⟩) (hk : k < maxHops)
    (hg : Normal g) (hd : deepest w.mounts g = some m) (hp : m.producer = none)
    (ht : viewLink w g = some t) : linkTarget m (visiblePath w.host m g) t = refTarget g t := by
  have := hcut _ .refl hk t m ht hd
  rw [visiblePath_eq] at this ⊢
  exact Kernel.linkTarget_eq hg (deepest_mem hd).2 (visibleLayer_normal hp) this

/-- The chase at a cyclic name uses up its hops or goes on to a cyclic name of another mount: by
induction on the hops that are left. -/
theorem descend_cyclic {x k j : Nat} (hc : Cyclic w g) (hcut : RightlyCut w ⟨x, k, g⟩)
    (hg : Normal g) (hd : deepest w.mounts g = some m) (hp : m.producer = none)
    (hj : k + j = maxHops) :
    descend w.host w.mounts m g x j = .done (.missing .eloop) ∨
      ∃ g', Cyclic w g' ∧ RightlyCut w ⟨x + 1, 0, g'⟩ ∧ Normal g' ∧
      descend w.host w.mounts m g x j = .reclassify g' := by
  induction j generalizing g k with
  | zero =>
    obtain ⟨t, ht, _⟩ := hc.hop
    have hs := shownLink_of_view hd hp ht
    rw [descend_zero, if_neg]
    · exact .inl rfl
    · rintro ⟨hu, hpr | hpr⟩ <;> simp [shownLink, hu, hpr] at hs
  | succ j ih =>
    obtain ⟨t, ht, hnext⟩ := hc.hop
    have hk : k < maxHops := by omega
    have hhop : Hop w g (refTarget g t) := ⟨t, ht, rfl⟩
    rw [descend_link (shownLink_of_view hd hp ht), hcut.linkTarget_eq hk hg hd hp ht]
    split_ifs with hcross hdepth
    · exact .inl rfl
    · refine .inr ⟨_, hnext, hcut.next (.across hhop ?_ hk (not_le.1 hdepth)), refTarget_normal g t,
        rfl⟩
      intro hsame
      rw [hsame, hd] at hcross
      exact hcross rfl
    · have hd' := deepest_of_map_pre hd hcross
      exact ih hnext (hcut.next (.within hhop (hd'.trans hd.symm) hk)) (refTarget_normal g t) hd'
        (by omega)

theorem Cyclic.enter (hc : Cyclic w g) (wi : WriteIntent) (b : Nat) :
    ∃ m, deepest w.mounts g = some m ∧ m.producer = none ∧
      (classifyImpl false wi b true g w).1 =
        settle w wi (b - 1) (descend w.host w.mounts m g (maxCross - b) maxHops) := by
  obtain ⟨t, ht, _⟩ := hc.hop
  obtain ⟨hv, _⟩ | ⟨m, hd, hp, hgone⟩ := classifyStep_cases w wi g
  · rw [hv] at ht
    cases ht
  · refine ⟨m, hd, hp, ?_⟩
    rw [classifyImpl_settle, classifyStep_chase hd hp hgone, if_pos rfl]

theorem classifyImpl_cyclic {g : Str} {x budget : Nat} (hc : Cyclic w g)
    (hcut : RightlyCut w ⟨x, 0, g⟩) (hg : Normal g) (hb : x + budget = maxCross) :
    (classifyImpl false wi budget true g w).1 = .missing .eloop := by
  obtain ⟨m, hd, hp, hans⟩ := hc.enter wi budget
  rw [hans, show maxCross - budget = x by omega]
  obtain he | ⟨g', hc', hcut', hg', he⟩ := descend_cyclic hc hcut hg hd hp (Nat.zero_add _)
  · rw [he]
    rfl
  · rcases descend_run hd hp x maxHops with h | ⟨hlt, -⟩ | ⟨_, _, _, _, h⟩
    · cases he.symm.trans h
    · rw [he, settle]
      exact classifyImpl_cyclic hc' hcut' hg' (by omega)
    · cases he.symm.trans h
termination_by budget

theorem classify_cyclic (hc : Cyclic w p) (hcut : RightlyCut w ⟨0, 0, p⟩) (hp : Normal p) :
    classify p false true wi w = (.missing .eloop, w) := by
  have hans : (classifyImpl false wi maxCross true p w).1 = .missing .eloop :=
    classifyImpl_cyclic hc hcut hp (Nat.zero_add _)
  unfold classify classifyName
  rw [Prod.ext_iff]
  simp only [classifyImpl_read, hans, and_true]
  exact if_neg fun h => nomatch h.1

end Cyclic

/-- **Resolution ends.** Classification and `absolutize` return on every tree, with the model's
answer and no other; a following read of a cyclic name whose links are rightly cut is ELOOP. -/
theorem resolution_ends (w : World) :
    (∀ abs forWrite follow wi r, ClassifiesTo w forWrite wi (.impl abs follow 0) r ↔
        r = classifyName abs forWrite follow wi w) ∧
      (∀ path dirPath o, Returns w (.whole (joinedPath w path dirPath) 0) o ↔
        o = absolutize w path dirPath) ∧
      (∀ p wi, normalizePath p = p → RightlyCut w ⟨0, 0, p⟩ → Cyclic w p →
        classify p false true wi w = (.missing .eloop, w)) := by
  refine ⟨fun abs forWrite follow wi r => ?_, fun path dirPath o => ?_, fun p wi hp hcut hc => ?_⟩
  · have hmodel :
        ClassifiesTo w forWrite wi (.impl abs follow 0) (classifyName abs forWrite follow wi w) :=
      classifiesTo_impl le_rfl follow abs
    constructor
    · intro h
      exact h.deterministic hmodel
    · rintro rfl
      exact hmodel
  · have hmodel : Returns w (.whole (joinedPath w path dirPath) 0) (absolutize w path dirPath) := by
      rw [absolutize_eq]
      exact returns_whole (fun abs => returns_phys rfl abs) _
    constructor
    · intro h
      exact h.deterministic hmodel
    · rintro rfl
      exact hmodel
  · exact classify_cyclic hc hcut (normalizePath_eq_self_iff.mp hp)

/-! ## A link to itself in two trees -/

/-- Two lower trees `/srv/root` and `/srv/up-low`, each with a link `a` to itself, and an empty
upper directory `/srv/up`. -/
def loopHost : Host :=
  Host.ofList
    [([], ⟨0, 0o755, .dir⟩), (["srv"], ⟨1, 0o755, .dir⟩), (["srv", "up"], ⟨2, 0o755, .dir⟩),
      (["srv", "root"], ⟨3, 0o755, .dir⟩), (["srv", "root", "a"], ⟨4, 0o777, .link "a"⟩),
      (["srv", "up-low"], ⟨5, 0o755, .dir⟩), (["srv", "up-low", "a"], ⟨6, 0o777, .link "a"⟩)] 7
      (by decide)

def loopWorld (low : Bool) : World where
  host := loopHost
  mounts := [twinMount low]

theorem loop_self (low : Bool) : viewLink (loopWorld low) "/a" = some "a" := by
  cases low <;> decide +kernel

theorem loop_target : refTarget "/a" "a" = "/a" := by decide

theorem loop_cyclic (low : Bool) : Cyclic (loopWorld low) "/a" :=
  ⟨_, .refl, .single ⟨_, loop_self low, loop_target.symm⟩⟩

theorem loop_visited {low : Bool} {g : Str} (hv : Visited (loopWorld low) "/a" g) : g = "/a" := by
  induction hv with
  | refl => rfl
  | tail _ hop ih =>
    obtain ⟨t, ht, rfl⟩ := hop
    rw [ih, loop_self low] at ht
    cases ht
    rw [ih, loop_target]

theorem loop_rightlyCut : RightlyCut (loopWorld false) ⟨0, 0, "/a"⟩ := by
  rintro ⟨_, _, g⟩ he - t m - hd -
  obtain rfl : g = "/a" := loop_visited he.visited
  obtain rfl := List.mem_singleton.mp (deepest_mem hd).1
  dsimp only
  exact ⟨by decide +kernel, fun h => absurd h (by decide +kernel)⟩

/-- Below `/srv/up-low` the link to itself is answered with a host path. -/
theorem cyclic_name_resolves :
    normalizePath "/a".toList = "/a".toList ∧ Cyclic (loopWorld true) "/a".toList ∧
      (classify "/a".toList false true .copyLeaf (loopWorld true)).1 =
        .host "/srv/up-low/-low/a".toList :=
  ⟨by decide, loop_cyclic true, by decide +kernel⟩

theorem resolution_ends_loop :
    classify "/a".toList false true .copyLeaf (loopWorld false) =
      (.missing .eloop, loopWorld false) :=
  (resolution_ends (loopWorld false)).2.2 _ _ (by decide) loop_rightlyCut (loop_cyclic false)

end Linuxity.Kernel

import Linuxity.Kernel.CopyUp

/-!
# Kernel.Classify — where a guest path is served from (`kernel/file_namespace.hpp`)

`classifyImpl` picks a realm and a host path.  The mutual recursion of the source
(`classify_impl`, `follow_from`, `chase_prefix`) only ever calls back in tail position with a new
guest path, so the chase is a pure function whose result is an answer or a path to classify
again, and `classifyImpl` is a recursion on the mount crossings that are left.
-/

namespace Linuxity.Kernel

open Posix Wire

inductive Realm2 where
  | hostBacked | virtualFile | absent
  deriving DecidableEq

structure PathClass where
  realm : Realm2
  hostPath : Str := []
  error : Errno := .enoent
  virtualPath : Str := []
  whiteoutLower : Bool := false
  deriving DecidableEq

namespace PathClass

def host (p : Str) : PathClass := { realm := .hostBacked, hostPath := p }

def missing (e : Errno) : PathClass := { realm := .absent, error := e }

@[simp] theorem host_realm (p : Str) : (host p).realm = .hostBacked := (rfl)

@[simp] theorem host_hostPath (p : Str) : (host p).hostPath = p := rfl

@[simp] theorem missing_realm (e : Errno) : (missing e).realm = .absent := (rfl)

end PathClass

inductive WriteIntent where
  | copyLeaf | parentsOnly | remove
  deriving DecidableEq

/-- An answer, or a guest path that has to be classified from the start. -/
inductive Chase where
  | done (pc : PathClass)
  | reclassify (abs : Str)
  deriving DecidableEq

def maxHops : Nat := 40

def maxCross : Nat := 8

/-! ## The chase of a final link -/

variable (w : World) (m : Mount) (wi : WriteIntent) (abs : Str) (forWrite follow : Bool)

def hostToGuest (host : Str) : Str :=
  let under (base : Str) : Str :=
    let rel := host.drop base.length
    let out := (if m.pre = slash then [] else m.pre) ++
      (if rel ≠ [] ∧ rel.head? ≠ some '/' then '/' :: rel else rel)
    if out = [] then slash else out
  if m.upper ≠ [] ∧ m.upper.isPrefixOf host then under m.upper
  else if m.hostBase ≠ [] ∧ m.hostBase.isPrefixOf host then under m.hostBase
  else host

/-- The loop of `chase_prefix`: `head` shrinks by one component a turn, so the length of the path
is fuel enough. -/
def chaseUp (h : Host) (m : Mount) : Nat → Str → Str → Option Chase
  | 0, _, _ => none
  | fuel + 1, head, tail =>
    if dirOf head = [] then none
    else
      let tail := '/' :: leafOf head ++ tail
      let head := dirOf head
      match h.readlink head with
      | .error .enoent => chaseUp h m fuel head tail
      | .error .eloop => some (.done (.missing .eloop))
      | .error _ => none
      | .ok target =>
        let next := if isAbs target then target else hostToGuest m (upToSlash head ++ target)
        some (.reclassify (normalizePath (next ++ tail)))

def chasePrefix (h : Host) (m : Mount) (depth hops : Nat) (host : Str) : Option Chase :=
  if maxHops - 1 ≤ hops ∨ maxCross ≤ depth then some (.done (.missing .eloop))
  else chaseUp h m host.length host []

def linkBase (host : Str) : Str :=
  if m.upper = [] then m.hostBase else if m.upper.isPrefixOf host then m.upper else m.hostBase

def linkDir (host : Str) : Str :=
  let relhost := host.drop (linkBase m host).length
  let guestLink := if m.pre = slash then relhost else m.pre ++ relhost
  if '/' ∈ guestLink then dirOf guestLink else slash

def linkTarget (host target : Str) : Str :=
  if isAbs target then normalizePath target else normalizePath (linkDir m host ++ '/' :: target)

/-- `follow_from` with `k` hops left. `first`, when not empty, is the text of the link at `host`. -/
def followFrom (h : Host) (mounts : List Mount) (m : Mount) (depth : Nat) : Nat → Str → Str → Chase
  | 0, _, _ => .done (.missing .eloop)
  | k + 1, host, first =>
    match if first ≠ [] then .ok first else h.readlink host with
    | .error e =>
      if e = .enoent ∨ e = .eloop then
        (chasePrefix h m depth (maxHops - (k + 1)) host).getD (.done (.host host))
      else .done (.host host)
    | .ok target =>
      let guestAbs := linkTarget m host target
      if (deepest mounts guestAbs).map (·.pre) ≠ some m.pre then
        if maxCross ≤ depth then .done (.missing .eloop) else .reclassify guestAbs
      else if m.upper = [] then followFrom h mounts m depth k (m.lo guestAbs) []
      else
        match probeLink h (m.up guestAbs) with
        | .symlink next => followFrom h mounts m depth k (m.up guestAbs) next
        | .present | .notdir => .done (.host (m.up guestAbs))
        | .absent => followFrom h mounts m depth k (m.lo guestAbs) []

/-! ## Classification -/

def classifyRead (depth : Nat) (follow : Bool) (abs : Str) : Chase :=
  match probeLink w.host (m.up abs) with
  | .absent =>
    if w.isWhiteout abs then .done (.missing .enoent)
    else if follow then followFrom w.host w.mounts m depth maxHops (m.lo abs) []
    else .done (.host (m.lo abs))
  | .symlink target =>
    if follow then followFrom w.host w.mounts m depth maxHops (m.up abs) target
    else .done (.host (m.up abs))
  | .present | .notdir => .done (.host (m.up abs))

/-- The write branch of an overlay mount: never follows the final link. -/
def classifyWrite : PathClass × World :=
  let up := m.up abs
  let lo := m.lo abs
  match wi with
  | .remove =>
    if hostExists w.host up then
      ({ PathClass.host up with whiteoutLower := hostExists w.host lo }, w)
    else if w.isWhiteout abs || !hostExists w.host lo then (.missing .enoent, w)
    else ({ PathClass.missing .enoent with whiteoutLower := true }, w)
  | .parentsOnly =>
    let (w, widened) := mirrorParentsFromLower up lo w
    (.host up, (recordWidened abs widened w).clearWhiteout abs)
  | .copyLeaf =>
    let (w, widened) := copyUp up lo w
    (.host up, (recordWidened abs widened w).clearWhiteout abs)

def classifyStep (depth : Nat) (forWrite follow : Bool) (wi : WriteIntent)
    (abs : Str) : Chase × World :=
  match deepest w.mounts abs with
  | none => (.done (.missing .enoent), w)
  | some m =>
    match m.producer with
    | some prod =>
      match prod abs with
      | .error e => (.done (.missing e), w)
      | .ok vf =>
        if vf.redirectHost ≠ [] then (.done (.host vf.redirectHost), w)
        else (.done { realm := .virtualFile, virtualPath := abs }, w)
    | none =>
      if m.upper ≠ [] then
        if forWrite then
          let (pc, w) := classifyWrite w m wi abs
          (.done pc, w)
        else (classifyRead w m depth follow abs, w)
      else if follow then (followFrom w.host w.mounts m depth maxHops (m.lo abs) [], w)
      else (.done (.host (m.lo abs)), w)

/-- `classify_impl` at depth `maxCross - budget`. -/
def classifyImpl (forWrite : Bool) (wi : WriteIntent) (budget : Nat) (follow : Bool) (abs : Str)
    (w : World) : PathClass × World :=
  match classifyStep w (maxCross - budget) forWrite follow wi abs with
  | (.done pc, w) => (pc, w)
  | (.reclassify next, w) =>
    match budget with
    | 0 => (.missing .eloop, w) -- not reached: at the last depth the chase gives up by itself
    | budget + 1 => classifyImpl forWrite wi budget true next w

/-- The data of an emulated hard link lives at its backing; removal acts on the name. -/
def resolveAlias (pc : PathClass) : PathClass :=
  if pc.realm = .hostBacked ∧ wi ≠ .remove then
    match w.links.backingOf pc.hostPath with
    | none => pc
    | some b => { pc with hostPath := b }
  else pc

/-- `classify_name`: without the alias step. -/
def classifyName (wi : WriteIntent) (w : World) : PathClass × World :=
  classifyImpl forWrite wi maxCross follow abs w

def classify (wi : WriteIntent) (w : World) : PathClass × World :=
  let (pc, w) := classifyName abs forWrite follow wi w
  (resolveAlias w wi pc, w)

/-! ## What classification leaves alone -/

theorem classifyWrite_files : w.FilesOnly (classifyWrite w m wi abs).2 := by
  unfold classifyWrite
  cases wi with
  | remove => dsimp only; split_ifs <;> rfl
  | parentsOnly =>
    exact ((mirrorParents_files _ _ w).trans (recordWidened_files abs _ _)).trans
      (World.FilesOnly.clearWhiteout _ abs)
  | copyLeaf =>
    exact ((copyUp_files _ _ w).trans (recordWidened_files abs _ _)).trans
      (World.FilesOnly.clearWhiteout _ abs)

theorem classifyStep_files (depth : Nat) (forWrite follow : Bool) (wi : WriteIntent) (abs : Str) :
    w.FilesOnly (classifyStep w depth forWrite follow wi abs).2 := by
  unfold classifyStep
  split
  · rfl
  · split
    · split
      · rfl
      · split_ifs <;> rfl
    · split_ifs
      · exact classifyWrite_files w _ wi abs
      all_goals rfl

/-- What every turn keeps, the classifier keeps. -/
theorem classifyImpl_keeps {R : World → World → Prop} {forWrite : Bool} {wi : WriteIntent}
    (htrans : ∀ {a b c}, R a b → R b c → R a c)
    (hturn : ∀ w d fo abs, R w (classifyStep w d forWrite fo wi abs).2) (budget : Nat)
    (follow : Bool) (abs : Str) (w : World) :
    R w (classifyImpl forWrite wi budget follow abs w).2 := by
  have hstep := hturn w (maxCross - budget) follow abs
  rw [classifyImpl.eq_def]
  rcases hc : classifyStep w (maxCross - budget) forWrite follow wi abs with ⟨pc | next, w'⟩ <;>
    rw [hc] at hstep
  · exact hstep
  · cases budget with
    | zero => exact hstep
    | succ budget =>
      have hrest := classifyImpl_keeps (R := R) htrans hturn budget true next w'
      exact htrans hstep hrest

theorem classifyImpl_files (forWrite : Bool) (wi : WriteIntent) (budget : Nat) (follow : Bool)
    (abs : Str) (w : World) : w.FilesOnly (classifyImpl forWrite wi budget follow abs w).2 :=
  classifyImpl_keeps .trans (fun w d fo abs => classifyStep_files w d forWrite fo wi abs) budget
    follow abs w

theorem classify_files (wi : WriteIntent) (w : World) :
    w.FilesOnly (classify abs forWrite follow wi w).2 :=
  classifyImpl_files forWrite wi maxCross follow abs w

theorem classifyStep_same {forWrite : Bool} {wi : WriteIntent} (h : forWrite = false ∨ wi = .remove)
    (w : World) (depth : Nat) (follow : Bool) (abs : Str) :
    (classifyStep w depth forWrite follow wi abs).2 = w := by
  unfold classifyStep
  split
  · rfl
  · split
    · split
      · rfl
      · split_ifs <;> rfl
    · split_ifs with _ hw
      · obtain rfl := h.resolve_left (by simp [hw])
        unfold classifyWrite
        dsimp only
        split_ifs <;> rfl
      all_goals rfl

/-- A question for reading changes nothing, nor does one about a name that is to be removed. -/
theorem classifyImpl_same {forWrite : Bool} {wi : WriteIntent} (h : forWrite = false ∨ wi = .remove)
    (budget : Nat) (follow : Bool) (abs : Str) (w : World) :
    (classifyImpl forWrite wi budget follow abs w).2 = w :=
  classifyImpl_keeps (R := fun w w' => w' = w) (fun h1 h2 => h2.trans h1) (classifyStep_same h)
    budget follow abs w

theorem classifyImpl_read (budget : Nat) (follow : Bool) (abs : Str) (w : World) :
    (classifyImpl false wi budget follow abs w).2 = w :=
  classifyImpl_same (.inl rfl) budget follow abs w

theorem classify_read (follow : Bool) (wi : WriteIntent) (w : World) :
    (classify abs false follow wi w).2 = w :=
  classifyImpl_read wi maxCross follow abs w

end Linuxity.Kernel

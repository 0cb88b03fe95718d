import Linuxity.Abi.Outcome
import Linuxity.Kernel.Absolutize
import Linuxity.Kernel.Chase

/-!
# Abi.Sockaddr — AF_UNIX addresses of `bind` and `connect` (`kernel/socket_ns.hpp`)

The path inside a `sockaddr_un` is translated into the overlay, or into an abstract name where
the host has no place for a socket node.  Several exits forward the call as it is.
-/

namespace Linuxity.Abi

open Posix Wire Kernel List

def hex64 (n : Nat) : Str :=
  (List.range 16).map fun i => "0123456789abcdef".toList.getD (n >>> (60 - 4 * i) % 16) '0'

def fnv1a (p : Str) : Nat :=
  p.foldl (fun h c => ((h ^^^ (c.toNat % 256)) * 1099511628211) % 2 ^ 64) 1469598103934665603

/-- The name depends on the guest path alone, so that both peers derive the same one. -/
def abstractNameFor (guestPath : Str) (inst : Nat) : Str :=
  "linuxity/" ++ hex64 inst ++ '/' :: hex64 (fnv1a guestPath)

/-- The path begins with a mounted directory that is not the host root. -/
def isHostSidePath (mounts : List Mount) (abs : Str) : Bool :=
  let under (base : Str) : Bool :=
    decide (2 ≤ base.length) && base != slash && decide (base.length < abs.length) &&
      base.isPrefixOf abs && abs[base.length]? == some '/'
  mounts.any fun m => under m.hostBase || under m.upper

def nul : Char := Char.ofNat 0

def afUnix : Nat := 1

def sunPathMax : Nat := 108

variable (w : World) (mem : GuestMem)

/-- The path bytes of an address the supervisor would translate. -/
def sockRaw (r : Regs) : Option Str :=
  let addr := r.arg 1
  let len := r.arg 2
  if addr = 0 ∨ len < 3 then none
  else if mem.getU16 addr ≠ afUnix then none
  else
    match mem.copyIn (addr + 2) (min (len - 2) sunPathMax) with
    | none => none
    | some pb =>
      if pb = [] ∨ pb.head? = some nul then none
      else if pb.takeWhile (· != nul) = [] then none
      else some (pb.takeWhile (· != nul))

/-- Its guest path, which is `some none` where making it absolute throws. -/
def sockGuestPath (r : Regs) : Option (Option Str) :=
  (sockRaw mem r).map fun raw => if isAbs raw then some raw else absolutize w raw w.cwd

def bindPlaceholder (guestPath : Str) : World :=
  let (pc, w) := classify guestPath true false .parentsOnly w
  if pc.realm = .hostBacked ∧ pc.hostPath ≠ [] then
    let w := (w.unlink pc.hostPath).2
    match w.createExcl pc.hostPath 0o600 with
    | (.error _, w) => w
    | (.ok _, w) => w.noteSocket guestPath
  else w

def sockAbstract (addr : Nat) (guestPath : Str) (forBind : Bool) : Outcome × World :=
  let name := abstractNameFor guestPath w.instanceId
  let w := if forBind then bindPlaceholder w guestPath else w
  let bytes := nul :: name
  if sunPathMax < bytes.length then (.fwd, w)
  else (.sockRewrite (addr + 2) bytes 2 (2 + bytes.length), w)

def sockFilesystem (addr : Nat) (guestPath : Str) (forBind : Bool) : Outcome × World :=
  let (pc, w) := classify guestPath forBind false (if forBind then .parentsOnly else .copyLeaf) w
  if pc.realm = .virtualFile ∨ pc.hostPath = [] then (.fwd, w)
  else if sunPathMax < pc.hostPath.length + 1 then (.fwd, w)
  else
    let w :=
      if forBind then
        let rd := (classify guestPath false false .copyLeaf w).1
        let w := (w.unlink pc.hostPath).2
        if rd.hostPath ≠ [] ∧ rd.hostPath ≠ pc.hostPath then (w.unlink rd.hostPath).2 else w
      else w
    (.sockRewrite (addr + 2) pc.hostPath 2 (2 + pc.hostPath.length + 1), w)

def doSockaddrUn (r : Regs) (forBind : Bool) : Outcome × World :=
  match sockGuestPath w mem r with
  | none => (.fwd, w)
  | some none => (.abort, w)
  | some (some guestPath) =>
    if isHostSidePath w.mounts guestPath then (.fwd, w)
    else
      match w.socketNs with
      | .abstractNs => sockAbstract w (r.arg 1) guestPath forBind
      | .filesystem => sockFilesystem w (r.arg 1) guestPath forBind

/-! ## Confinement -/

/-- The path the host kernel takes from the address if the call is forwarded as it is: the length
is an `int` and at most that of a `sockaddr_un`, and the whole address is read.  `none` where the
kernel rejects the address or takes no path from it. -/
def kernelSunPath (r : Regs) : Option Str :=
  let len := r.arg 2 % 2 ^ 32
  if len < 3 ∨ 2 + sunPathMax < len ∨ mem.getU16 (r.arg 1) ≠ afUnix then none
  else
    match mem.copyIn (r.arg 1 + 2) (len - 2) with
    | none => none
    | some pb => if pb.head? = some nul then none else some (pb.takeWhile (· != nul))

/-- Written without `.` and `..`, the path lies in a mounted directory. -/
def InMount (ms : List Mount) (hp : Str) : Prop :=
  ∃ m ∈ hostMounts ms, ∃ b ∈ m.layers, comps b <+: comps (normalizePath hp)

/-- **Confinement** of what becomes of one `bind` or `connect`. -/
structure SockConfined (w : World) (mem : GuestMem) (r : Regs) (res : Outcome × World) : Prop where
  notRaw : res.1 = .fwd → kernelSunPath mem r = none
  produced : ∀ a s l n, res.1 = .sockRewrite a s l n →
    (w.socketNs = .abstractNs ∧ ∃ g, sockGuestPath w mem r = some (some g) ∧
      s = nul :: abstractNameFor g w.instanceId) ∨ InMount w.mounts s
  unlinks : w.Logs (fun c => c.op = .unlink → InMount w.mounts c.path) res.2

/-- The host path the namespace has for a guest path without following it, to write or to read;
empty where it has none. -/
def ownHost (forWrite : Bool) (g : Str) : Str :=
  match deepest w.mounts g with
  | none => []
  | some m =>
    match m.producer with
    | some prod => match prod g with | .ok vf => vf.redirectHost | .error _ => []
    | none =>
      if forWrite ∧ m.upper ≠ [] then m.up g
      else if m.upper ≠ [] ∧ probeLink w.host (m.up g) = Probe.absent ∧ w.isWhiteout g then []
      else visiblePath w.host m g

/-- The same with the backing of a hard link in its place. -/
def sockHost (forWrite : Bool) (g : Str) : Str :=
  if ownHost w forWrite g = [] then []
  else (w.links.backingOf (ownHost w forWrite g)).getD (ownHost w forWrite g)

/-- The state in which the parents of the node that `bind` makes are there. -/
def bindPrepared (g : Str) : World := (classify g true false .parentsOnly w).2

/-- What has to hold of the guest path `g` of an address.  In the filesystem `bind` removes the path
of its node, and the path at which the name is read beside it. -/
def SockOk (r : Regs) (forBind : Bool) (g : Str) : Prop :=
  if isHostSidePath w.mounts g then kernelSunPath mem r = none
  else
    match w.socketNs with
    | .abstractNs => forBind → sockHost w true g ≠ [] → InMount w.mounts (sockHost w true g)
    | .filesystem =>
      if sockHost w forBind g = [] ∨ sunPathMax < (sockHost w forBind g).length + 1 then
        kernelSunPath mem r = none
      else
        InMount w.mounts (sockHost w forBind g) ∧
          (forBind → sockHost (bindPrepared w g) false g ≠ [] →
            InMount w.mounts (sockHost (bindPrepared w g) false g))

/-! ## The class of a socket's path -/

section Classes

variable {w : World} {g : Str}

theorem visiblePath_ne_nil (h : Host) {m : Mount} (hm : m.producer = none) (g : Str) :
    visiblePath h m g ≠ [] := by
  unfold visiblePath
  split_ifs with hu
  · exact joinHost_ne_nil hu.1 _
  · exact joinHost_ne_nil (m.base_normal hm).ne_nil _

/-- Without following, the first step already answers, with the path of `ownHost`. -/
theorem classifyStep_own (w : World) (forWrite : Bool) (wi : WriteIntent) (hwi : wi ≠ .remove)
    (g : Str) (depth : Nat) : ∃ pc, (classifyStep w depth forWrite false wi g).1 = .done pc ∧
    pc.hostPath = ownHost w forWrite g ∧ (pc.realm = .hostBacked ↔ ownHost w forWrite g ≠ []) := by
  unfold classifyStep ownHost
  cases hd : deepest w.mounts g with
  | none => exact ⟨_, rfl, rfl, by simp⟩
  | some m =>
    dsimp only
    cases hp : m.producer with
    | some prod =>
      dsimp only
      cases hvf : prod g with
      | error e => exact ⟨_, rfl, rfl, by simp⟩
      | ok vf =>
        by_cases h0 : vf.redirectHost = []
        · exact ⟨{ realm := .virtualFile,
                   virtualPath := g }, by simp [h0], by simp [h0], by simp [h0]⟩
        · exact ⟨.host vf.redirectHost, by simp [h0], rfl, by simp [h0]⟩
    | none =>
      have hne := visiblePath_ne_nil w.host hp g
      by_cases hu : m.upper = []
      · have hvis : visiblePath w.host m g = m.lo g := visiblePath_lo (.inl hu)
        rw [hvis] at hne
        exact ⟨.host (m.lo g), by simp [hu], by simp [hu, hvis], by simp [hu, hvis, hne]⟩
      · have hup : m.up g ≠ [] := joinHost_ne_nil hu _
        cases forWrite with
        | true =>
          refine ⟨.host (m.up g), ?_, by simp [hu], by simp [hu, hup]⟩
          cases wi with
          | remove => exact absurd rfl hwi
          | parentsOnly | copyLeaf => simp [hu, classifyWrite]
        | false =>
          by_cases hpr : probeLink w.host (m.up g) = .absent
          · have hvis : visiblePath w.host m g = m.lo g := visiblePath_lo (.inr hpr)
            rw [hvis] at hne
            by_cases hw : w.isWhiteout g
            · exact ⟨.missing .enoent, by simp [hu, classifyRead, hpr, hw],
                by simp [hu, hpr, hw, PathClass.missing], by simp [hu, hpr, hw]⟩
            · exact ⟨.host (m.lo g), by simp [hu, classifyRead, hpr, hw], by simp [hu, hw, hvis],
                by simp [hu, hw, hvis, hne]⟩
          · have hvis : visiblePath w.host m g = m.up g := visiblePath_up hu hpr
            refine ⟨.host (m.up g), ?_, by simp [hu, hpr, hvis], by simp [hu, hpr, hvis, hup]⟩
            cases hpr' : probeLink w.host (m.up g) <;> simp_all [classifyRead]

theorem classify_own (w : World) (forWrite : Bool) (wi : WriteIntent) (hwi : wi ≠ .remove)
    (g : Str) :
    (classify g forWrite false wi w).1.hostPath = sockHost w forWrite g ∧
      ((classify g forWrite false wi w).1.realm = .hostBacked ↔ ownHost w forWrite g ≠ []) := by
  obtain ⟨pc, hstep, hpath, hrealm⟩ := classifyStep_own w forWrite wi hwi g 0
  have hfiles := classifyStep_files w 0 forWrite false wi g
  obtain ⟨w', hw'⟩ : ∃ w', classifyStep w 0 forWrite false wi g = (.done pc, w') :=
    ⟨_, Prod.ext hstep rfl⟩
  rw [hw'] at hfiles
  have hlinks : w'.links = w.links := hfiles.links
  have hname : classifyName g forWrite false wi w = (pc, w') := by
    simp [classifyName, classifyImpl, maxCross, hw']
  unfold classify
  rw [hname]
  simp only [resolveAlias, hwi, ne_eq, not_false_eq_true, and_true, hlinks]
  unfold sockHost
  by_cases h0 : ownHost w forWrite g = []
  · have hr : pc.realm ≠ .hostBacked := fun hr => hrealm.1 hr h0
    simp [hr, h0, hpath]
  · have hr := hrealm.2 h0
    simp only [hr, if_true, h0, if_false]
    rw [hpath]
    cases hb : w.links.backingOf (ownHost w forWrite g) with
    | none => simp [hpath, hr]
    | some b => simp

end Classes

/-! ## The exits -/

section Exits

variable {w : World} {mem : GuestMem} {r : Regs} {forBind : Bool} {g : Str}

theorem copyOps_ne_unlink {P : HostCall → Prop} {w' : World} (h : w.FilesOnly w') :
    w.Logs (fun c => c.op = .unlink → P c) w' := by
  refine h.ops.mono fun c hc hu => ?_
  rw [hu] at hc
  exact absurd hc (by decide)

theorem abstractNameFor_length (g : Str) (i : Nat) : (abstractNameFor g i).length = 42 := by
  have h9 : "linuxity/".toList.length = 9 := by decide
  unfold abstractNameFor
  simp only [length_append, length_cons, hex64, length_map, length_range, h9]

/-- The placeholder of a socket in the abstract namespace unlinks one path. -/
theorem bindPlaceholder_unlinks :
    w.Logs (fun c => c.op = .unlink → InMount w.mounts c.path) (bindPlaceholder w g) ↔
      (sockHost w true g ≠ [] → InMount w.mounts (sockHost w true g)) := by
  obtain ⟨hpath, hrealm⟩ := classify_own w true .parentsOnly (by decide) g
  have hfiles := classify_files g true false .parentsOnly w
  have hown : sockHost w true g ≠ [] → ownHost w true g ≠ [] := by
    intro h h0
    simp [sockHost, h0] at h
  unfold bindPlaceholder
  simp only [hpath, hrealm]
  generalize (classify g true false .parentsOnly w).2 = w₁ at hfiles
  by_cases h0 : sockHost w true g = []
  · simp only [h0, ne_eq, not_true, and_false, if_false, false_implies, iff_true]
    exact copyOps_ne_unlink hfiles
  · rw [if_pos ⟨hown h0, h0⟩]
    -- the rest only creates the file and notes the name
    have hrest : ∀ w2 : World, w2.Logs (fun c => c.op ≠ .unlink)
        (match w2.createExcl (sockHost w true g) 0o600 with
          | (.error _, w) => w
          | (.ok _, w) => w.noteSocket g) := by
      intro w2
      have hlog : w2.Logs (fun c => c.op ≠ .unlink) (w2.createExcl (sockHost w true g) 0o600).2 :=
        .sys (by simp)
      cases hc : w2.createExcl (sockHost w true g) 0o600 with
      | mk res w3 =>
        rw [hc] at hlog
        cases res with
        | error e => exact hlog
        | ok u => exact hlog.trans (.of_eq rfl)
    constructor
    · intro hlogs _
      exact hlogs.of_sys hfiles.ops (hrest _) rfl
    · intro hin
      have hunlink : w₁.Logs (fun c => c.op = .unlink → InMount w.mounts c.path)
          (w₁.unlink (sockHost w true g)).2 :=
        .unlink fun _ => hin h0
      exact ((copyOps_ne_unlink hfiles).trans hunlink).trans
        ((hrest _).mono fun c hc hu => absurd hu hc)

theorem sockAbstract_rewrites (addr : Nat) :
    (sockAbstract w addr g forBind).1 =
        .sockRewrite (addr + 2) (nul :: abstractNameFor g w.instanceId) 2 (2 + 43) ∧
      (sockAbstract w addr g forBind).2 = if forBind then bindPlaceholder w g else w := by
  have hlen : (nul :: abstractNameFor g w.instanceId).length = 43 := by
    rw [length_cons, abstractNameFor_length]
  unfold sockAbstract
  exact ⟨rfl, rfl⟩

/-- What is left when `bind` has removed what is at the path of its node, and what is at the path
where the name is read if that is another one. -/
def bindCleared (w : World) (g : Str) : World :=
  let w₁ := bindPrepared w g
  let w₂ := (w₁.unlink (sockHost w true g)).2
  if sockHost w₁ false g ≠ [] ∧ sockHost w₁ false g ≠ sockHost w true g then
    (w₂.unlink (sockHost w₁ false g)).2
  else w₂

theorem bindPrepared_files (w : World) (g : Str) : w.FilesOnly (bindPrepared w g) :=
  classify_files g true false .parentsOnly w

/-- The exits of the filesystem namespace, by the host path of the guest path. -/
theorem sockFilesystem_cases (addr : Nat) :
    (sockHost w forBind g = [] ∨ sunPathMax < (sockHost w forBind g).length + 1) ∧
        (sockFilesystem w addr g forBind).1 = .fwd ∧
        w.FilesOnly (sockFilesystem w addr g forBind).2 ∨
      ¬(sockHost w forBind g = [] ∨ sunPathMax < (sockHost w forBind g).length + 1) ∧
        (∃ n, (sockFilesystem w addr g forBind).1 =
          .sockRewrite (addr + 2) (sockHost w forBind g) 2 n) ∧
        if forBind then (sockFilesystem w addr g forBind).2 = bindCleared w g
        else w.FilesOnly (sockFilesystem w addr g forBind).2 := by
  have hwi : (if forBind then WriteIntent.parentsOnly else .copyLeaf) ≠ .remove := by
    cases forBind <;> decide
  obtain ⟨hpath, hrealm⟩ := classify_own w forBind _ hwi g
  have hfiles := classify_files g forBind false (if forBind then .parentsOnly else .copyLeaf) w
  have hvirt : sockHost w forBind g ≠ [] →
      (classify g forBind false (if forBind then .parentsOnly else .copyLeaf) w).1.realm ≠
        .virtualFile := by
    intro h0 hv
    have hown : ownHost w forBind g ≠ [] := fun h => h0 (by simp [sockHost, h])
    rw [hrealm.2 hown] at hv
    cases hv
  unfold sockFilesystem
  simp only [hpath]
  by_cases h0 : sockHost w forBind g = []
  · left
    rw [if_pos (.inr h0)]
    exact ⟨.inl h0, rfl, hfiles⟩
  rw [if_neg (by simp [h0, hvirt h0])]
  by_cases hlen : sunPathMax < (sockHost w forBind g).length + 1
  · left
    rw [if_pos hlen]
    exact ⟨.inr hlen, rfl, hfiles⟩
  right
  rw [if_neg hlen]
  refine ⟨by simp [h0, hlen], ⟨_, rfl⟩, ?_⟩
  cases forBind with
  | false => exact hfiles
  | true =>
    obtain ⟨hrd, -⟩ := classify_own (bindPrepared w g) false .copyLeaf (by decide) g
    simp only [if_true, bindCleared, ← hrd]
    rfl

/-- `bind` removes nothing outside if neither path lies there. -/
theorem bindCleared_unlinks :
    w.Logs (fun c => c.op = .unlink → InMount w.mounts c.path) (bindCleared w g) ↔
      InMount w.mounts (sockHost w true g) ∧
        (sockHost (bindPrepared w g) false g ≠ [] →
          InMount w.mounts (sockHost (bindPrepared w g) false g)) := by
  have hfiles := bindPrepared_files w g
  unfold bindCleared
  dsimp only
  generalize bindPrepared w g = w₁ at hfiles
  by_cases h2 : sockHost w₁ false g ≠ [] ∧ sockHost w₁ false g ≠ sockHost w true g
  · rw [if_pos h2]
    constructor
    · intro hlogs
      have hfirst : w.Logs (fun _ => True) (w₁.unlink (sockHost w true g)).2 :=
        (hfiles.ops.mono fun _ _ => trivial).trans (.unlink trivial)
      exact ⟨hlogs.of_sys hfiles.ops (.unlink trivial : World.Logs (fun _ => True) _ _) rfl,
        fun _ => hlogs.of_sys hfirst (.of_eq rfl : World.Logs (fun _ => True) _ _) rfl⟩
    · rintro ⟨h1, h3⟩
      exact ((copyOps_ne_unlink hfiles).trans (.unlink fun _ => h1)).trans
        (.unlink fun _ => h3 h2.1)
  · rw [if_neg h2]
    constructor
    · intro hlogs
      have h1 := hlogs.of_sys hfiles.ops (.of_eq rfl : World.Logs (fun _ => True) _ _) rfl
      refine ⟨h1, fun h0 => ?_⟩
      rw [not_not.1 fun hne => h2 ⟨h0, hne⟩]
      exact h1
    · exact fun h => (copyOps_ne_unlink hfiles).trans (.unlink fun _ => h.1)

theorem confined_fwd {w' : World} (hfiles : w.FilesOnly w') :
    SockConfined w mem r (.fwd, w') ↔ kernelSunPath mem r = none := by
  constructor
  · exact fun hc => hc.notRaw rfl
  · intro hk
    exact ⟨fun _ => hk, fun a s l n h => (by cases h), copyOps_ne_unlink hfiles⟩

theorem confined_abstract (hns : w.socketNs = .abstractNs)
    (hg : sockGuestPath w mem r = some (some g)) :
    SockConfined w mem r (sockAbstract w (r.arg 1) g forBind) ↔
      (forBind → sockHost w true g ≠ [] → InMount w.mounts (sockHost w true g)) := by
  obtain ⟨h1, h2⟩ := @sockAbstract_rewrites w forBind g (r.arg 1)
  constructor
  · rintro hc rfl
    have hu := hc.unlinks
    rw [h2, if_pos rfl] at hu
    exact bindPlaceholder_unlinks.1 hu
  · intro hin
    refine ⟨fun h => ?_, fun a s l n h => ?_, ?_⟩
    · rw [h1] at h; cases h
    · rw [h1] at h; cases h
      exact .inl ⟨hns, g, hg, rfl⟩
    · rw [h2]
      cases forBind with
      | false => exact .of_eq rfl
      | true => exact bindPlaceholder_unlinks.2 (hin rfl)

theorem confined_filesystem (hns : w.socketNs = .filesystem) :
    SockConfined w mem r (sockFilesystem w (r.arg 1) g forBind) ↔
      if sockHost w forBind g = [] ∨ sunPathMax < (sockHost w forBind g).length + 1 then
        kernelSunPath mem r = none
      else
        InMount w.mounts (sockHost w forBind g) ∧
          (forBind → sockHost (bindPrepared w g) false g ≠ [] →
            InMount w.mounts (sockHost (bindPrepared w g) false g)) := by
  rcases @sockFilesystem_cases w forBind g (r.arg 1) with ⟨hx, h1, hfiles⟩ | ⟨hx, ⟨n, h1⟩, hworld⟩
  · rw [if_pos hx, ← confined_fwd hfiles, ← h1]
  rw [if_neg hx]
  have hrewritten : SockConfined w mem r (sockFilesystem w (r.arg 1) g forBind) ↔
      InMount w.mounts (sockHost w forBind g) ∧
        w.Logs (fun c => c.op = .unlink → InMount w.mounts c.path)
          (sockFilesystem w (r.arg 1) g forBind).2 := by
    constructor
    · intro hc
      refine ⟨(hc.produced _ _ _ _ h1).resolve_left fun hab => ?_, hc.unlinks⟩
      rw [hns] at hab
      cases hab.1
    · rintro ⟨hin, hlogs⟩
      refine ⟨fun h => ?_, fun a s l n h => ?_, hlogs⟩
      · rw [h1] at h
        cases h
      · rw [h1] at h
        cases h
        exact .inr hin
  rw [hrewritten]
  cases forBind with
  | false => exact and_congr_right fun _ => iff_of_true (copyOps_ne_unlink hworld) nofun
  | true =>
    rw [if_pos rfl] at hworld
    rw [hworld, bindCleared_unlinks]
    simp only [true_implies, and_self_left]

end Exits

def unixMem (p : Str) : GuestMem where
  byte a :=
    if 4096 ≤ a then ([1, 0] ++ p.map (fun c => c.toNat.toUInt8) ++ [0])[a - 4096]? else none
  null := by simp

def unixRegs (p : Str) : Regs where
  arg i := if i = 1 then 4096 else if i = 2 then p.length + 3 else 0

def sockWorld : World where
  host := linkedHost
  mounts :=
    [mountHost slash slash "/srv/root" "/srv/up" srvRoot_ne_nil,
    mountVirtual "/proc" fun _ => .ok {}]

/-- A `bind` to the address of `p` keeps to the mounts. -/
def BindConfined (p : Str) : Prop :=
  SockConfined sockWorld (unixMem p) (unixRegs p)
    (doSockaddrUn sockWorld (unixMem p) (unixRegs p) true)

theorem not_bindConfined {p : Str}
    (hfwd : (doSockaddrUn sockWorld (unixMem p) (unixRegs p) true).1 = .fwd)
    (hraw : kernelSunPath (unixMem p) (unixRegs p) ≠ none) : ¬BindConfined p :=
  fun hc => hraw (hc.notRaw hfwd)

end Linuxity.Abi

import Linuxity.Abi.Sockaddr
import Linuxity.Kernel.Merged

/-!
# Abi.Peers — the two ends of a socket

One process binds an address and another one connects to it.  Each end is translated when its call
is served.  A relative address is made absolute and normal first, an absolute one is taken as it is
written, and where sockets have no place in the file system the text is hashed.
-/

namespace Linuxity.Abi

open Posix Wire Kernel

/-! ## The two ends -/

def sockName (w : World) (mem : GuestMem) (r : Regs) : Option Str :=
  (sockRaw mem r).bind fun raw => absolutize w raw w.cwd

/-- The text that is translated: a relative address is made absolute, any other is taken as it
is. -/
def sockText (w : World) (mem : GuestMem) (r : Regs) : Option Str := (sockGuestPath w mem r).join

structure SockEnd where
  mem : GuestMem
  regs : Regs
  hostCwd : Loc := []

namespace SockEnd

variable (c : SockEnd)

def name (w : World) : Option Str := sockName w c.mem c.regs

def text (w : World) : Option Str := sockText w c.mem c.regs

/-- The address the kernel takes from some bytes, with the directory a relative path starts in. -/
def address (bytes : Str) : Loc × Str :=
  (if isAbs bytes || bytes.head? == some nul then [] else c.hostCwd, bytes)

def asWritten : Option (Loc × Str) := (kernelSunPath c.mem c.regs).map c.address

def given : Outcome → Option (Loc × Str)
  | .sockRewrite _ bytes _ _ => some (c.address bytes)
  | .forward _ => c.asWritten
  | _ => none

def reaches (w : World) (forBind : Bool) : Option (Loc × Str) :=
  c.given (doSockaddrUn w c.mem c.regs forBind).1

def hashed (w : World) (forBind : Bool) : Option Str :=
  match w.socketNs, (doSockaddrUn w c.mem c.regs forBind).1 with
  | .abstractNs, .sockRewrite _ bytes _ _ => some bytes
  | _, _ => none

end SockEnd

/-- One end is bound and the other one connects, in one namespace at two moments. -/
structure Encounter where
  binder : SockEnd
  caller : SockEnd
  bound : World
  called : World
  mounts : called.mounts = bound.mounts
  links : called.links = bound.links
  socketNs : called.socketNs = bound.socketNs
  instanceId : called.instanceId = bound.instanceId

def Meets (e : Encounter) : Prop :=
  ∀ g, e.binder.name e.bound = some g → e.caller.name e.called = some g →
    e.binder.reaches e.bound true = e.caller.reaches e.called false

/-- Two ends of different names do not get the same abstract name. -/
def Apart (e : Encounter) : Prop :=
  ∀ g g', e.binder.name e.bound = some g → e.caller.name e.called = some g' → g ≠ g' →
    ∀ b b' n, e.binder.hashed e.bound b = some n → e.caller.hashed e.called b' ≠ some n

/-! ## The condition -/

/-- Where the text goes; `none` where the address is handed on as it is written. -/
def route (w : World) (forBind : Bool) (g : Str) : Option Str :=
  if isHostSidePath w.mounts g then none
  else match w.socketNs with
    | .abstractNs => some (nul :: abstractNameFor g w.instanceId)
    | .filesystem =>
      if sockHost w forBind g = [] ∨ sunPathMax < (sockHost w forBind g).length + 1 then none
      else some (sockHost w forBind g)

/-- The address of a text by its route. -/
def SockEnd.routed (c : SockEnd) (w : World) (forBind : Bool) (g : Str) : Option (Loc × Str) :=
  (route w forBind g).elim c.asWritten fun bytes => some (c.address bytes)

/-- Where the namespace has a text: below the directory of a layer, or at a path of a producer. -/
inductive Landing where
  | nowhere
  | layer (base rest : Str)
  | produced (p : Str)

namespace Landing

def path : Landing → Str
  | nowhere => []
  | layer base rest => joinHost base rest
  | produced p => p

/-- Below one directory with the same rest, or below two of which one lies in the other. -/
def Same : Landing → Landing → Prop
  | layer B r, layer B' r' => B = B' ∧ r = r' ∨ Deeper B r B' r' ∨ Deeper B' r' B r
  | L, L' => L.path = L'.path

/-- A name of an emulated hard link stands for its backing. -/
def Together (links : LinkTable) (L L' : Landing) : Prop :=
  match links.backingOf L.path, links.backingOf L'.path with
  | none, none => L.Same L'
  | none, some p => L.path = p
  | some p, none => p = L'.path
  | some p, some p' => p = p'

end Landing

/-- What is bound goes to the layer that is written to; what is called is looked for in both. -/
def landing (w : World) (forBind : Bool) (g : Str) : Landing :=
  match deepest w.mounts g with
  | none => .nowhere
  | some m =>
    match m.producer with
    | some prod => match prod g with | .ok vf => .produced vf.redirectHost | .error _ => .nowhere
    | none =>
      if m.upper ≠ [] ∧ (forBind ∨ probeLink w.host (m.up g) ≠ .absent) then
        .layer m.upper (m.rel g)
      else if m.upper ≠ [] ∧ w.isWhiteout g then .nowhere
      else .layer m.hostBase (m.rel g)

/-- When the texts `a` and `b` of one name meet.  Two texts that differ meet if they happen to have
one hash, or one host path. -/
def MeetsAt (e : Encounter) (a b : Str) : Prop :=
  match e.bound.socketNs with
  | .abstractNs =>
    if isHostSidePath e.bound.mounts a ∨ isHostSidePath e.bound.mounts b then
      isHostSidePath e.bound.mounts a ∧ isHostSidePath e.bound.mounts b ∧
        e.binder.asWritten = e.caller.asWritten
    else fnv1a a = fnv1a b
  | .filesystem =>
    match route e.bound true a, route e.called false b with
    | none, none => e.binder.asWritten = e.caller.asWritten
    | none, some p => e.binder.asWritten = some (e.caller.address p)
    | some p, none => e.caller.asWritten = some (e.binder.address p)
    | some p, some _ =>
      (landing e.bound true a).Together e.bound.links (landing e.called false b) ∧
        (isAbs p ∨ p.head? = some nul ∨ e.binder.hostCwd = e.caller.hostCwd)

/-- When the texts `a` and `b` of different names stay apart. -/
def ApartAt (e : Encounter) (a b : Str) : Prop :=
  e.bound.socketNs = .abstractNs → isHostSidePath e.bound.mounts a = false →
    isHostSidePath e.bound.mounts b = false → fnv1a a ≠ fnv1a b

/-! ## The hash -/

section Hash

theorem fnv1a_lt (p : Str) : fnv1a p < 2 ^ 64 := by
  unfold fnv1a
  rcases List.eq_nil_or_concat p with rfl | ⟨q, c, rfl⟩
  · simp
  · rw [List.concat_eq_append, List.foldl_append, List.foldl_cons, List.foldl_nil]
    exact Nat.mod_lt _ (Nat.two_pow_pos 64)

theorem hexDigit_inj : ∀ a < 16, ∀ b < 16,
    "0123456789abcdef".toList.getD a '0' = "0123456789abcdef".toList.getD b '0' → a = b := by
  decide

/-- Sixteen digits tell all 64 bits. -/
theorem hex64_inj {a b : Nat} (ha : a < 2 ^ 64) (hb : b < 2 ^ 64)
    (h : hex64 a = hex64 b) : a = b := by
  have hdigit : ∀ i < 16, (a >>> (60 - 4 * i)) % 16 = (b >>> (60 - 4 * i)) % 16 := by
    intro i hi
    have hget := congrArg (·[i]?) h
    simp only [hex64, List.getElem?_map, List.getElem?_range hi, Option.map_some,
      Option.some.injEq] at hget
    exact hexDigit_inj _ (Nat.mod_lt _ (by decide)) _ (Nat.mod_lt _ (by decide)) hget
  apply Nat.eq_of_testBit_eq
  intro k
  by_cases hk : k < 64
  · have h4 := congrArg (·.testBit (k % 4)) (hdigit (15 - k / 4) (by omega))
    have hoff : 60 - 4 * (15 - k / 4) + k % 4 = k := by omega
    simp only [show (16 : Nat) = 2 ^ 4 from rfl, Nat.testBit_mod_two_pow, Nat.testBit_shiftRight,
      hoff, show k % 4 < 4 from Nat.mod_lt _ (by decide), decide_true, Bool.true_and] at h4
    exact h4
  · have h64 : 2 ^ 64 ≤ 2 ^ k := Nat.pow_le_pow_right (by decide) (by omega)
    rw [Nat.testBit_lt_two_pow (lt_of_lt_of_le ha h64),
      Nat.testBit_lt_two_pow (lt_of_lt_of_le hb h64)]

theorem abstractNameFor_inj {p q : Str} {i : Nat} :
    abstractNameFor p i = abstractNameFor q i ↔ fnv1a p = fnv1a q := by
  unfold abstractNameFor
  constructor
  · intro h
    exact hex64_inj (fnv1a_lt p) (fnv1a_lt q) (List.cons.inj (List.append_cancel_left h)).2
  · intro h
    rw [h]

end Hash

/-! ## The host path of a text -/

section Own

variable {w : World} {forBind : Bool} {g : Str}

theorem ownHost_eq_path (w : World) (forBind : Bool) (g : Str) :
    ownHost w forBind g = (landing w forBind g).path := by
  unfold ownHost landing
  rcases deepest w.mounts g with _ | m
  · rfl
  dsimp only
  rcases m.producer with _ | prod
  · dsimp only [visiblePath]
    by_cases hu : m.upper = []
    · simp [hu, Landing.path, Mount.lo]
    · rcases forBind with _ | _
      · by_cases hp : probeLink w.host (m.up g) = .absent
        · by_cases hw : w.isWhiteout g
          · simp [hu, hp, hw, Landing.path]
          · simp [hu, hp, hw, Landing.path, Mount.lo]
        · simp only [hu, hp, ne_eq, not_false_eq_true, true_and, false_and, or_true, if_true,
            if_false, Bool.false_eq_true]
          rfl
      · simp only [hu, ne_eq, not_false_eq_true, true_and, true_or, if_true]
        rfl
  · dsimp only
    rcases prod g with e | vf
    · rfl
    · rfl

theorem landing_normal {B r : Str} (h : landing w forBind g = .layer B r) : Normal B := by
  unfold landing at h
  split at h
  · cases h
  · rename_i m _
    split at h
    · split at h
      · cases h
      · cases h
    · rename_i hp
      split_ifs at h with hu hw
      · cases h
        exact m.upper_normal.resolve_left hu.1
      · cases h
        exact m.base_normal hp

theorem route_eq (hns : w.socketNs = .filesystem) {p : Str} (h : route w forBind g = some p) :
    p = w.links.resolve (landing w forBind g).path := by
  unfold route at h
  rw [hns] at h
  split_ifs at h with hside hx
  cases h
  have hne : ownHost w forBind g ≠ [] := fun h0 => hx (.inl (by simp [sockHost, h0]))
  rw [sockHost, if_neg hne, ownHost_eq_path]
  rfl

theorem same_iff {L L' : Landing} (hL : ∀ {B r}, L = .layer B r → Normal B)
    (hL' : ∀ {B r}, L' = .layer B r → Normal B) : L.Same L' ↔ L.path = L'.path := by
  rcases L with _ | ⟨B, r⟩ | p
  · exact Iff.rfl
  · rcases L' with _ | ⟨B', r'⟩ | p'
    · exact Iff.rfl
    · exact (joinHost_eq_iff (hL rfl) (hL' rfl)).symm
    · exact Iff.rfl
  · exact Iff.rfl

theorem together_iff (links : LinkTable) (w w' : World) (g g' : Str) :
    (landing w true g).Together links (landing w' false g') ↔
      links.resolve (landing w true g).path = links.resolve (landing w' false g').path := by
  have hsame : (landing w true g).Same (landing w' false g') ↔ _ :=
    same_iff landing_normal landing_normal
  unfold Landing.Together LinkTable.resolve
  rcases links.backingOf (landing w true g).path with _ | p
  · rcases links.backingOf (landing w' false g').path with _ | p'
    · exact hsame
    · exact Iff.rfl
  · rcases links.backingOf (landing w' false g').path with _ | p'
    · exact Iff.rfl
    · exact Iff.rfl

end Own

/-! ## Names and texts -/

section Texts

variable {w : World} {mem : GuestMem} {r : Regs} {g : Str}

/-- An address with a name has a text. -/
theorem sockText_of_name (hg : sockName w mem r = some g) :
    ∃ text, sockText w mem r = some text := by
  unfold sockText sockGuestPath
  obtain ⟨raw, hraw, hg⟩ := Option.bind_eq_some_iff.1 hg
  rw [hraw]
  by_cases ha : isAbs raw
  · exact ⟨raw, by simp [ha]⟩
  · exact ⟨g, by simp [ha, hg]⟩

end Texts

/-! ## Where the ends go -/

section Ends

variable {c : SockEnd} {w : World} {g : Str} {e : Encounter} {a b : Str}

/-- The decision of the dispatcher, by the route of the text. -/
theorem doSockaddrUn_route (ht : c.text w = some g) (forBind : Bool) :
    match route w forBind g with
    | none => (doSockaddrUn w c.mem c.regs forBind).1 = .fwd
    | some bytes => ∃ a n, (doSockaddrUn w c.mem c.regs forBind).1 = .sockRewrite a bytes 2 n := by
  have hpath : sockGuestPath w c.mem c.regs = some (some g) := Option.join_eq_some_iff.1 ht
  unfold doSockaddrUn route
  rw [hpath]
  dsimp only
  by_cases hside : isHostSidePath w.mounts g
  · rw [if_pos hside, if_pos hside]
  rw [if_neg hside, if_neg hside]
  rcases w.socketNs with _ | _
  · rcases @sockFilesystem_cases w forBind g (c.regs.arg 1) with ⟨hx, h1, -⟩ | ⟨hx, ⟨n, h1⟩, -⟩
    · rw [if_pos hx]
      exact h1
    · rw [if_neg hx]
      exact ⟨_, n, h1⟩
  · exact ⟨_, _, (sockAbstract_rewrites (c.regs.arg 1)).1⟩

theorem reaches_eq (ht : c.text w = some g) (forBind : Bool) :
    c.reaches w forBind = c.routed w forBind g := by
  have h := doSockaddrUn_route ht forBind
  unfold SockEnd.reaches SockEnd.routed
  rcases hr : route w forBind g with _ | bytes
  · rw [hr] at h
    rw [h]
    rfl
  · rw [hr] at h
    obtain ⟨a, n, h⟩ := h
    rw [h]
    rfl

theorem hashed_eq (ht : c.text w = some g) (forBind : Bool) :
    c.hashed w forBind =
      if w.socketNs = .abstractNs ∧ isHostSidePath w.mounts g =
      false then some (nul :: abstractNameFor g w.instanceId) else none := by
  have h := doSockaddrUn_route ht forBind
  unfold route at h
  unfold SockEnd.hashed
  rcases hns : w.socketNs with _ | _
  · simp
  · rw [hns] at h
    rcases hside : isHostSidePath w.mounts g with _ | _
    · rw [hside] at h
      obtain ⟨a, n, h⟩ := h
      simp [h]
    · rw [hside] at h
      have h : (doSockaddrUn w c.mem c.regs forBind).1 = .fwd := h
      simp [h, Outcome.fwd]

/-- The kernel takes no abstract name from an address that is handed on as it is written. -/
theorem asWritten_ne_named (n : Str) : c.asWritten ≠ some (c.address (nul :: n)) := by
  intro h
  obtain ⟨p, hp, he⟩ := Option.map_eq_some_iff.1 h
  have hpath : p = nul :: n := (Prod.ext_iff.1 he).2
  unfold kernelSunPath at hp
  dsimp only at hp
  split_ifs at hp
  split at hp
  · cases hp
  · rename_i pb _
    split_ifs at hp with hnul
    rcases pb with _ | ⟨x, pb⟩
    · simp [hpath] at hp
    · have hx : x ≠ nul := fun hx => hnul (by simp [hx])
      simp only [List.takeWhile_cons, bne_iff_ne, ne_eq, hx, not_false_eq_true, if_true,
        Option.some.injEq, hpath, List.cons.injEq] at hp
      exact hp.1

theorem address_eq_iff {c c' : SockEnd} {p p' : Str} : c.address p = c'.address p' ↔
    p = p' ∧ (isAbs p ∨ p.head? = some nul ∨ c.hostCwd = c'.hostCwd) := by
  unfold SockEnd.address
  rw [Prod.mk.injEq, and_comm]
  refine and_congr_right ?_
  rintro rfl
  by_cases ha : isAbs p
  · simp [ha]
  · by_cases hn : p.head? = some nul
    · simp [hn]
    · simp [ha, hn]

theorem meetsAt_iff (ha : e.binder.text e.bound = some a) (hb : e.caller.text e.called = some b) :
    e.binder.reaches e.bound true = e.caller.reaches e.called false ↔ MeetsAt e a b := by
  rw [reaches_eq ha, reaches_eq hb]
  unfold MeetsAt
  rcases hns : e.bound.socketNs with _ | _
  · unfold SockEnd.routed
    rcases hra : route e.bound true a with _ | p
    · rcases route e.called false b with _ | p'
      · exact Iff.rfl
      · exact Iff.rfl
    · rcases hrb : route e.called false b with _ | p'
      · exact eq_comm
      · have hp := route_eq hns hra
        have hp' := route_eq (e.socketNs.trans hns) hrb
        rw [e.links] at hp'
        dsimp only
        rw [together_iff, ← hp, ← hp', ← address_eq_iff]
        exact Option.some_inj
  · have hns' : e.called.socketNs = .abstractNs := e.socketNs.trans hns
    unfold SockEnd.routed route
    rw [hns, hns', e.mounts, e.instanceId]
    rcases hsa : isHostSidePath e.bound.mounts a with _ | _
    · rcases hsb : isHostSidePath e.bound.mounts b with _ | _
      · have haddr : ∀ (c : SockEnd) (n : Str), c.address (nul :: n) = ([], nul :: n) :=
          fun c n => by simp [SockEnd.address]
        simp only [Bool.false_eq_true, if_false, Option.elim_some, Option.some.injEq, or_self,
          haddr, Prod.mk.injEq, true_and, List.cons.injEq]
        exact abstractNameFor_inj
      · have haddr : ∀ n, e.binder.address (nul :: n) = e.caller.address (nul :: n) :=
          fun n => by simp [SockEnd.address]
        simp only [Bool.false_eq_true, if_false, if_true, Option.elim_some, Option.elim_none,
          or_true, false_and, iff_false]
        rw [haddr]
        exact fun h => asWritten_ne_named _ h.symm
    · rcases hsb : isHostSidePath e.bound.mounts b with _ | _
      · have haddr : ∀ n, e.caller.address (nul :: n) = e.binder.address (nul :: n) :=
          fun n => by simp [SockEnd.address]
        simp only [Bool.false_eq_true, if_false, if_true, Option.elim_some, Option.elim_none,
          or_false, false_and, and_false, iff_false]
        rw [haddr]
        exact asWritten_ne_named _
      · simp

theorem apartAt_iff (ha : e.binder.text e.bound = some a) (hb : e.caller.text e.called = some b) :
    (∀ f f' n, e.binder.hashed e.bound f = some n → e.caller.hashed e.called f' ≠ some n) ↔
      ApartAt e a b := by
  simp only [hashed_eq ha, hashed_eq hb, e.socketNs, e.mounts, e.instanceId]
  constructor
  · intro h hns hsa hsb hfnv
    have hname : abstractNameFor a e.bound.instanceId = abstractNameFor b e.bound.instanceId :=
      abstractNameFor_inj.2 hfnv
    refine h true true _ (if_pos ⟨hns, hsa⟩) ?_
    rw [if_pos ⟨hns, hsb⟩, hname]
  · intro h f f' n hn hn'
    split_ifs at hn hn' with h1 h2
    have := (Option.some.inj hn).trans (Option.some.inj hn').symm
    exact h h1.1 h1.2 h2.2 (abstractNameFor_inj.1 (List.cons.inj this).2)

end Ends

/-- The ends of one name meet, and those of two names get different abstract names, just where the
texts of the addresses do. -/
theorem peers_meet_iff (e : Encounter) :
    (Meets e ↔ ∀ g a b, e.binder.name e.bound = some g → e.caller.name e.called = some g →
        e.binder.text e.bound = some a → e.caller.text e.called = some b → MeetsAt e a b) ∧
      (Apart e ↔ ∀ g g' a b, e.binder.name e.bound = some g → e.caller.name e.called = some g' →
        g ≠ g' → e.binder.text e.bound = some a → e.caller.text e.called = some b →
        ApartAt e a b) := by
  refine ⟨⟨fun h g a b hg hg' ha hb => (meetsAt_iff ha hb).1 (h g hg hg'), fun h g hg hg' => ?_⟩,
    ⟨fun h g g' a b hg hg' hne ha hb => (apartAt_iff ha hb).1 (h g g' hg hg' hne),
      fun h g g' hg hg' hne => ?_⟩⟩
  · obtain ⟨a, ha⟩ := sockText_of_name hg
    obtain ⟨b, hb⟩ := sockText_of_name hg'
    exact (meetsAt_iff ha hb).2 (h g a b hg hg' ha hb)
  · obtain ⟨a, ha⟩ := sockText_of_name hg
    obtain ⟨b, hb⟩ := sockText_of_name hg'
    exact (apartAt_iff ha hb).2 (h g g' a b hg hg' hne ha hb)

def abstractPair (p q : Str) : Encounter where
  binder := { mem := unixMem p, regs := unixRegs p }
  caller := { mem := unixMem q, regs := unixRegs q }
  bound := { sockWorld with socketNs := .abstractNs }
  called := { sockWorld with socketNs := .abstractNs }
  mounts := rfl
  links := rfl
  socketNs := rfl
  instanceId := rfl

/-- A second slash hides the peer, and two names share one hash. -/
theorem peers_miss_and_collide : ¬Meets (abstractPair "/s".toList "//s".toList) ∧
    ¬Apart (abstractPair "/avrhnowbuwzuc".toList "/ueaqwublnrmlj".toList) := by
  refine ⟨fun h => ?_, fun h => ?_⟩
  · have hmeet := h "/s" (by decide +kernel) (by decide +kernel)
    exact absurd hmeet (by decide +kernel)
  · refine h "/avrhnowbuwzuc" "/ueaqwublnrmlj" (by decide +kernel) (by decide +kernel) (by decide)
      true false
      (nul :: abstractNameFor "/avrhnowbuwzuc" 0) (by decide +kernel) ?_
    decide +kernel

end Linuxity.Abi

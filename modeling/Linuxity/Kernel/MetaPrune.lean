import Linuxity.Kernel.MetaJournal
import Mathlib.Data.Nat.Bitwise

/-!
# Kernel.MetaPrune — what a guest sees of recorded modes and owners (`kernel/meta_store.hpp`)

A record is left out when it says what the host or the default says, on each call and once more
when a root process attaches to the journal.  The guest is to see what a table would show that
keeps the last mode and the last owner of every path.
-/

namespace Linuxity.Kernel.MetaPrune

open Logic Posix MetaJournal Function List Option

def kPermMask : ℕ := 0o7777

def kFileTypeMask : ℕ := 0o170000

def effectiveMode (hostMode : ℕ) (r : MetaRecord) : ℕ :=
  let hostMode := if r.hasFifo ∧ hostMode &&& kFileTypeMask = 0o100000 then
      (hostMode &&& (0xffffffff ^^^ kFileTypeMask)) ||| 0o010000 else hostMode
  if !r.hasMode then hostMode else (hostMode &&& kFileTypeMask) ||| (r.mode &&& kPermMask)

variable (r : Option MetaRecord)

/-- The mode and the owner in the answer to a `stat`. -/
def overlay (hostMode : ℕ) : ℕ × ℕ × ℕ :=
  match r with
  | none => (hostMode, 0, 0)
  | some r => (if r.hasMode || r.hasFifo then effectiveMode hostMode r else hostMode,
      if r.hasUid then r.uid else 0, if r.hasGid then r.gid else 0)

/-- The last mode and the last owner of every path. -/
structure Reference where
  mode : Str → Option ℕ := fun _ => none
  uid : Str → ℕ := fun _ => 0
  gid : Str → ℕ := fun _ => 0

def Reference.overlay (ref : Reference) (path : Str) (hostMode : ℕ) : ℕ × ℕ × ℕ :=
  (match ref.mode path with
    | some m => (hostMode &&& kFileTypeMask) ||| m
    | none => hostMode, ref.uid path, ref.gid path)

def isLink (mode : UInt16) : Bool := mode.toNat &&& kFileTypeMask == 0o120000

/-- A record when a root process attaches: the mode goes if the host has it, or if there is a
link. -/
def pruneRecord (lstat : Option UInt16) (r : MetaRecord) : Option MetaRecord :=
  let r :=
    if r.hasMode ∧ ∃ m ∈ lstat, isLink m ∨ m.toNat &&& kPermMask = r.mode then
      { r with hasMode := false }
    else r
  if r.isRedundant then none else some r

def prune (lstat : Str → Option UInt16) (s : MetaStore) : MetaStore :=
  { table := fun path => (s.table path).bind (pruneRecord (lstat path)) }

def rewritten (s : MetaStore) (order : List Str) : List Entry :=
  order.filterMap fun path => (s.table path).map fun r => (path, some r)

/-- `attach`: the journal is replayed, and a root process prunes the table and writes the journal
anew when it is mostly dead weight. The paths of the table come in an order of their own. -/
def attach (j : Journaled) (compact : Bool) (lstat : Str → Option UInt16)
    (order : List Str) : Journaled :=
  let table := replay j.file
  if !compact then { j with store := table }
  else
    let lines := (linesOf '\n' lineMax j.file).length
    let live := rewritten (prune lstat table) order
    if live.length < order.length ∨ 1024 < lines ∧ live.length * 4 < lines then
      { store := prune lstat table, file := unlines '\n' (live.map entryLine) }
    else { j with store := prune lstat table }

structure State where
  journal : Journaled := {}
  /-- The mode of each file, as the host reports it. -/
  host : Str → UInt16 := fun _ => 0
  ref : Reference := {}

variable (s : State)

inductive Event where
  /-- With what the host's file has after the call, if that is known. -/
  | chmod (path : Str) (mode : UInt32) (landed : Option UInt16)
  | chown (path : Str) (uid gid : UInt32)
  | host (path : Str) (mode : UInt16)
  | attach (compact : Bool) (lstat : Str → Option UInt16) (order : List Str)

def chmodOp (path : Str) (mode : UInt32) (landed : Option UInt16) : Op :=
  .setMode path mode (landed.map UInt16.toUInt32)

def step : Event → State
  | .chmod path mode landed =>
    { journal := MetaJournal.step s.journal (chmodOp path mode landed)
      host := match landed with
        | some h => update s.host path h
        | none => s.host
      ref := { s.ref with mode := update s.ref.mode path (some (mode.toNat &&& kPermMask)) } }
  | .chown path uid gid =>
    { s with
      journal := MetaJournal.step s.journal (.setOwner path uid gid)
      ref := { s.ref with
        uid := if uid.toNat ≠ keepId then update s.ref.uid path uid.toNat else s.ref.uid
        gid := if gid.toNat ≠ keepId then update s.ref.gid path gid.toNat else s.ref.gid } }
  | .host path mode => { s with host := update s.host path mode }
  | .attach compact lstat order =>
    { s with journal := MetaPrune.attach s.journal compact lstat order }

/-- The paths are those of the table, and the host answers as it does to a `stat`. -/
def Valid : Event → Prop
  | .attach _ lstat order =>
    order.Nodup ∧ (∀ path, path ∈ order ↔ ((replay s.journal.file).table path).isSome) ∧
      ∀ path, ∀ m ∈ lstat path, m = s.host path
  | _ => True

def hasMode (path : Str) : Bool := (s.journal.store.table path).any (·.hasMode)

/-- Lines can be read back, a mode that is left to the host does not change there, and no mode is
recorded for a link. -/
def Careful : Event → Prop
  | .chmod path mode landed => ReadableOp s.journal (chmodOp path mode landed)
  | .chown path uid gid => ReadableOp s.journal (.setOwner path uid gid)
  | .host path mode => hasMode s path ∨ s.ref.mode path = none ∨
      mode.toNat &&& kPermMask = (s.host path).toNat &&& kPermMask
  | .attach compact lstat order =>
    compact → (∀ e ∈ rewritten (prune lstat (replay s.journal.file)) order, Readable e) ∧
      ∀ path, ((replay s.journal.file).table path).any (·.hasMode) →
      ∀ m ∈ lstat path, isLink m = false

/-- The guest sees what it would see with every record kept. -/
def Invisible : Prop :=
  ∀ path, overlay (s.journal.store.table path) (s.host path).toNat =
    s.ref.overlay path (s.host path).toNat

/-! ## What a record has to do with the reference -/

def uidOf : ℕ := r.elim 0 fun r => if r.hasUid then r.uid else 0

def gidOf : ℕ := r.elim 0 fun r => if r.hasGid then r.gid else 0

/-- A record, or none, with which a file looks as it should. -/
structure Agrees (r : Option MetaRecord) (host : UInt16) (mode : Option ℕ)
    (uid gid : ℕ) : Prop where
  uid : uidOf r = uid
  gid : gidOf r = gid
  fifo : ∀ x ∈ r, x.hasFifo = false
  mode : (∃ x ∈ r, x.hasMode ∧ mode = some x.mode ∧ x.mode &&& kPermMask = x.mode) ∨
    (∀ x ∈ r, x.hasMode = false) ∧ (mode = none ∨ mode = some (host.toNat &&& kPermMask))

section Records

variable {r : MetaRecord} {o : Option MetaRecord} {h h' : UInt16} {mode : Option ℕ} {uid gid : ℕ}

theorem and_masks (h : UInt16) :
    (h.toNat &&& kFileTypeMask) ||| (h.toNat &&& kPermMask) = h.toNat := by
  rw [← Nat.and_or_distrib_left, show kFileTypeMask ||| kPermMask = 2 ^ 16 - 1 by decide,
    Nat.and_two_pow_sub_one_eq_mod, Nat.mod_eq_of_lt h.toNat_lt]

theorem Agrees.overlay {ref : Reference} {path : Str}
    (ha : Agrees o h (ref.mode path) (ref.uid path) (ref.gid path)) :
    MetaPrune.overlay o h.toNat = ref.overlay path h.toNat := by
  obtain ⟨hu, hg, hf, hm⟩ := ha
  rw [Reference.overlay, ← hu, ← hg]
  rcases o with _ | r
  · refine congrArg (·, _) ?_
    obtain ⟨x, hx, -⟩ | ⟨-, hval | hval⟩ := hm
    · cases hx
    · rw [hval]
    · rw [hval]
      exact (and_masks h).symm
  · have hfifo := hf r rfl
    refine congrArg (·, _) ?_
    obtain ⟨x, hx, hmode, hval, hperm⟩ | ⟨hmode, hval⟩ := hm
    · cases hx
      rw [hval]
      simp [effectiveMode, hmode, hfifo, hperm]
    · rw [hmode r rfl, hfifo, Bool.false_or, if_neg Bool.false_ne_true]
      obtain hval | hval := hval
      · rw [hval]
      · rw [hval]
        exact (and_masks h).symm

theorem Agrees.drop (ha : Agrees (some r) h mode uid gid) :
    Agrees (if r.isRedundant then none else some r) h mode uid gid := by
  split_ifs with hred
  · simp only [MetaRecord.isRedundant, Bool.and_eq_true, Bool.or_eq_true, Bool.not_eq_true',
      beq_iff_eq] at hred
    obtain ⟨⟨⟨⟨hu, hg⟩, hm⟩, -⟩, -⟩ := hred
    obtain ⟨hau, hag, -, ham⟩ := ha
    refine ⟨?_, ?_, by simp, .inr ⟨by simp, ?_⟩⟩
    · rw [← hau]
      simp only [uidOf, elim_some, elim_none]
      split_ifs with hh
      · exact (hu.resolve_left (by rw [hh]; exact Bool.noConfusion)).symm
      · rfl
    · rw [← hag]
      simp only [gidOf, elim_some, elim_none]
      split_ifs with hh
      · exact (hg.resolve_left (by rw [hh]; exact Bool.noConfusion)).symm
      · rfl
    · obtain ⟨x, hx, hmode, -⟩ | ⟨-, hval⟩ := ham
      · cases hx
        exact absurd (hmode.symm.trans hm) (by decide)
      · exact hval
  · exact ha

theorem Agrees.unset (ha : Agrees (some r) h mode uid gid) {m : ℕ}
    (hh : h'.toNat &&& kPermMask = m) :
    Agrees (some { r with hasMode := false }) h' (some m) uid gid := by
  refine ⟨ha.uid, ha.gid, fun x hx => ?_, .inr ⟨fun x hx => ?_, .inr (congrArg some hh.symm)⟩⟩
  · cases hx
    exact ha.fifo r rfl
  · cases hx
    rfl

theorem Agrees.set (ha : Agrees o h mode uid gid) (h' : UInt16) (m : ℕ) :
    Agrees (some { o.getD {} with mode := m &&& kPermMask, hasMode := true }) h'
      (some (m &&& kPermMask)) uid gid := by
  have hperm : m &&& kPermMask &&& kPermMask = m &&& kPermMask := by
    rw [Nat.and_assoc, Nat.and_self]
  refine ⟨?_, ?_, fun x hx => ?_, .inl ⟨_, rfl, rfl, rfl, hperm⟩⟩
  · rw [← ha.uid]
    cases o <;> rfl
  · rw [← ha.gid]
    cases o <;> rfl
  · cases hx
    rcases o with _ | r
    · rfl
    · exact ha.fifo r rfl

theorem Agrees.withOwner (ha : Agrees o h mode uid gid) (u g : ℕ) :
    Agrees (some (withOwner (o.getD {}) u g)) h mode (if u ≠ keepId then u else uid)
      (if g ≠ keepId then g else gid) := by
  obtain ⟨hu, hg, hf, hm⟩ := ha
  have hkeep : ∀ r : MetaRecord, (MetaJournal.withOwner r u g).hasMode = r.hasMode ∧
      (MetaJournal.withOwner r u g).mode = r.mode ∧
      (MetaJournal.withOwner r u g).hasFifo = r.hasFifo := by
    intro r
    unfold MetaJournal.withOwner
    split_ifs <;> exact ⟨rfl, rfl, rfl⟩
  refine ⟨?_, ?_, fun x hx => ?_, ?_⟩
  · rw [← hu]
    unfold MetaJournal.withOwner
    split_ifs <;> cases o <;> rfl
  · rw [← hg]
    unfold MetaJournal.withOwner
    split_ifs <;> cases o <;> rfl
  · cases hx
    rw [(hkeep _).2.2]
    rcases o with _ | r
    · rfl
    · exact hf r rfl
  · obtain ⟨x, hx, hmode, hval, hperm⟩ | ⟨hmode, hval⟩ := hm
    · refine .inl ⟨_, rfl, ?_, ?_, ?_⟩
      · rw [(hkeep _).1, hx]
        exact hmode
      · rw [(hkeep _).2.1, hx]
        exact hval
      · rw [(hkeep _).2.1, hx]
        exact hperm
    · refine .inr ⟨fun x hx => ?_, hval⟩
      cases hx
      rw [(hkeep _).1]
      rcases o with _ | r
      · rfl
      · exact hmode r rfl

/-- The mode of the host changes, but not where the guest looks at it. -/
theorem Agrees.host (ha : Agrees o h mode uid gid)
    (hh : (∃ x ∈ o, x.hasMode) ∨ mode = none ∨ h'.toNat &&& kPermMask = h.toNat &&& kPermMask) :
    Agrees o h' mode uid gid := by
  refine ⟨ha.uid, ha.gid, ha.fifo, ha.mode.imp_right fun ⟨hno, hval⟩ => ⟨hno, ?_⟩⟩
  obtain ⟨x, hx, hmode⟩ | hnone | hsame := hh
  · exact absurd (hmode.symm.trans (hno x hx)) nofun
  · exact .inl hnone
  · rw [hsame]
    exact hval

/-- A root process attaches: the host answers as it does to a `stat`, and not with a link. -/
theorem Agrees.prune (ha : Agrees o h mode uid gid) {lstat : Option UInt16}
    (hl : ∀ m ∈ lstat, m = h) (hlink : (∃ x ∈ o, x.hasMode) → ∀ m ∈ lstat, isLink m = false) :
    Agrees (o.bind (pruneRecord lstat)) h mode uid gid := by
  rcases o with _ | r
  · exact ha
  · simp only [bind_some, pruneRecord]
    by_cases hgone : r.hasMode ∧ ∃ m ∈ lstat, isLink m ∨ m.toNat &&& kPermMask = r.mode
    · simp only [if_pos hgone]
      obtain ⟨hmode, m, hm, hcase⟩ := hgone
      have hperm :=
        hcase.resolve_left (by rw [hlink ⟨r, rfl, hmode⟩ m hm]; exact Bool.false_ne_true)
      obtain ⟨x, hx, -, hval, -⟩ | ⟨hno, -⟩ := ha.mode
      · cases hx
        rw [hval]
        exact (ha.unset (hl m hm ▸ hperm)).drop
      · exact absurd (hmode.symm.trans (hno r rfl)) nofun
    · simp only [if_neg hgone]
      exact ha.drop

/-- The record in memory, and the one that the next replay gives: the same, or the one in memory has
lost its mode. -/
def Ahead (t o : Option MetaRecord) : Prop :=
  t = o ∨ t.isSome ∧ o.isSome ∧ ∀ x ∈ o, x.hasMode = false

theorem ahead_prune {t : Option MetaRecord} (lstat : Option UInt16)
    (h : (t.bind (pruneRecord lstat)).isSome = t.isSome) :
    Ahead t (t.bind (pruneRecord lstat)) := by
  rcases t with _ | r
  · exact .inl rfl
  · simp only [bind_some, pruneRecord, isSome_some] at h ⊢
    by_cases hgone : r.hasMode ∧ ∃ m ∈ lstat, isLink m ∨ m.toNat &&& kPermMask = r.mode
    · refine .inr ⟨rfl, h, fun x hx => ?_⟩
      split_ifs at hx
      · cases hx
      · cases hx
        rfl
    · split_ifs at h ⊢
      · cases h
      · exact .inl rfl

end Records

/-! ## Runs -/

/-- The table in memory and the one that the next replay gives both show what they should. -/
structure Inv (s : State) : Prop where
  kept : Kept { store := replay s.journal.file, file := s.journal.file }
  sound : SoundStore s.journal.store
  shows : ∀ path, Agrees (s.journal.store.table path) (s.host path) (s.ref.mode path)
    (s.ref.uid path) (s.ref.gid path)
  written : ∀ path, Agrees ((replay s.journal.file).table path) (s.host path) (s.ref.mode path)
    (s.ref.uid path) (s.ref.gid path)
  ahead : ∀ path, Ahead ((replay s.journal.file).table path) (s.journal.store.table path)

theorem Inv.start (host : Str → UInt16) : Inv { host := host } := by
  have hnone : ∀ path, Agrees none (host path) none 0 0 :=
    fun path => ⟨rfl, rfl, nofun, .inr ⟨nofun, .inl rfl⟩⟩
  exact ⟨.start, nofun, hnone, hnone, fun _ => .inl rfl⟩

variable {s : State} {path : Str}

theorem Inv.call (hi : Inv s) {op : Op} (path : Str) (hr : ReadableOp s.journal op)
    (hone : op.entries s.journal.store = [] ∧ s.journal.store.table path = none ∨
        ∃ o, op.entries s.journal.store = [(path, o)]) {host : Str → UInt16} {ref : Reference}
    (hself : Agrees ((op.apply s.journal.store).table path) (host path) (ref.mode path)
        (ref.uid path) (ref.gid path))
    (hother : ∀ q, q ≠ path → host q = s.host q ∧ ref.mode q = s.ref.mode q ∧
        ref.uid q = s.ref.uid q ∧ ref.gid q = s.ref.gid q) :
    Inv { journal := MetaJournal.step s.journal op, host := host, ref := ref } := by
  have hkept := hi.kept.append hr (sound_entries hi.sound op)
  have hfile : replay (MetaJournal.step s.journal op).file =
      (op.entries s.journal.store).foldl putEntry (replay s.journal.file) :=
    hkept.replay
  -- both tables get the same record, and had none before if there is no entry
  have hboth : (replay (MetaJournal.step s.journal op).file).table path =
      (op.apply s.journal.store).table path := by
    rw [hfile, Op.apply_eq]
    obtain ⟨hnil, hnone⟩ | ⟨o, hone⟩ := hone
    · rw [hnil, foldl_nil, foldl_nil]
      obtain heq | ⟨-, hsome, -⟩ := hi.ahead path
      · exact heq
      · rw [hnone] at hsome
        cases hsome
    · rw [hone]
      simp only [foldl_cons, foldl_nil, putEntry, put_table, update_self]
  have hmiss : ∀ q, q ≠ path → ∀ e ∈ op.entries s.journal.store, e.1 ≠ q := by
    intro q hq e he
    obtain ⟨hnil, -⟩ | ⟨o, hone⟩ := hone
    · rw [hnil] at he
      cases he
    · rw [hone, mem_singleton] at he
      rw [he]
      exact hq.symm
  have hq1 : ∀ q, q ≠ path → (op.apply s.journal.store).table q = s.journal.store.table q := by
    intro q hq
    rw [Op.apply_eq, putEntries_other (hmiss q hq)]
  have hq2 : ∀ q, q ≠ path →
      (replay (MetaJournal.step s.journal op).file).table q = (replay s.journal.file).table q := by
    intro q hq
    rw [hfile, putEntries_other (hmiss q hq)]
  refine ⟨?_, ?_, fun q => ?_, fun q => ?_, fun q => ?_⟩
  · rw [hfile]
    exact hkept
  · show SoundStore (op.apply s.journal.store)
    rw [Op.apply_eq]
    exact hi.sound.putEntries (sound_entries hi.sound op)
  · by_cases hq : q = path
    · exact hq ▸ hself
    · obtain ⟨hh, hm, hu, hg⟩ := hother q hq
      show Agrees ((op.apply s.journal.store).table q) (host q) _ _ _
      rw [hq1 q hq, hh, hm, hu, hg]
      exact hi.shows q
  · by_cases hq : q = path
    · rw [hq, hboth]
      exact hself
    · obtain ⟨hh, hm, hu, hg⟩ := hother q hq
      show Agrees _ (host q) _ _ _
      rw [hq2 q hq, hh, hm, hu, hg]
      exact hi.written q
  · by_cases hq : q = path
    · rw [hq]
      exact .inl hboth
    · rw [hq2 q hq]
      exact (hq1 q hq).symm ▸ hi.ahead q

theorem Inv.chmod (hi : Inv s) {mode : UInt32} {landed : Option UInt16}
    (hr : ReadableOp s.journal (chmodOp path mode landed)) :
    Inv (step s (.chmod path mode landed)) := by
  have ha := hi.shows path
  refine hi.call path hr ?_ ?_ fun q hq => ⟨?_, update_of_ne hq _ _, rfl, rfl⟩
  · rw [chmodOp, Op.entries]
    split_ifs with hsame
    · cases ht : s.journal.store.table path with
      | none => exact .inl ⟨rfl, rfl⟩
      | some r => exact .inr ⟨_, rfl⟩
    · exact .inr ⟨_, rfl⟩
  · dsimp only
    rw [update_self, chmodOp, Op.apply, MetaStore.setMode]
    split_ifs with hsame
    · obtain ⟨h, hland, hperm⟩ : ∃ h, landed = some h ∧
          h.toNat &&& kPermMask = mode.toNat &&& kPermMask := by
        rcases landed with _ | h
        · cases hsame
        · exact ⟨h, rfl, beq_iff_eq.1 hsame⟩
      rw [hland]
      simp only [update_self]
      cases ht : s.journal.store.table path with
      | none =>
        rw [ht] at ha
        simp only [ht]
        exact ⟨ha.uid, ha.gid, by simp, .inr ⟨by simp, .inr (congrArg some hperm.symm)⟩⟩
      | some r =>
        rw [ht] at ha
        simp only [put_table, update_self]
        exact (ha.unset hperm).drop
    · rw [put_table, update_self]
      exact ha.set _ _
  · cases landed with
    | none => rfl
    | some h => exact update_of_ne hq _ _

theorem Inv.chown (hi : Inv s) {uid gid : UInt32}
    (hr : ReadableOp s.journal (.setOwner path uid gid)) : Inv (step s (.chown path uid gid)) := by
  have hupd : ∀ (old : Str → ℕ) (id : UInt32),
      (if id.toNat ≠ keepId then update old path id.toNat else old) path =
      if id.toNat ≠ keepId then id.toNat else old path := by
    intro old id
    split_ifs
    · exact update_self _ _ _
    · rfl
  have hmiss : ∀ (old : Str → ℕ) (id : UInt32) (q : Str), q ≠ path →
      (if id.toNat ≠ keepId then update old path id.toNat else old) q = old q := by
    intro old id q hq
    split_ifs
    · exact update_of_ne hq _ _
    · rfl
  have ha := hi.shows path
  refine hi.call path hr ?_ ?_ fun q hq => ⟨rfl, rfl, hmiss _ _ q hq, hmiss _ _ q hq⟩
  · rw [Op.entries]
    split_ifs with hdefault
    · exact .inl ⟨rfl, isNone_iff_eq_none.1 hdefault.1⟩
    · exact .inr ⟨_, rfl⟩
  · dsimp only
    rw [hupd, hupd, Op.apply, MetaStore.setOwner]
    by_cases hdefault : (s.journal.store.table path).isNone ∧ (uid.toNat = 0 ∨ uid.toNat = keepId) ∧
        (gid.toNat = 0 ∨ gid.toNat = keepId)
    · rw [if_pos hdefault]
      obtain ⟨hnone, hu, hg⟩ := hdefault
      have hnone := isNone_iff_eq_none.1 hnone
      have hid : ∀ {id old : ℕ}, id = 0 ∨ id = keepId → 0 = old →
          old = if id ≠ keepId then id else old := by
        intro id old hid hold
        split_ifs with hne
        · rw [hid.resolve_right hne, hold]
        · rfl
      rw [← hid hu (by rw [← ha.uid, hnone]; rfl), ← hid hg (by rw [← ha.gid, hnone]; rfl)]
      exact ha
    · rw [if_neg hdefault]
      have hdrop := (ha.withOwner uid.toNat gid.toNat).drop
      simp only [put_table, update_self]
      exact hdrop

theorem Inv.changed (hi : Inv s) {mode : UInt16} (hc : Careful s (.host path mode)) :
    Inv (step s (.host path mode)) := by
  refine ⟨hi.kept, hi.sound, fun q => ?_, fun q => ?_, hi.ahead⟩
  · by_cases hq : q = path
    · subst hq
      refine (hi.shows q).host ?_
      simp only [step, update_self]
      exact hc.imp_left fun h => (any_eq_true _ _).1 h
    · simp only [step, update_of_ne hq]
      exact hi.shows q
  · by_cases hq : q = path
    · subst hq
      refine (hi.written q).host ?_
      simp only [step, update_self]
      obtain hmode | hrest := hc
      · obtain ⟨x, hx, hmode⟩ := (any_eq_true _ _).1 hmode
        obtain heq | ⟨-, -, hno⟩ := hi.ahead q
        · exact .inl ⟨x, heq ▸ hx, hmode⟩
        · exact absurd (hmode.symm.trans (hno x hx)) nofun
      · exact .inr hrest
    · simp only [step, update_of_ne hq]
      exact hi.written q

theorem sound_prune {s : MetaStore} (hs : SoundStore s) (lstat : Str → Option UInt16) :
    SoundStore (prune lstat s) := by
  intro path r hr
  obtain ⟨old, hold, hr⟩ := bind_eq_some_iff.1 hr
  have hsound := hs path old hold
  refine Bounded.entry ?_ r hr
  split_ifs
  · exact ⟨hsound.mode, hsound.uid, hsound.gid, hsound.nlink⟩
  · exact hsound.bounded

theorem foldl_rewritten {s : MetaStore} {order : List Str}
    (hall : ∀ path, (s.table path).isSome → path ∈ order) :
    (rewritten s order).foldl putEntry {} = s := by
  have hgen : ∀ (order : List Str) (s0 : MetaStore) (q : Str),
      ((rewritten s order).foldl putEntry s0).table q =
      if q ∈ order ∧ (s.table q).isSome then s.table q else s0.table q := by
    intro order
    induction order with
    | nil => exact fun s0 q => (if_neg (fun h => nomatch h.1)).symm
    | cons path order ih =>
      intro s0 q
      rw [rewritten, filterMap_cons]
      cases hr : s.table path with
      | none =>
        refine (ih s0 q).trans (if_congr ?_ rfl rfl)
        rw [mem_cons]
        refine ⟨fun h => ⟨.inr h.1, h.2⟩, fun h => ⟨h.1.resolve_left ?_, h.2⟩⟩
        rintro rfl
        rw [hr] at h
        exact Bool.noConfusion h.2
      | some r =>
        refine (ih _ q).trans ?_
        by_cases hq : q = path
        · subst hq
          rw [putEntry, put_table, update_self, hr, ite_self]
          exact (if_pos ⟨mem_cons_self, rfl⟩).symm
        · rw [putEntry, put_table, update_of_ne hq]
          exact if_congr (by rw [mem_cons, or_iff_right hq]) rfl rfl
  have htable : ((rewritten s order).foldl putEntry {}).table = s.table := by
    funext q
    rw [hgen]
    split_ifs with hq
    · rfl
    · cases hr : s.table q with
      | none => rfl
      | some r => exact absurd ⟨hall q (by rw [hr]; rfl), by rw [hr]; rfl⟩ hq
  rw [← MetaStore.mk.injEq] at htable
  exact htable

theorem Inv.attach (hi : Inv s) {compact : Bool} {lstat : Str → Option UInt16} {order : List Str}
    (hv : Valid s (.attach compact lstat order)) (hc : Careful s (.attach compact lstat order)) :
    Inv (step s (.attach compact lstat order)) := by
  obtain ⟨-, horder, hhost⟩ := hv
  cases compact with
  | false => exact ⟨hi.kept, hi.kept.sound, hi.written, hi.written, fun _ => .inl rfl⟩
  | true =>
    obtain ⟨hread, hlink⟩ := hc rfl
    have hsound := sound_prune hi.kept.sound lstat
    have hall : ∀ path, ((prune lstat (replay s.journal.file)).table path).isSome →
        path ∈ order := by
      intro path hsome
      rw [horder]
      obtain ⟨r, hr⟩ := isSome_iff_exists.1 hsome
      obtain ⟨old, hold, -⟩ := bind_eq_some_iff.1 hr
      rw [hold]
      rfl
    have hshows : ∀ path, Agrees ((prune lstat (replay s.journal.file)).table path) (s.host path)
      (s.ref.mode path)
        (s.ref.uid path) (s.ref.gid path) := fun path =>
      (hi.written path).prune (hhost path) fun ⟨x, hx, hmode⟩ =>
        hlink path ((any_eq_true _ _).2 ⟨x, hx, hmode⟩)
    simp only [step, MetaPrune.attach, Bool.not_true, Bool.false_eq_true, if_false]
    split_ifs with hold
    · have hsounds :
          ∀ e ∈ rewritten (prune lstat (replay s.journal.file)) order, ∀ r ∈ e.2, Sound r := by
        intro e he r hr
        obtain ⟨path, -, he⟩ := mem_filterMap.1 he
        obtain ⟨r', hr', rfl⟩ := map_eq_some_iff.1 he
        cases hr
        exact hsound path _ hr'
      have hkept := Kept.start.append hread hsounds
      rw [foldl_rewritten hall] at hkept
      have hfile := hkept.replay
      simp only [nil_append] at hkept hfile
      refine ⟨?_, hsound, hshows, ?_, ?_⟩
      · rw [hfile]
        exact hkept
      · rw [hfile]
        exact hshows
      · rw [hfile]
        exact fun _ => .inl rfl
    · refine ⟨hi.kept, hsound, hshows, hi.written, fun path => ahead_prune _ ?_⟩
      have hlen : (rewritten (prune lstat (replay s.journal.file)) order).length = order.length :=
        Nat.le_antisymm (length_filterMap_le _ _) (Nat.not_lt.1 fun h => hold (.inl h))
      have hkeep := filterMap_length_eq_length.1 hlen
      cases ht : (replay s.journal.file).table path with
      | none => rfl
      | some r =>
        have hsome := hkeep path ((horder path).2 (by rw [ht]; rfl))
        rw [isSome_map, prune] at hsome
        simp only [ht] at hsome
        exact hsome

theorem Inv.step (hi : Inv s) {e : Event} (hv : Valid s e) (hc : Careful s e) : Inv (step s e) := by
  cases e with
  | chmod path mode landed => exact hi.chmod hc
  | chown path uid gid => exact hi.chown hc
  | host path mode => exact hi.changed hc
  | attach compact lstat order => exact hi.attach hv hc

/-- The host does not keep the set-id bit, and the next process reads the record from the
journal. -/
def setId (path name : Str) (compact : Bool) : List Event :=
  [.chmod path 0o4755 (some 0o100755), .attach compact (fun _ => none) [name]]

def everyday : State := { host := fun _ => 0o100755 }

theorem valid_setId {name : Str} {compact : Bool}
    (h : replay (step everyday (.chmod path 0o4755 (some 0o100755))).journal.file =
      ({} : MetaStore).put name (some { mode := 0o4755, hasMode := true })) :
    Along step Valid everyday (setId path name compact) := by
  refine ⟨trivial, ⟨nodup_singleton _, fun q => ?_, nofun⟩, trivial⟩
  rw [h, put_table, mem_singleton]
  by_cases hq : q = name
  · rw [hq, update_self]
    exact iff_of_true rfl rfl
  · rw [update_of_ne hq]
    exact iff_of_false hq Bool.false_ne_true

end Linuxity.Kernel.MetaPrune

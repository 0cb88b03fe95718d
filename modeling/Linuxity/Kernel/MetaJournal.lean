import Linuxity.Kernel.MetaStore
import Linuxity.Kernel.Whiteout
import Linuxity.Logic.Numeral

/-!
# Kernel.MetaJournal — the journal of recorded modes and owners (`kernel/meta_store.hpp`)

Every change of the table adds a line to a text file: the numbers of the record and the path, or a
mark that the path has no record any more.  The next run reads the lines back.
-/

namespace Linuxity.Kernel

open Logic Posix List Option

def MetaRecord.haveBits (r : MetaRecord) : ℕ :=
  r.hasMode.toNat + 2 * r.hasUid.toNat + 4 * r.hasGid.toNat + 8 * r.hasNlink.toNat +
    16 * r.hasFifo.toNat

namespace MetaJournal

abbrev Entry := Str × Option MetaRecord

def recordLine (path : Str) (r : MetaRecord) : Str :=
  printNum 8 r.mode ++ ' ' ::
    (printNum 10 r.uid ++ ' ' :: (printNum 10 r.gid ++ ' ' :: (printNum 10 r.haveBits ++ ' ' ::
    (if r.hasNlink then printNum 10 r.nlink ++ ' ' :: path else path))))

def tombstone (path : Str) : Str :=
  printNum 8 0 ++ ' ' ::
    (printNum 10 0 ++ ' ' :: (printNum 10 0 ++ ' ' :: (printNum 10 255 ++ ' ' :: path)))

def entryLine : Entry → Str
  | (path, some r) => recordLine path r
  | (path, none) => tombstone path

inductive Op where
  | setMode (path : Str) (mode : UInt32) (hostMode : Option UInt32)
  | setOwner (path : Str) (uid gid : UInt32)
  | forget (path : Str)
  | rename (src dst : Str)

def Op.paths : Op → List Str
  | .setMode path _ _ => [path]
  | .setOwner path _ _ => [path]
  | .forget path => [path]
  | .rename src dst => [src, dst]

def Op.apply (s : MetaStore) : Op → MetaStore
  | .setMode path mode hostMode => s.setMode path mode.toNat (hostMode.map UInt32.toNat)
  | .setOwner path uid gid => s.setOwner path uid.toNat gid.toNat
  | .forget path => s.forget path
  | .rename src dst => s.rename src dst

def unsetMode (r : MetaRecord) : Option MetaRecord :=
  if { r with hasMode := false }.isRedundant then none else some { r with hasMode := false }

def withOwner (r : MetaRecord) (uid gid : ℕ) : MetaRecord :=
  let r := if uid ≠ keepId then { r with uid := uid, hasUid := true } else r
  if gid ≠ keepId then { r with gid := gid, hasGid := true } else r

def Op.entries (s : MetaStore) : Op → List Entry
  | .setMode path mode hostMode =>
    if (hostMode.map UInt32.toNat).any (fun hm => hm &&& 0o7777 == mode.toNat &&& 0o7777) then
      match s.table path with
      | none => []
      | some r => [(path, unsetMode r)]
    else [(path,
        some { (s.table path).getD {} with mode := mode.toNat &&& 0o7777, hasMode := true })]
  | .setOwner path uid gid =>
    if (s.table path).isNone ∧ (uid.toNat = 0 ∨ uid.toNat = keepId) ∧
      (gid.toNat = 0 ∨ gid.toNat = keepId) then []
    else
      let r := withOwner ((s.table path).getD {}) uid.toNat gid.toNat
      [(path, if r.isRedundant then none else some r)]
  | .forget path => if (s.table path).isSome then [(path, none)] else []
  | .rename src dst =>
    match s.table src with
    | none => if (s.table dst).isSome then [(dst, none)] else []
    | some r => [(src, none), (dst, some r)]

structure Journaled where
  store : MetaStore := {}
  file : Str := []

def step (j : Journaled) (op : Op) : Journaled :=
  { store := op.apply j.store, file := j.file ++ unlines '\n' ((op.entries j.store).map entryLine) }

/-! ## Reading it back -/

/-- `"%o %u %u %u %n"`: the four numbers and the rest of the line. -/
def scanHeader (line : Str) : Option (ℕ × ℕ × ℕ × ℕ × Str) := do
  let (mode, line) ← scanUnsigned 8 line
  let (uid, line) ← scanUnsigned 10 (skipSpace line)
  let (gid, line) ← scanUnsigned 10 (skipSpace line)
  let (bits, line) ← scanUnsigned 10 (skipSpace line)
  return (mode, uid, gid, bits, skipSpace line)

def scanNlink (line : Str) : ℕ × Str :=
  match scanUnsigned 10 line with
  | some (nlink, rest) => (nlink, skipSpace rest)
  | none => (0, line)

/-- The path gets this record; one that says nothing is left out. -/
def putRecord (s : MetaStore) (path : Str) (r : MetaRecord) : MetaStore :=
  s.put path (if r.isRedundant then none else some r)

def replayLine (s : MetaStore) (line : Str) : MetaStore :=
  match scanHeader line with
  | none => s
  | some (mode, uid, gid, bits, line) =>
    let (nlink, line) := if bits ≠ 255 ∧ bits.testBit 3 then scanNlink line else (0, line)
    let path := Whiteout.chomp line
    if path = [] then s
    else if bits = 255 then s.put path none
    else putRecord s path { mode, uid, gid, nlink, hasMode := bits.testBit 0,
                            hasUid := bits.testBit 1, hasGid := bits.testBit 2,
                            hasNlink := bits.testBit 3, hasFifo := bits.testBit 4 }

def lineMax : ℕ := 8191

def replay (file : Str) : MetaStore := (linesOf '\n' lineMax file).foldl replayLine {}

/-! ## Lines that are read back -/

/-- A path that comes back from the end of a line. -/
structure Plain (path : Str) : Prop where
  newline : '\n' ∉ path
  last : path.getLast? ≠ some '\r'
  first : ∃ c ∈ path.head?, isSpace c = false

/-- A record as the calls make them. -/
structure Sound (r : MetaRecord) : Prop where
  mode : r.mode < 2 ^ 32
  uid : r.uid < 2 ^ 32
  gid : r.gid < 2 ^ 32
  nlink : r.hasNlink = false ∧ r.nlink = 0
  useful : r.isRedundant = false

theorem haveBits_spec (r : MetaRecord) :
    r.haveBits < 255 ∧ r.haveBits.testBit 0 = r.hasMode ∧ r.haveBits.testBit 1 = r.hasUid ∧
      r.haveBits.testBit 2 = r.hasGid ∧ r.haveBits.testBit 3 = r.hasNlink ∧
      r.haveBits.testBit 4 = r.hasFifo := by
  obtain ⟨mode, uid, gid, nlink, m, u, g, n, f⟩ := r
  dsimp only [MetaRecord.haveBits]
  revert m u g n f
  decide

variable {path : Str} {r : MetaRecord} {e : Entry} {s : MetaStore} {es : List Entry}
  {j : Journaled}

theorem scanHeader_line {mode uid gid bits : ℕ} (hm : mode < 2 ^ 32) (hu : uid < 2 ^ 32)
    (hg : gid < 2 ^ 32) (hb : bits < 2 ^ 32) (hfirst : ∃ c ∈ path.head?, isSpace c = false) :
    scanHeader (printNum 8 mode ++ ' ' ::
        (printNum 10 uid ++ ' ' :: (printNum 10 gid ++ ' ' :: (printNum 10 bits ++ ' ' :: path)))) =
      some (mode, uid, gid, bits, path) := by
  have hstop : ∀ (b : ℕ) (rest : Str), ∀ c ∈ (' ' :: rest).head?, isDigitOf b c = false := by
    intro b rest c hc
    cases hc
    rw [isDigitOf, Bool.and_eq_false_iff]
    exact .inl (by decide)
  have hnum : ∀ (n : ℕ) (rest : Str),
      skipSpace (' ' :: (printNum 10 n ++ rest)) = printNum 10 n ++ rest := by
    intro n rest
    obtain ⟨hne, hall, -⟩ := printNum_spec (b := 10) (by decide) (by decide) n
    rcases hp : printNum 10 n with _ | ⟨c, ds⟩
    · exact absurd hp hne
    · have hc := (not_isSpace_of_digit (hall c (hp ▸ (.head _)))).1
      rw [skipSpace, dropWhile_cons_of_pos rfl, cons_append,
        dropWhile_cons_of_neg (by rw [hc]; exact Bool.false_ne_true)]
  have hpath : skipSpace (' ' :: path) = path := by
    obtain ⟨c, hc, hspace⟩ := hfirst
    rcases path with _ | ⟨d, path⟩
    · cases hc
    · cases hc
      rw [skipSpace, dropWhile_cons_of_pos rfl,
        dropWhile_cons_of_neg (by rw [hspace]; exact Bool.false_ne_true)]
  unfold scanHeader
  rw [scanUnsigned_print (by decide) (by decide) hm (hstop 8 _)]
  simp only [bind_eq_bind, bind_some]
  rw [hnum, scanUnsigned_print (by decide) (by decide) hu (hstop 10 _)]
  simp only [bind_some]
  rw [hnum, scanUnsigned_print (by decide) (by decide) hg (hstop 10 _)]
  simp only [bind_some]
  rw [hnum, scanUnsigned_print (by decide) (by decide) hb (hstop 10 _)]
  simp only [bind_some]
  rw [hpath]
  rfl

theorem Plain.nonempty (h : Plain path) : path ≠ [] := by
  rintro rfl
  obtain ⟨c, hc, -⟩ := h.first
  cases hc

theorem Plain.first_line (h : Plain path) (nl : Str) :
    ∃ c ∈ (path ++ nl).head?, isSpace c = false := by
  obtain ⟨c, hc, hspace⟩ := h.first
  rcases path with _ | ⟨d, path⟩
  · cases hc
  · exact ⟨c, hc, hspace⟩

/-- The path comes back with its line, and also if the newline is cut off. -/
theorem Plain.chomp (h : Plain path) {nl : Str} (hnl : nl = [] ∨ nl = ['\n']) :
    Whiteout.chomp (path ++ nl) = path := by
  have hself := Whiteout.chomp_plain h.newline h.last
  rcases hnl with rfl | rfl
  · rwa [append_nil]
  · rwa [Whiteout.chomp_newline]

theorem replayLine_record (hp : Plain path) (hr : Sound r) {nl : Str} (hend : nl = [] ∨ nl = ['\n'])
    (s : MetaStore) : replayLine s (recordLine path r ++ nl) = s.put path (some r) := by
  obtain ⟨hlt, hm, hu, hg, hn, hf⟩ := haveBits_spec r
  obtain ⟨hnl, hnl0⟩ := hr.nlink
  have hline : recordLine path r ++ nl =
      printNum 8 r.mode ++ ' ' :: (printNum 10 r.uid ++ ' ' :: (printNum 10 r.gid ++ ' ' ::
      (printNum 10 r.haveBits ++ ' ' :: (path ++ nl)))) := by
    rw [recordLine, hnl]
    simp
  have hplain : ¬(r.haveBits ≠ 255 ∧ r.haveBits.testBit 3) := by
    rw [hn, hnl]
    exact fun h => Bool.false_ne_true h.2
  rw [replayLine, hline, scanHeader_line hr.mode hr.uid hr.gid (by omega) (hp.first_line nl)]
  simp only [if_neg hplain]
  rw [hp.chomp hend, if_neg hp.nonempty, if_neg (by omega), hm, hu, hg, hn, hf, ← hnl0, putRecord]
  exact congrArg _ (if_neg (by rw [Bool.not_eq_true]; exact hr.useful))

theorem replayLine_tombstone (hp : Plain path) {nl : Str} (hnl : nl = [] ∨ nl = ['\n'])
    (s : MetaStore) : replayLine s (tombstone path ++ nl) = s.put path none := by
  have hline : tombstone path ++ nl =
      printNum 8 0 ++ ' ' ::
      (printNum 10 0 ++ ' ' ::
        (printNum 10 0 ++ ' ' :: (printNum 10 255 ++ ' ' :: (path ++ nl)))) := by
    rw [tombstone]
    simp
  rw [replayLine, hline,
    scanHeader_line (by decide) (by decide) (by decide) (by decide) (hp.first_line nl)]
  have hmark : ¬((255 : ℕ) ≠ 255 ∧ Nat.testBit 255 3) := fun h => h.1 rfl
  simp only [if_neg hmark]
  rw [hp.chomp hnl, if_neg hp.nonempty, if_pos trivial]

def Readable (e : Entry) : Prop := Plain e.1 ∧ (entryLine e).length ≤ lineMax

def putEntry (s : MetaStore) (e : Entry) : MetaStore := s.put e.1 e.2

theorem replayLine_entry (hp : Plain e.1) (hr : ∀ r ∈ e.2, Sound r) {nl : Str}
    (hnl : nl = [] ∨ nl = ['\n']) (s : MetaStore) :
    replayLine s (entryLine e ++ nl) = putEntry s e := by
  obtain ⟨path, _ | r⟩ := e
  · exact replayLine_tombstone hp hnl s
  · exact replayLine_record hp (hr r rfl) hnl s

theorem not_mem_printNum {b n : ℕ} (h2 : 2 ≤ b) (h10 : b ≤ 10) : '\n' ∉ printNum b n := by
  intro hmem
  exact absurd ((printNum_spec h2 h10 n).2.1 _ hmem) (by rw [isDigitOf]; simp)

theorem newline_not_mem_entryLine (h : Plain e.1) : '\n' ∉ entryLine e := by
  have hnum := fun n => not_mem_printNum (b := 10) (n := n) (by decide) (by decide)
  have hoct := fun n => not_mem_printNum (b := 8) (n := n) (by decide) (by decide)
  have hsp : '\n' ≠ ' ' := by decide
  obtain ⟨path, _ | r⟩ := e
  · simp only [entryLine, tombstone, mem_append, mem_cons, not_or, hnum, hoct, hsp, h.newline,
      not_false_eq_true, and_true]
  · simp only [entryLine, recordLine, mem_append, mem_cons, not_or, hnum, hoct, hsp,
      not_false_eq_true, true_and]
    split_ifs
    · simp only [mem_append, mem_cons, not_or, hnum, hsp, h.newline, not_false_eq_true, and_true]
    · exact h.newline

/-! ## The calls as entries -/

@[simp] theorem put_table (s : MetaStore) (path : Str) (r : Option MetaRecord) :
    (s.put path r).table = Function.update s.table path r := rfl

theorem put_self (s : MetaStore) (path : Str) : s.put path (s.table path) = s := by
  rw [MetaStore.put, Function.update_eq_self]

theorem Op.apply_eq (s : MetaStore) (op : Op) : op.apply s = (op.entries s).foldl putEntry s := by
  cases op with
  | setMode path mode hostMode =>
    rw [Op.apply, Op.entries, MetaStore.setMode]
    split_ifs with hsame
    · cases hr : s.table path with
      | none | some => rfl
    · rfl
  | setOwner path uid gid =>
    rw [Op.apply, Op.entries, MetaStore.setOwner]
    by_cases hdefault : (s.table path).isNone ∧ (uid.toNat = 0 ∨ uid.toNat = keepId) ∧
      (gid.toNat = 0 ∨ gid.toNat = keepId)
    · rw [if_pos hdefault, if_pos hdefault]
      rfl
    · rw [if_neg hdefault, if_neg hdefault]
      rfl
  | forget path =>
    rw [Op.apply, Op.entries, MetaStore.forget]
    split_ifs with hsome
    · rfl
    · have hnone : s.table path = none := not_isSome_iff_eq_none.1 hsome
      exact (congrArg (s.put path) hnone.symm).trans (put_self s path)
  | rename src dst =>
    rw [Op.apply, Op.entries, MetaStore.rename]
    cases hsrc : s.table src with
    | none =>
      split_ifs with hsome
      · rfl
      · have hnone : s.table dst = none := not_isSome_iff_eq_none.1 hsome
        exact (congrArg (s.put dst) hnone.symm).trans (put_self s dst)
    | some r => rfl

/-! ## What the calls record -/

def SoundStore (s : MetaStore) : Prop := ∀ path, ∀ r ∈ s.table path, Sound r

/-- A record to which a call may add; it may say nothing yet. -/
structure Bounded (r : MetaRecord) : Prop where
  mode : r.mode < 2 ^ 32
  uid : r.uid < 2 ^ 32
  gid : r.gid < 2 ^ 32
  nlink : r.hasNlink = false ∧ r.nlink = 0

theorem Bounded.sound (h : Bounded r) (hr : r.isRedundant = false) : Sound r :=
  ⟨h.mode, h.uid, h.gid, h.nlink, hr⟩

theorem Sound.bounded (h : Sound r) : Bounded r := ⟨h.mode, h.uid, h.gid, h.nlink⟩

theorem SoundStore.getD (hs : SoundStore s) (path : Str) : Bounded ((s.table path).getD {}) := by
  cases hr : s.table path with
  | none => exact ⟨by decide, by decide, by decide, rfl, rfl⟩
  | some r => exact (hs path r hr).bounded

theorem Bounded.withOwner (h : Bounded r) (uid gid : UInt32) :
    Bounded (withOwner r uid.toNat gid.toNat) := by
  unfold MetaJournal.withOwner
  split_ifs
  · exact ⟨h.mode, uid.toNat_lt, gid.toNat_lt, h.nlink⟩
  · exact ⟨h.mode, uid.toNat_lt, h.gid, h.nlink⟩
  · exact ⟨h.mode, h.uid, gid.toNat_lt, h.nlink⟩
  · exact h

/-- An entry that leaves out a record that says nothing. -/
theorem Bounded.entry (h : Bounded r) :
    ∀ r' ∈ (if r.isRedundant then none else some r), Sound r' := by
  intro r' hr'
  split_ifs at hr' with hred
  · cases hr'
  · cases hr'
    exact h.sound (Bool.eq_false_iff.2 hred)

theorem sound_entries (hs : SoundStore s) (op : Op) : ∀ e ∈ op.entries s, ∀ r ∈ e.2, Sound r := by
  cases op with
  | setMode path mode hostMode =>
    rw [Op.entries]
    split_ifs with hsame
    · cases hr : s.table path with
      | none => exact nofun
      | some r =>
        intro e he
        obtain rfl := mem_singleton.1 he
        have hr := hs path r hr
        exact Bounded.entry ⟨hr.mode, hr.uid, hr.gid, hr.nlink⟩
    · intro e he r hr
      obtain rfl := mem_singleton.1 he
      cases hr
      have hold := hs.getD path
      refine ⟨?_, hold.uid, hold.gid, hold.nlink, ?_⟩
      · exact Nat.lt_of_le_of_lt Nat.and_le_right (by decide)
      · simp [MetaRecord.isRedundant]
  | setOwner path uid gid =>
    rw [Op.entries]
    split_ifs with hdefault
    · exact nofun
    · intro e he
      obtain rfl := mem_singleton.1 he
      exact ((hs.getD path).withOwner uid gid).entry
  | forget path =>
    rw [Op.entries]
    split_ifs
    · intro e he r hr
      obtain rfl := mem_singleton.1 he
      cases hr
    · exact nofun
  | rename src dst =>
    rw [Op.entries]
    cases hsrc : s.table src with
    | none =>
      split_ifs
      · intro e he r hr
        obtain rfl := mem_singleton.1 he
        cases hr
      · exact nofun
    | some rec =>
      intro e he r hr
      rw [mem_cons, mem_singleton] at he
      obtain rfl | rfl := he
      · cases hr
      · cases hr
        exact hs src _ hsrc

theorem SoundStore.putEntries (hes : ∀ e ∈ es, ∀ r ∈ e.2, Sound r) (hs : SoundStore s) :
    SoundStore (es.foldl putEntry s) := by
  induction es generalizing s with
  | nil => exact hs
  | cons e es ih =>
    refine ih (fun e' he' => hes e' (.tail _ he')) fun path r hr => ?_
    by_cases hpath : path = e.1
    · rw [hpath, putEntry, put_table, Function.update_self] at hr
      exact hes e mem_cons_self r hr
    · rw [putEntry, put_table, Function.update_of_ne hpath] at hr
      exact hs path r hr

/-! ## Runs -/

/-- The file is made of lines that are read back, and they give the table. -/
structure Kept (j : Journaled) : Prop where
  lines : ∃ ls : List Str, j.file = unlines '\n' ls ∧
    (∀ l ∈ ls, '\n' ∉ l ∧ l.length ≤ lineMax ∧ ∀ s, replayLine s l = replayLine s (l ++ ['\n'])) ∧
    (ls.map (· ++ ['\n'])).foldl replayLine {} = j.store
  sound : SoundStore j.store

theorem Kept.start : Kept {} := ⟨⟨[], rfl, nofun, rfl⟩, nofun⟩

theorem Kept.replay (h : Kept j) : replay j.file = j.store := by
  obtain ⟨ls, hfile, hls, hstore⟩ := h.lines
  rw [MetaJournal.replay, hfile, foldl_linesOf (by decide) (fun _ => rfl) hls, hstore]

theorem foldl_replay (hr : ∀ e ∈ es, Readable e) (hs : ∀ e ∈ es, ∀ r ∈ e.2, Sound r)
    (s : MetaStore) :
    ((es.map entryLine).map (· ++ ['\n'])).foldl replayLine s = es.foldl putEntry s := by
  induction es generalizing s with
  | nil => rfl
  | cons e es ih =>
    rw [map_cons, map_cons, foldl_cons, foldl_cons,
      replayLine_entry (hr e (.head _)).1 (hs e (.head _)) (.inr rfl)]
    exact ih (fun e' h => hr e' (.tail _ h)) (fun e' h => hs e' (.tail _ h)) _

/-- Every line that a call writes is one that the next run reads. -/
def ReadableOp (j : Journaled) (op : Op) : Prop := ∀ e ∈ op.entries j.store, Readable e

theorem Kept.append (h : Kept j) (hr : ∀ e ∈ es, Readable e) (hs : ∀ e ∈ es, ∀ r ∈ e.2, Sound r) :
    Kept { store := es.foldl putEntry j.store,
           file := j.file ++ unlines '\n' (es.map entryLine) } := by
  obtain ⟨ls, hfile, hls, hstore⟩ := h.lines
  refine ⟨⟨ls ++ es.map entryLine, ?_, fun l hl => ?_, ?_⟩, h.sound.putEntries hs⟩
  · rw [hfile, unlines_append]
  · obtain hl | hl := mem_append.1 hl
    · exact hls l hl
    · obtain ⟨e, he, rfl⟩ := mem_map.1 hl
      have hp := (hr e he).1
      refine ⟨newline_not_mem_entryLine hp, (hr e he).2, fun s => ?_⟩
      rw [replayLine_entry hp (hs e he) (.inr rfl), ← replayLine_entry hp (hs e he) (.inl rfl),
        append_nil]
  · rw [map_append, foldl_append, hstore, foldl_replay hr hs]

theorem Kept.step {op : Op} (h : Kept j) (hr : ReadableOp j op) : Kept (step j op) := by
  rw [MetaJournal.step, Op.apply_eq]
  exact h.append hr (sound_entries h.sound op)

def run (ops : List Op) : Journaled := ops.foldl step {}

theorem entries_paths {op : Op} (h : e ∈ op.entries s) : e.1 ∈ op.paths := by
  cases op with
  | setMode path mode hostMode =>
    rw [Op.entries] at h
    split_ifs at h
    · cases hr : s.table path with
      | none =>
        rw [hr] at h
        cases h
      | some r =>
        rw [hr] at h
        exact mem_singleton.1 h ▸ mem_singleton_self _
    · exact mem_singleton.1 h ▸ mem_singleton_self _
  | setOwner path uid gid =>
    rw [Op.entries] at h
    split_ifs at h
    · cases h
    · exact mem_singleton.1 h ▸ mem_singleton_self _
  | forget path =>
    rw [Op.entries] at h
    split_ifs at h
    · exact mem_singleton.1 h ▸ mem_singleton_self _
    · cases h
  | rename src dst =>
    rw [Op.entries] at h
    cases hsrc : s.table src with
    | none =>
      rw [hsrc] at h
      split_ifs at h
      · exact mem_singleton.1 h ▸ .tail _ (mem_singleton_self _)
      · cases h
    | some r =>
      rw [hsrc] at h
      obtain rfl | h := mem_cons.1 h
      · exact mem_cons_self
      · exact mem_singleton.1 h ▸ .tail _ (mem_singleton_self _)

theorem putEntries_other {q : Str} (h : ∀ e ∈ es, e.1 ≠ q) (s : MetaStore) :
    (es.foldl putEntry s).table q = s.table q := by
  induction es generalizing s with
  | nil => rfl
  | cons e es ih =>
    rw [foldl_cons, ih (fun e' h' => h e' (.tail _ h')), putEntry, put_table,
      Function.update_of_ne (h e (.head _)).symm]

/-- **Replaying the journal gives the table back** after any calls whose lines can be read, and one
more such call changes what is loaded for the paths it names only. -/
theorem replay_run (ops : List Op) (hread : Along step ReadableOp {} ops) :
    replay (run ops).file = (run ops).store ∧
    ∀ op, ReadableOp (run ops) op → ∀ q ∉ op.paths,
      (replay (step (run ops) op).file).table q = (replay (run ops).file).table q := by
  have hkept : Kept (run ops) := hread.keeps (fun _ _ => Kept.step) .start
  refine ⟨hkept.replay, fun op hr q hq => ?_⟩
  rw [(hkept.step hr).replay, hkept.replay, step, Op.apply_eq, putEntries_other]
  exact fun e he heq => hq (heq ▸ entries_paths he)

/-- The guest makes a file whose name has a second line that looks like a record. -/
def forged : Str := "/x\n0 7 7 2 /etc/shadow"

/-- A change of that file's mode makes another file the property of another user in the next run. -/
theorem newline_forges_record :
    (run [.setMode forged 0o600 none]).store.table "/etc/shadow".toList = none ∧
      (replay (run [.setMode forged 0o600 none]).file).table "/etc/shadow".toList =
        some { uid := 7, gid := 7, hasUid := true } := by
  decide

/-- Two files get a record, one of them is renamed, and the record of the other is dropped. -/
def fewOps : List Op :=
  [.setMode "/x" 0o600 none, .setOwner "/y" 7 7, .rename "/x" "/z", .forget "/y"]

theorem plain_letter {c : Char} (h : c ≠ '\n' ∧ c ≠ '\r') : Plain ['/', c] :=
  ⟨by simp [h.1.symm], by simpa using h.2, '/', rfl, by decide⟩

theorem replay_run_few : replay (run fewOps).file = (run fewOps).store := by
  refine (replay_run fewOps ⟨?_, ?_, ?_, ?_, trivial⟩).1
  · intro e he
    obtain rfl := mem_singleton.1 he
    exact ⟨plain_letter (by decide), by decide⟩
  · intro e he
    obtain rfl := mem_singleton.1 he
    exact ⟨plain_letter (by decide), by decide⟩
  · intro e he
    obtain rfl | he := mem_cons.1 he
    · exact ⟨plain_letter (by decide), by decide⟩
    · obtain rfl := mem_singleton.1 he
      exact ⟨plain_letter (by decide), by decide⟩
  · intro e he
    obtain rfl := mem_singleton.1 he
    exact ⟨plain_letter (by decide), by decide⟩

end MetaJournal

end Linuxity.Kernel

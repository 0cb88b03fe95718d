import Linuxity.Runtime.Books
import Linuxity.Runtime.Native

/-!
# Runtime.Records — a rename and the recorded modes and owners

A record belongs to a path.  When a path is renamed, its own record moves with it; the records of
the paths below it stay where they are.
-/

namespace Linuxity.Runtime

open Posix Wire Kernel Abi Logic World List

/-! ## Names and the names below them -/

/-- `p` lies below `q`. -/
def Below (q p : Str) : Prop := ∃ x, p = q ++ '/' :: x

theorem under_iff {q p : Str} : LinkTable.under q p ↔ p = q ∨ Below q p := by
  unfold LinkTable.under Below
  simp only [Bool.or_eq_true, beq_iff_eq, isPrefixOf_iff_prefix]
  refine or_congr Iff.rfl ⟨?_, ?_⟩
  · rintro ⟨x, rfl⟩
    exact ⟨x, by simp⟩
  · rintro ⟨x, rfl⟩
    exact ⟨x, by simp⟩

theorem below_not_begins {q p : Str} (h : Below q p) : ¬p <+: q := by
  obtain ⟨x, rfl⟩ := h
  intro hp
  have := hp.length_le
  simp only [length_append, length_cons] at this
  omega

/-- A name below `q` does not begin `p`, unless `p` is below `q` itself. -/
theorem Below.of_prefix {q p s : Str} (h : Below q p) (hs : p <+: s) : Below q s := by
  obtain ⟨x, rfl⟩ := h
  obtain ⟨y, rfl⟩ := hs
  exact ⟨x ++ y, by simp⟩

/-- Two names that are not below one another have no name below both. -/
theorem not_below_both {a b p : Str} (hne : a ≠ b) (hab : ¬Below a b) (hba : ¬Below b a)
    (ha : Below a p) : ¬Below b p := by
  intro hb
  obtain ⟨x, rfl⟩ := ha
  obtain ⟨y, hy⟩ := hb
  have h1 : a ++ ['/'] <+: a ++ '/' :: x := ⟨x, by simp⟩
  have h2 : b ++ ['/'] <+: a ++ '/' :: x := ⟨y, by simp [hy]⟩
  rcases prefix_or_prefix_of_prefix h1 h2 with ⟨z, hz⟩ | ⟨z, hz⟩
  · rcases z.eq_nil_or_concat with rfl | ⟨z', c, rfl⟩
    · simp at hz
      exact hne hz
    · rw [concat_eq_append, ← append_assoc] at hz
      obtain ⟨hz, -⟩ := append_inj' hz rfl
      exact hab ⟨z', by rw [← hz]; simp⟩
  · rcases z.eq_nil_or_concat with rfl | ⟨z', c, rfl⟩
    · simp at hz
      exact hne hz.symm
    · rw [concat_eq_append, ← append_assoc] at hz
      obtain ⟨hz, -⟩ := append_inj' hz rfl
      exact hba ⟨z', by rw [← hz]; simp⟩

/-! ## Where the records should be -/

/-- The records of `src` and of all below it are those of `dst` and of all below it, and the other
way round if the names are exchanged. -/
def movedTable {α : Type} (swap : Bool) (src dst : Str) (m : Str → Option α) (p : Str) : Option α :=
  if LinkTable.under dst p then m (src ++ p.drop dst.length)
  else if LinkTable.under src p then if swap then m (dst ++ p.drop src.length) else none
  else m p

theorem rename_table (s : MetaStore) (src dst p : Str) :
    (s.rename src dst).table p =
      if p = dst then s.table src else if p = src then none else s.table p := by
  unfold MetaStore.rename MetaStore.put
  rcases hs : s.table src with _ | rec
  · by_cases hd : p = dst
    · simp [hd]
    · by_cases hp : p = src
      · subst hp
        simp [hd, hs]
      · simp [hd, hp]
  · by_cases hd : p = dst
    · simp [hd]
    · by_cases hp : p = src
      · subst hp
        simp [hd]
      · simp [hd, hp]

/-- `m'` has the records of `m`, where only `dst` may differ, and there is nothing that moving the
one record of `src` would leave behind. -/
structure Movable {α : Type} (swap : Bool) (src dst : Str) (m m' : Str → Option α) : Prop where
  own : m' src = m src
  others : ∀ p, p ≠ dst → m' p = m p
  plain : src ≠ dst → swap = false → ∀ x, m (src ++ '/' :: x) = none ∧ m (dst ++ '/' :: x) = none
  swapped : src ≠ dst → swap → m dst = none ∧ ∀ x, m (dst ++ '/' :: x) = m (src ++ '/' :: x)

section Table

variable {α : Type} {swap : Bool} {src dst : Str} {m m' : Str → Option α}

theorem movedTable_dst : movedTable swap src dst m dst = m src := by
  simp [movedTable, LinkTable.under]

theorem movedTable_below_dst (x : Str) :
    movedTable swap src dst m (dst ++ '/' :: x) = m (src ++ '/' :: x) := by
  have h : LinkTable.under dst (dst ++ '/' :: x) := under_iff.2 (.inr ⟨x, rfl⟩)
  simp [movedTable, h]

theorem movedTable_src (hne : src ≠ dst) (hba : ¬Below dst src) :
    movedTable swap src dst m src = if swap then m dst else none := by
  have h : LinkTable.under dst src = false := by
    rw [← Bool.not_eq_true, under_iff]
    rintro (h | h)
    · exact hne h
    · exact hba h
  have hs : LinkTable.under src src := under_iff.2 (.inl rfl)
  simp [movedTable, h, hs]

theorem movedTable_below_src (hne : src ≠ dst) (hab : ¬Below src dst) (hba : ¬Below dst src)
    (x : Str) :
    movedTable swap src dst m (src ++ '/' :: x) = if swap then m (dst ++ '/' :: x) else none := by
  have h : LinkTable.under dst (src ++ '/' :: x) = false := by
    rw [← Bool.not_eq_true, under_iff]
    rintro (h | h)
    · exact hab ⟨x, h.symm⟩
    · exact not_below_both hne hab hba ⟨x, rfl⟩ h
  have hs : LinkTable.under src (src ++ '/' :: x) := under_iff.2 (.inr ⟨x, rfl⟩)
  simp [movedTable, h, hs]

theorem movedTable_other {p : Str} (hd : p ≠ dst) (hs : p ≠ src) (hbd : ¬Below dst p)
    (hbs : ¬Below src p) : movedTable swap src dst m p = m p := by
  have h1 : LinkTable.under dst p = false := by
    rw [← Bool.not_eq_true, under_iff]
    rintro (h | h)
    · exact hd h
    · exact hbd h
  have h2 : LinkTable.under src p = false := by
    rw [← Bool.not_eq_true, under_iff]
    rintro (h | h)
    · exact hs h
    · exact hbs h
  simp [movedTable, h1, h2]

/-- Moving the one record puts every record where it should be exactly if it is movable.  `m'` may
differ from `m` at names that one of the two begins with. -/
theorem moved_iff (hab : ¬Below src dst) (hba : ¬Below dst src)
    (hframe : ∀ p, ¬p <+: src → ¬p <+: dst → m' p = m p) :
    (∀ p, (if p = dst then m' src else if p = src then none else m' p) =
        movedTable swap src dst m p) ↔ Movable swap src dst m m' := by
  have hbs : ∀ {p}, Below src p → m' p = m p := fun hp =>
    hframe _ (below_not_begins hp) fun h => hab (hp.of_prefix h)
  have hbd : ∀ {p}, Below dst p → m' p = m p := fun hp =>
    hframe _ (fun h => hba (hp.of_prefix h)) (below_not_begins hp)
  constructor
  · intro h
    have hown : m' src = m src := by
      have := h dst
      rwa [if_pos rfl, movedTable_dst] at this
    refine ⟨hown, fun p hp => ?_, fun hne hsw x => ?_, fun hne hsw => ⟨?_, fun x => ?_⟩⟩
    · by_cases hps : p = src
      · rw [hps, hown]
      by_cases h1 : Below src p
      · exact hbs h1
      by_cases h2 : Below dst p
      · exact hbd h2
      · have := h p
        rwa [if_neg hp, if_neg hps, movedTable_other hp hps h2 h1] at this
    · have hs := h (src ++ '/' :: x)
      have hd := h (dst ++ '/' :: x)
      rw [if_neg (fun h => hab ⟨x, h.symm⟩), if_neg (by simp), movedTable_below_src hne hab hba,
        hbs ⟨x, rfl⟩] at hs
      rw [if_neg (by simp), if_neg (fun h => hba ⟨x, h.symm⟩), movedTable_below_dst,
        hbd ⟨x, rfl⟩] at hd
      simp only [hsw, Bool.false_eq_true, if_false] at hs
      exact ⟨hs, hd.trans hs⟩
    · have := h src
      rw [if_neg hne, if_pos rfl, movedTable_src hne hba, if_pos hsw] at this
      exact this.symm
    · have := h (dst ++ '/' :: x)
      rwa [if_neg (by simp), if_neg (fun h => hba ⟨x, h.symm⟩), movedTable_below_dst,
        hbd ⟨x, rfl⟩] at this
  · intro h p
    by_cases hpd : p = dst
    · rw [if_pos hpd, hpd, movedTable_dst, h.own]
    rw [if_neg hpd]
    by_cases hps : p = src
    · subst hps
      rw [if_pos rfl, movedTable_src hpd hba]
      split_ifs with hsw
      · exact (h.swapped hpd hsw).1.symm
      · rfl
    rw [if_neg hps, h.others p hpd]
    by_cases h2 : Below dst p
    · obtain ⟨x, rfl⟩ := h2
      rw [movedTable_below_dst]
      by_cases hne : src = dst
      · rw [hne]
      rcases hsw : swap with _ | _
      · rw [(h.plain hne hsw x).1, (h.plain hne hsw x).2]
      · exact (h.swapped hne hsw).2 x
    by_cases h1 : Below src p
    · have hne : src ≠ dst := fun e => h2 (e ▸ h1)
      obtain ⟨x, rfl⟩ := h1
      rw [movedTable_below_src hne hab hba]
      rcases hsw : swap with _ | _
      · exact (h.plain hne hsw x).1
      · exact ((h.swapped hne hsw).2 x).symm
    · rw [movedTable_other hpd hps h2 h1]

end Table

/-! ## The calls -/

/-- Where the operands of a rename are, and its flags. -/
structure RenameForm where
  a1 : Nat
  a2 : Nat
  at_ : Bool
  flags : Nat

def renameForm (r : Regs) : Sysno → Option RenameForm
  | .rename => some ⟨0, 1, false, 0⟩
  | .renameat => some ⟨1, 3, true, 0⟩
  | .renameat2 => some ⟨1, 3, true, uint32 (r.arg 4)⟩
  | _ => none

def RenameForm.exchanges (f : RenameForm) : Bool := f.flags &&& exchangeFlag != 0

/-- The call names `src` and `dst`. -/
def RenameForm.Names (f : RenameForm) (t : Task) (r : Regs) (w : World) (src dst : Str) : Prop :=
  resolveArg t r f.a1 f.at_ true (setCurrentPid t.pid t.ppid w) = some src ∧
    resolveSecond t r f.a2 f.at_ (setCurrentPid t.pid t.ppid w) = some dst

/-- The world with both names made ready for writing. -/
def renameReady (t : Task) (src dst : Str) (w : World) : World :=
  (prepared true src dst (setCurrentPid t.pid t.ppid w)).2

theorem serve_rename {r : Regs} {sc : Sysno} {f : RenameForm} (hf : renameForm r sc = some f)
    (t : Task) : serve t r sc = pathMut2 t r f.a1 f.a2 f.at_ true none f.flags ∧ ¬Touches sc := by
  cases sc <;> cases hf <;> exact ⟨rfl, by rintro ⟨⟩⟩

theorem setCurrentPid_metas (pid ppid : Int) (w : World) :
    (setCurrentPid pid ppid w).metas = w.metas := by
  rw [setCurrentPid_eq]

/-- The books of a rename that succeeds: the one record of `src` has moved. -/
theorem rename_books {t : Task} {r : Regs} {sc : Sysno} {f : RenameForm}
    (hf : renameForm r sc = some f) {k : HostKernel} {w : World} (hp : w.pendingOpen = [])
    {src dst : Str} (hn : f.Names t r w src dst) (hok : (serveCall t r sc k w).1 = .ret 0) :
    (serveCall t r sc k w).2.metas = (renameReady t src dst w).metas.rename src dst := by
  obtain ⟨hserve, htouch⟩ := serve_rename hf t
  have hres : dispatch t r sc w = pathMut2 t r f.a1 f.a2 f.at_ true none f.flags
      (setCurrentPid t.pid t.ppid w) := by
    rw [← hserve]
    rfl
  have hnot : ¬Refused (dispatch t r sc w).1 := by
    intro ho
    rw [serveCall, Act.bind_apply] at hok
    generalize dispatch t r sc w = res at ho hok
    obtain ⟨o, w'⟩ := res
    rcases ho with e | _
    · have := errnoCode_pos e
      have hret : -errnoCode e = 0 := Answer.ret.inj hok
      omega
    · cases hok
  rw [(serveCall_books t r htouch k hp).metas, hres]
  rw [hres] at hnot
  have hrun : PairRun t r f.a1 f.a2 f.at_ true none f.flags (setCurrentPid t.pid t.ppid w) _ :=
    pathMut2_run _ _
  rcases hrun with ⟨fd, hfd, -, -⟩ | ⟨ho, -, -⟩ | ⟨s, d, -, ⟨e, ho⟩, -, -⟩
    | ⟨s, d, hpass, w', hw', hact⟩
  · cases hfd
  · exact absurd ho hnot
  · rw [ho] at hnot
    exact absurd (.fail e) hnot
  · cases hpass.fst.symm.trans hn.1
    cases hpass.snd.symm.trans hn.2
    rw [hact, (movePair_rename _ _ _ _ _ _ _ _ _).1, hw'.metas]
    rfl

/-- A rename that succeeds leaves every record where it should be exactly if there is none below
either name, and making the names ready recorded none.  (An exchange would need a second record to
move: there must be none for `dst`, and the same below both.) -/
theorem rename_moves_records_iff (t : Task) (r : Regs) (sc : Sysno) (f : RenameForm)
    (hf : renameForm r sc = some f) (k : HostKernel) (w : World) (hp : w.pendingOpen = [])
    (src dst : Str) (hn : f.Names t r w src dst) (hab : ¬Below src dst) (hba : ¬Below dst src)
    (hok : (serveCall t r sc k w).1 = .ret 0) :
    (∀ p, (serveCall t r sc k w).2.metas.table p = movedTable f.exchanges src dst w.metas.table p) ↔
      Movable f.exchanges src dst w.metas.table (renameReady t src dst w).metas.table := by
  simp only [rename_books hf hp hn hok, rename_table]
  refine moved_iff hab hba fun p hs hd => ?_
  unfold renameReady prepared
  simp only [if_true]
  rw [classifyName_metas _ _ hd, classifyName_metas _ _ hs, setCurrentPid_metas]

/-! ## A directory with records -/

/-- The tree of `linkedHost` mounted as it is, with `m` recorded for `p`. -/
def recordWorld (p : Str) (m : MetaRecord) : World where
  host := linkedHost
  mounts := [mountHost slash slash slash [] slash_ne_nil]
  metas := ⟨Function.update (fun _ => none) p (some m)⟩

def ownedBy (uid : Nat) : MetaRecord := { uid := uid, hasUid := true }

/-- The kernel runs the call. -/
def runNative (t : Task) (r : Regs) (sc : Sysno) (w : World) : Answer × World :=
  serveCall t r sc (nativeKernel t r sc) w

theorem etc_cfg_apart : ¬Below "/etc" "/cfg" ∧ ¬Below "/cfg" "/etc" := by
  constructor <;> (rintro ⟨x, hx⟩; simp at hx)

theorem renameReady_plain (t : Task) (src dst : Str) {w : World}
    (h : ∀ m ∈ w.mounts, m.upper = []) :
    (renameReady t src dst w).metas = w.metas := by
  have hm : (setCurrentPid t.pid t.ppid w).mounts = w.mounts := by rw [setCurrentPid_eq]
  have hno : ∀ abs m, ¬Overlay (setCurrentPid t.pid t.ppid w).mounts abs m := fun abs m ho =>
    ho.upper (h m (hm ▸ (deepest_mem ho.deepest).1))
  unfold renameReady prepared
  simp only [if_true]
  rw [classifyName_plain (hno src), classifyName_plain (hno dst), setCurrentPid_metas]

/-- `rename("/etc", "/cfg")` takes the owner of `/etc` along. -/
theorem rename_moves_records_etc :
    (runNative (twoTexts "/etc".toList "/cfg".toList) (twoPaths "/etc".toList) .rename
        (recordWorld "/etc".toList (ownedBy 5))).2.metas.table =
      movedTable false "/etc".toList "/cfg".toList
      (recordWorld "/etc".toList (ownedBy 5)).metas.table := by
  refine funext
    ((rename_moves_records_iff _ _ .rename _ rfl _ _ rfl "/etc".toList "/cfg".toList
      ⟨by decide +kernel, by decide +kernel⟩ etc_cfg_apart.1 etc_cfg_apart.2 (by decide +kernel)).2
      ?_)
  have hnone : ∀ {p}, p ≠ "/etc".toList →
      (recordWorld "/etc".toList (ownedBy 5)).metas.table p = none := fun hp =>
    Function.update_of_ne hp _ (fun _ => none)
  rw [renameReady_plain _ _ _ (by rintro m hm; obtain rfl := mem_singleton.1 hm; rfl)]
  refine ⟨rfl, fun _ _ => rfl, fun _ _ x => ⟨hnone ?_, hnone ?_⟩, fun _ h => by cases h⟩
  · simp
  · simp

/-- The owner of `/etc/passwd` stays where the file was; and an exchange loses the owner of
`/srv`. -/
theorem rename_leaves_records :
    (runNative (twoTexts "/etc".toList "/cfg".toList) (twoPaths "/etc".toList) .rename
        (recordWorld "/etc/passwd".toList (ownedBy 5))).1 = .ret 0 ∧
      (runNative (twoTexts "/etc".toList "/cfg".toList) (twoPaths "/etc".toList) .rename
        (recordWorld "/etc/passwd".toList (ownedBy 5))).2.metas.table ≠
        movedTable false "/etc".toList "/cfg".toList
      (recordWorld "/etc/passwd".toList (ownedBy 5)).metas.table ∧
      (runNative (twoTexts "/etc".toList "/srv".toList) (twoPathsAt "/etc".toList 2) .renameat2
        (recordWorld "/srv".toList (ownedBy 5))).1 = .ret 0 ∧
      (runNative (twoTexts "/etc".toList "/srv".toList) (twoPathsAt "/etc".toList 2) .renameat2
        (recordWorld "/srv".toList (ownedBy 5))).2.metas.table ≠
        movedTable true "/etc".toList "/srv".toList
      (recordWorld "/srv".toList (ownedBy 5)).metas.table := by
  refine ⟨by decide +kernel, fun h => ?_, by decide +kernel, fun h => ?_⟩
  · have := congrFun h "/cfg/passwd"
    revert this
    decide +kernel
  · have := congrFun h "/etc"
    revert this
    decide +kernel

end Linuxity.Runtime

import Linuxity.Kernel.Alike
import Linuxity.Kernel.Prepare
import Linuxity.Posix.Undo

/-!
# Kernel.Still — when making a path ready for writing changes nothing

Making parents and copying up can only add entries, so what was added once stays.  A path is ready
without a change exactly if there is nothing left to make.
-/

namespace Linuxity.Kernel

open Posix Wire

/-! ## Trees that gain entries -/

def SameTree (h h' : Host) : Prop := ∀ l, h'.node l = h.node l

/-- Every entry is kept, and there is a new one. -/
structure Grown (h h' : Host) : Prop where
  le : h.Le h'
  new : ∃ l, h.node l = none ∧ h'.node l ≠ none

/-- Nothing happened, or entries were added. -/
def Steps (h h' : Host) : Prop := h' = h ∨ Grown h h'

section Trees

variable {h h' h'' : Host}

theorem SameTree.refl (h : Host) : SameTree h h := fun _ => rfl

theorem SameTree.of_eq (he : h' = h) : SameTree h h' := by
  rw [he]
  exact .refl h

theorem Grown.not_sameTree (hg : Grown h h') : ¬SameTree h h' := by
  intro hs
  obtain ⟨l, hn, hne⟩ := hg.new
  exact hne ((hs l).trans hn)

theorem Grown.of_le (hg : Grown h h') (hle : h'.Le h'') : Grown h h'' := by
  refine ⟨hg.le.trans hle, ?_⟩
  obtain ⟨l, hn, hne⟩ := hg.new
  obtain ⟨n, hl⟩ := Option.ne_none_iff_exists'.1 hne
  exact ⟨l, hn, by simp [hle l n hl]⟩

theorem Steps.refl (h : Host) : Steps h h := .inl rfl

theorem Steps.le (hs : Steps h h') : h.Le h' := by
  rcases hs with rfl | hg
  · exact Host.Le.refl _
  · exact hg.le

theorem Steps.trans (h1 : Steps h h') (h2 : Steps h' h'') : Steps h h'' := by
  rcases h1 with rfl | hg
  · exact h2
  · exact .inr (hg.of_le h2.le)

theorem Steps.sameTree_iff (hs : Steps h h') : SameTree h h' ↔ h' = h := by
  rcases hs with rfl | hg
  · exact ⟨fun _ => rfl, fun _ => .refl _⟩
  · refine ⟨fun ht => absurd ht hg.not_sameTree, fun he => .of_eq he⟩

/-- Once entries were added, going on does not take them back. -/
theorem Steps.eq_iff (h1 : Steps h h') (h2 : Steps h' h'') : h'' = h ↔ h' = h ∧ h'' = h' := by
  constructor
  · intro he
    rcases h1 with rfl | hg
    · exact ⟨rfl, he⟩
    · exact absurd (SameTree.of_eq he) (hg.of_le h2.le).not_sameTree
  · rintro ⟨rfl, rfl⟩
    rfl

theorem Grown.of_adds {l : Loc} {k : Kind} (hk : ∀ t, k ≠ .link t)
    (ha : h.Adds h' l k) : Grown h h' := by
  obtain ⟨n, hn, -⟩ := ha.new
  exact ⟨(ha.grows hk).le, l, ha.fresh, by simp [hn]⟩

theorem Steps.of_makesAt {s : Str} (hm : MakesAt h h' s) : Steps h h' := by
  rcases hm with rfl | ⟨l, c, k, hk, -, ha⟩
  · exact .refl _
  · exact .inr (.of_adds hk ha)

/-- A loop changes nothing exactly if none of its turns does. -/
theorem Steps.foldl {α β : Type} {g : β → Host} {f : β → α → β} {Q : Host → α → Prop}
    (hstep : ∀ b a, Steps (g b) (g (f b a))) (hq : ∀ b a, g (f b a) = g b ↔ Q (g b) a) (as : List α)
    (b : β) : Steps (g b) (g (as.foldl f b)) ∧ (g (as.foldl f b) = g b ↔ ∀ a ∈ as, Q (g b) a) := by
  induction as generalizing b with
  | nil => exact ⟨.refl _, by simp⟩
  | cons a as ih =>
    obtain ⟨hs, hiff⟩ := ih (f b a)
    rw [List.foldl_cons]
    refine ⟨(hstep b a).trans hs, ?_⟩
    rw [(hstep b a).eq_iff hs, hq, hiff, List.forall_mem_cons]
    constructor
    · rintro ⟨ha, hall⟩
      rw [(hq b a).2 ha] at hall
      exact ⟨ha, hall⟩
    · rintro ⟨ha, hall⟩
      refine ⟨ha, ?_⟩
      rw [(hq b a).2 ha]
      exact hall

end Trees

/-! ## Making entries -/

/-- Whether an entry can be made does not depend on its mode or its data. -/
theorem create_isOk (h : Host) (l : Loc) (c : Str) (m m' : Nat) {k k' : Kind}
    (hk : ∀ t, k ≠ .link t) (hk' : ∀ t, k' ≠ .link t) :
    (h.create l c m k).isOk = (h.create l c m' k').isOk := by
  unfold Host.create
  rw [dif_neg (hk []), dif_neg (hk' [])]
  split_ifs <;> rfl

theorem mkdir_isOk (h : Host) (p : Str) (m m' : Nat) :
    (h.mkdir p m).isOk = (h.mkdir p m').isOk := by
  unfold Host.mkdir
  rcases h.resolve p false with e | ⟨l⟩ | ⟨l, c⟩
  · rfl
  · rfl
  · exact create_isOk h l c _ _ (by simp) (by simp)

theorem isOk_false_iff {α : Type} {x : Except Errno α} : x.isOk = false ↔ ∃ e, x = .error e := by
  rcases x with e | a
  · exact ⟨fun _ => ⟨e, rfl⟩, fun _ => rfl⟩
  · refine ⟨fun hx => ?_, fun ⟨e, he⟩ => ?_⟩
    · cases hx
    · cases he

theorem writeFile_isOk (h : Host) (p : Str) (m m' : Nat) (d d' : Str) :
    (h.writeFile p m d).isOk = (h.writeFile p m' d').isOk := by
  unfold Host.writeFile
  rcases h.resolve p true with e | ⟨l⟩ | ⟨l, c⟩
  · rfl
  · dsimp only
    rcases h.node l with _ | n
    · rfl
    · dsimp only
      rcases n.kind with _ | _ | _ | _
      · rfl
      · split_ifs <;> rfl
      · rfl
      · rfl
  · exact create_isOk h l c _ _ (by simp) (by simp)

theorem Attempt.still {s : Str} {k : Kind} {made : Bool} (ha : Attempt h h' s k made)
    (hk : ∀ t, k ≠ .link t) : h' = h ↔ made = false := by
  rcases ha with ⟨hr, he⟩ | ⟨hr, l, c, -, ha⟩
  · exact iff_of_true he hr
  · exact iff_of_false (fun he => (Grown.of_adds hk ha).not_sameTree (.of_eq he)) (by simp [hr])

theorem mkdirExact_still (w : World) (s : Str) (mode : Nat) :
    (mkdirExact w s mode).2.host = w.host ↔ ∃ e, w.host.mkdir s 0 = .error e := by
  rw [← isOk_false_iff, mkdir_isOk w.host s 0 mode]
  exact (mkdirExact_attempt w s mode).still (by simp)

theorem writeExact_still {w : World} {s : Str} (hx : hostExists w.host s = false) (mode : Nat)
    (data : Str) :
    (writeExact w s mode data).2.host = w.host ↔ (w.host.writeFile s 0 []).isOk = false := by
  rw [writeFile_isOk w.host s 0 mode [] data]
  exact (writeExact_attempt hx mode data).still (by simp)

theorem mkdir_still (w : World) (p : Str) (mode : Nat) : Steps w.host (w.mkdir p mode).2.host ∧
    ((w.mkdir p mode).2.host = w.host ↔ ∃ e, w.host.mkdir p 0 = .error e) := by
  rw [← isOk_false_iff, mkdir_isOk w.host p 0 mode, World.mkdir, World.sys_host]
  rcases hr : w.host.mkdir p mode with e | h₁
  · exact ⟨.refl _, ⟨fun _ => rfl, fun _ => rfl⟩⟩
  · have hg : Grown w.host h₁ := by
      unfold Host.mkdir at hr
      split at hr
      · cases hr
      · cases hr
      · obtain ⟨hd, hc, hn, hk, rfl⟩ := Host.create_ok hr
        exact ⟨Host.le_add _, _, hn, by simp [Host.add_node]⟩
    exact ⟨.inr hg, ⟨fun he => absurd (SameTree.of_eq he) hg.not_sameTree, by rintro ⟨⟩⟩⟩

/-! ## Parents and copies -/

/-- No directory on the way to `p` can be made. -/
def ParentsThere (h : Host) (p : Str) : Prop :=
  dirOf p ≠ [] → ∀ sub ∈ cuts [] (dirOf p), ∃ e, h.mkdir sub 0 = .error e

/-- The lower file or directory can be copied to `up`. -/
def Copyable (h : Host) (up lo : Str) : Prop :=
  if isDir h lo = true then (h.mkdir up 0).isOk = true
  else (h.readFile lo).isOk = true ∧ (h.writeFile up 0 []).isOk = true

theorem mirrorParents_still (up lo : Str) (w : World) :
    Steps w.host (mirrorParentsFromLower up lo w).1.host ∧
      ((mirrorParentsFromLower up lo w).1.host = w.host ↔ ParentsThere w.host up) := by
  unfold mirrorParentsFromLower ParentsThere
  split_ifs with h0
  · exact ⟨.refl _, ⟨fun _ hne => absurd h0 hne, fun _ => rfl⟩⟩
  · have hfold := Steps.foldl (f := mirrorStep up (dirOf lo))
      (Q := fun h sub => ∃ e, h.mkdir sub 0 = .error e)
        (fun acc sub => .of_makesAt (mkdirExact_makesAt acc.1 sub _))
      (fun acc sub => mkdirExact_still acc.1 sub _) (cuts [] (dirOf up)) (w, [])
    refine ⟨hfold.1, hfold.2.trans ⟨fun hall _ => hall, fun hall => hall h0⟩⟩

theorem copyLeaf_still {w : World} {up : Str} (hx : hostExists w.host up = false) (lo : Str) :
    (copyLeaf up lo w).host = w.host ↔ ¬Copyable w.host up lo := by
  unfold copyLeaf Copyable
  split_ifs with hd
  · rw [mkdirExact_still, ← isOk_false_iff, Bool.not_eq_true]
  · rcases w.host.readFile lo with e | data
    · simp [Except.isOk, Except.toBool]
    · rw [writeExact_still hx]
      simp [Except.isOk, Except.toBool]

theorem copyUp_still (up lo : Str) (w : World) :
    Steps w.host (copyUp up lo w).1.host ∧
      ((copyUp up lo w).1.host = w.host ↔
        ParentsThere w.host up ∧ (hostExists w.host up ∨ ¬Copyable w.host up lo)) := by
  obtain ⟨hs, hiff⟩ := mirrorParents_still up lo w
  unfold copyUp
  generalize mirrorParentsFromLower up lo w = x at hs hiff
  obtain ⟨w1, ws⟩ := x
  dsimp only at hs hiff ⊢
  split_ifs with hx
  · refine ⟨hs, ?_⟩
    rw [hiff]
    refine ⟨fun hp => ⟨hp, .inl ?_⟩, And.left⟩
    rwa [hiff.2 hp] at hx
  · have hx : hostExists w1.host up = false := by simpa using hx
    have hleaf : Steps w1.host (copyLeaf up lo w1).host := .of_makesAt (copyLeaf_makesAt hx lo)
    refine ⟨hs.trans hleaf, ?_⟩
    rw [hs.eq_iff hleaf, hiff, copyLeaf_still hx]
    constructor
    · rintro ⟨hp, hc⟩
      rw [hiff.2 hp] at hc
      exact ⟨hp, .inr hc⟩
    · rintro ⟨hp, hc⟩
      rw [hiff.2 hp] at hx ⊢
      refine ⟨hp, hc.resolve_left (by simp [hx])⟩

/-! ## What is made -/

/-- Among what is new there is a directory. -/
def NewDir (h h' : Host) : Prop := ∃ l n, h.node l = none ∧ h'.node l = some n ∧ n.kind = .dir

section Made

variable {h h' h'' : Host} {up lo : Str} {w : World} {l : Loc} {c : Str}

theorem NewDir.of_adds (ha : h.Adds h' l .dir) : NewDir h h' := by
  obtain ⟨n, hn, hk⟩ := ha.new
  exact ⟨l, n, ha.fresh, hn, hk⟩

theorem NewDir.before (hd : NewDir h h') (hle : h'.Le h'') : NewDir h h'' := by
  obtain ⟨l, n, hnone, hn, hk⟩ := hd
  exact ⟨l, n, hnone, hle l n hn, hk⟩

theorem NewDir.after (hle : h.Le h') (hd : NewDir h' h'') : NewDir h h'' := by
  obtain ⟨l, n, hnone, hn, hk⟩ := hd
  refine ⟨l, n, ?_, hn, hk⟩
  rw [Option.eq_none_iff_forall_ne_some]
  intro x hx
  rw [hle l x hx] at hnone
  cases hnone

theorem mirrorParents_makes (up lo : Str) (w : World) :
    (mirrorParentsFromLower up lo w).1.host = w.host ∨
      NewDir w.host (mirrorParentsFromLower up lo w).1.host := by
  unfold mirrorParentsFromLower
  split_ifs with h0
  · exact .inl rfl
  generalize cuts [] (dirOf up) = subs
  have hrun : ∀ acc : World × Widened, acc.1.host = w.host ∨ NewDir w.host acc.1.host →
      (subs.foldl (mirrorStep up (dirOf lo)) acc).1.host = w.host ∨
        NewDir w.host (subs.foldl (mirrorStep up (dirOf lo)) acc).1.host := by
    induction subs with
    | nil => exact fun acc hacc => hacc
    | cons sub subs ih =>
      intro acc hacc
      refine ih _ ?_
      rcases mkdirExact_attempt acc.1 sub
        (lowerMode acc.1.host (dirOf lo) ((dirOf up).length - sub.length) ||| 0o700)
        with ⟨-, he⟩ | ⟨-, l, c, -, ha⟩
      · rw [← he] at hacc
        exact hacc
      · refine .inr ?_
        rcases hacc with he | hd
        · rw [← he]
          exact .of_adds ha
        · exact hd.before (ha.grows nofun).le
  exact hrun (w, []) (.inl rfl)

/-- The file is copied up, and nothing else needs to be made. -/
structure CopiesAlone (h : Host) (up lo : Str) (l : Loc) (c : Str) : Prop where
  parents : ParentsThere h up
  free : h.resolve up false = .ok (.free l c)
  plain : isDir h lo = false
  read : (h.readFile lo).isOk
  write : (h.writeFile up 0 []).isOk

theorem not_exists_of_free (hf : h.resolve up false = .ok (.free l c)) :
    hostExists h up = false := by
  simp [hostExists, nodeAnyLength, Host.nodeOf, hf, Except.isOk, Except.toBool]

theorem CopiesAlone.writable (hc : CopiesAlone h up lo l c) : (h.node l).any Node.writable := by
  have hw := hc.write
  unfold Host.writeFile at hw
  rw [Host.resolve_true_of_free hc.free] at hw
  exact (Host.create_isOk.1 hw).2.2.2.2

theorem CopiesAlone.copyUp_adds (hc : CopiesAlone w.host up lo l c) :
    ∃ data, w.host.Adds (copyUp up lo w).1.host (l ++ [c]) (.file data) := by
  have hh := (mirrorParents_still up lo w).2.2 hc.parents
  unfold copyUp
  generalize mirrorParentsFromLower up lo w = x at hh
  obtain ⟨w1, ws⟩ := x
  have hh : w1.host = w.host := hh
  rw [← hh] at hc ⊢
  have hx := not_exists_of_free hc.free
  obtain ⟨data, hdata⟩ : ∃ data, w1.host.readFile lo = .ok data := by
    rcases hr : w1.host.readFile lo with e | data
    · have hread := hc.read
      rw [hr] at hread
      cases hread
    · exact ⟨data, rfl⟩
  refine ⟨data, ?_⟩
  dsimp only
  rw [if_neg (by simp [hx])]
  dsimp only [copyLeaf]
  rw [if_neg (by simp [hc.plain]), hdata]
  rcases writeExact_attempt hx (copyMode w1.host lo) data with ⟨hbad, -⟩ | ⟨-, l', c', hf, ha⟩
  · rw [writeFile_isOk w1.host up _ 0 _ [], hc.write] at hbad
    cases hbad
  · rw [hc.free] at hf
    cases hf
    exact ha

theorem copyUp_makes (up lo : Str) (w : World) : (copyUp up lo w).1.host = w.host ∨
    NewDir w.host (copyUp up lo w).1.host ∨ ∃ l c, CopiesAlone w.host up lo l c := by
  have hmade := mirrorParents_makes up lo w
  have hiff := (mirrorParents_still up lo w).2
  unfold copyUp
  generalize mirrorParentsFromLower up lo w = x at hmade hiff
  obtain ⟨w1, ws⟩ := x
  dsimp only at hmade hiff ⊢
  split_ifs with hx
  · exact hmade.imp_right .inl
  have hx : hostExists w1.host up = false := by simpa using hx
  rcases hmade with he | hd
  · have hp := hiff.1 he
    rw [← he] at hp ⊢
    dsimp only [copyLeaf]
    split_ifs with hdir
    · rcases mkdirExact_attempt w1 up (copyMode w1.host lo) with ⟨-, hsame⟩ | ⟨-, l, c, -, ha⟩
      · exact .inl hsame
      · exact .inr (.inl (.of_adds ha))
    · rcases hr : w1.host.readFile lo with e | data
      · exact .inl rfl
      · rcases writeExact_attempt hx (copyMode w1.host lo) data with ⟨-, hsame⟩ | ⟨hok, l, c, hf, -⟩
        · exact .inl hsame
        · rw [writeFile_isOk w1.host up _ 0 _ []] at hok
          exact .inr (.inr ⟨l, c, hp,
              hf, by simpa using hdir, by simp [hr, Except.isOk, Except.toBool], hok⟩)
  · exact .inr (.inl (hd.before (Steps.of_makesAt (copyLeaf_makesAt hx lo)).le))

/-- No directory on the way to `p` can be made, once a file is there. -/
def ParentsBut (h : Host) (p : Str) (l : Loc) (c : Str) : Prop := dirOf p ≠ [] →
  ∀ sub ∈ cuts [] (dirOf p), (∃ e, h.mkdir sub 0 = .error e) ∨ h.resolve sub false = .ok (.free l c)

theorem parentsThere_adds {data : Str} (ha : h.Adds h' (l ++ [c]) (.file data)) (p : Str) :
    ParentsThere h' p ↔ ParentsBut h p l c := by
  refine imp_congr_right fun _ => forall_congr' fun sub => imp_congr_right fun _ => ?_
  have hiff : ∀ h : Host, (h.mkdir sub 0).isOk ↔
      ∃ d e, h.resolve sub false = .ok (.free d e) ∧ (h.create d e 0 .dir).isOk := by
    intro h
    unfold Host.mkdir
    rcases h.resolve sub false with e | l | ⟨l, c⟩
    · simp [Except.isOk, Except.toBool]
    · simp [Except.isOk, Except.toBool]
    · simp [Host.create_isOk]
  have hmade : (h'.mkdir sub 0).isOk ↔
      (h.mkdir sub 0).isOk ∧ h.resolve sub false ≠ .ok (.free l c) := by
    rw [hiff, hiff, Host.create_adds_iff ha]
  rw [← isOk_false_iff, ← isOk_false_iff, Bool.eq_false_iff, Bool.eq_false_iff, ne_eq, hmade]
  tauto

end Made

/-! ## Layers -/

/-- The layers and what is hidden of them. -/
structure SameLayers (w w' : World) : Prop where
  tree : SameTree w.host w'.host
  whiteouts : w'.whiteouts = w.whiteouts

/-- Entries were added and whiteouts cleared, if anything. -/
structure Onward (w w' : World) : Prop where
  host : Steps w.host w'.host
  whiteouts : w'.whiteouts ⊆ w.whiteouts

section Layers

variable {w w' w'' : World}

theorem SameLayers.refl (w : World) : SameLayers w w := ⟨.refl _, rfl⟩

theorem SameLayers.of_eq (hh : w'.host = w.host) (hwh : w'.whiteouts = w.whiteouts) :
    SameLayers w w' := ⟨.of_eq hh, hwh⟩

theorem SameLayers.trans (h1 : SameLayers w w') (h2 : SameLayers w' w'') : SameLayers w w'' :=
  ⟨fun l => (h2.tree l).trans (h1.tree l), h2.whiteouts.trans h1.whiteouts⟩

theorem Onward.refl (w : World) : Onward w w := ⟨.refl _, Finset.Subset.refl _⟩

theorem Onward.of_eq (hh : w'.host = w.host) (hwh : w'.whiteouts = w.whiteouts) : Onward w w' := by
  refine ⟨.inl hh, ?_⟩
  rw [hwh]

theorem Onward.of_alike (h : World.Alike w w') : Onward w w' := .of_eq h.host h.whiteouts

theorem SameLayers.of_alike (h : World.Alike w w') : SameLayers w w' := .of_eq h.host h.whiteouts

theorem Onward.trans (h1 : Onward w w') (h2 : Onward w' w'') : Onward w w'' :=
  ⟨h1.host.trans h2.host, h2.whiteouts.trans h1.whiteouts⟩

theorem Onward.same_iff_eq (h : Onward w w') :
    SameLayers w w' ↔ w'.host = w.host ∧ w'.whiteouts = w.whiteouts :=
  ⟨fun hs => ⟨h.host.sameTree_iff.1 hs.tree, hs.whiteouts⟩, fun hs => .of_eq hs.1 hs.2⟩

theorem Onward.same_iff (h1 : Onward w w') (h2 : Onward w' w'') :
    SameLayers w w'' ↔ SameLayers w w' ∧ SameLayers w' w'' := by
  rw [(h1.trans h2).same_iff_eq, h1.same_iff_eq, h2.same_iff_eq, h1.host.eq_iff h2.host]
  constructor
  · rintro ⟨⟨ha, hb⟩, hwh⟩
    have heq : w'.whiteouts = w.whiteouts := by
      refine Finset.Subset.antisymm h1.whiteouts ?_
      rw [← hwh]
      exact h2.whiteouts
    exact ⟨⟨ha, heq⟩, hb, hwh.trans heq.symm⟩
  · rintro ⟨⟨ha, hwa⟩, hb, hwb⟩
    exact ⟨⟨ha, hb⟩, hwb.trans hwa⟩

theorem Onward.alike_iff {R : Prop} (ho : Onward w w') (hsame : SameLayers w w' ↔ R)
    (hw : World.Alike w' w'') : SameLayers w w'' ↔ R := by
  rw [ho.same_iff (.of_alike hw), and_iff_left (SameLayers.of_alike hw), hsame]

end Layers

/-! ## Questions for writing -/

/-- The parents of `abs` are in the upper layer, and no whiteout hides it. -/
structure Ready (w : World) (m : Mount) (abs : Str) : Prop where
  shown : abs ∉ w.whiteouts
  parents : ParentsThere w.host (m.up abs)

/-- So is `abs` itself, unless there is nothing that could be copied. -/
structure CopyReady (w : World) (m : Mount) (abs : Str) : Prop extends Ready w m abs where
  leaf : hostExists w.host (m.up abs) = true ∨ ¬Copyable w.host (m.up abs) (m.lo abs)

section Questions

variable {w : World} {m : Mount} {abs : Str}

/-- The tree is changed by the copy, and the whiteouts by the path. -/
theorem onward_of_copied {wi : WriteIntent} {w1 : World} {C : Prop} (hwi : wi ≠ .remove)
    (hhost : (classifyWrite w m wi abs).2.host = w1.host)
    (h : Steps w.host w1.host ∧ (w1.host = w.host ↔ C)) : Onward w (classifyWrite w m wi abs).2 ∧
    (SameLayers w (classifyWrite w m wi abs).2 ↔ abs ∉ w.whiteouts ∧ C) := by
  have hwh := classifyWrite_whiteouts w m hwi abs
  rw [← hhost] at h
  have ho : Onward w (classifyWrite w m wi abs).2 := ⟨h.1, hwh ▸ Finset.erase_subset _ _⟩
  refine ⟨ho, ?_⟩
  rw [ho.same_iff_eq, hwh, Finset.erase_eq_self, and_comm, h.2]

theorem classifyWrite_parents (w : World) (m : Mount) (abs : Str) :
    Onward w (classifyWrite w m .parentsOnly abs).2 ∧
      (SameLayers w (classifyWrite w m .parentsOnly abs).2 ↔ Ready w m abs) := by
  obtain ⟨ho, hsame⟩ :=
    @onward_of_copied w m abs .parentsOnly _ _ (by decide) (by simp [classifyWrite])
    (mirrorParents_still (m.up abs) (m.lo abs) w)
  rw [hsame]
  exact ⟨ho, fun h => ⟨h.1, h.2⟩, fun h => ⟨h.shown, h.parents⟩⟩

theorem classifyWrite_copy (w : World) (m : Mount) (abs : Str) :
    Onward w (classifyWrite w m .copyLeaf abs).2 ∧
      (SameLayers w (classifyWrite w m .copyLeaf abs).2 ↔ CopyReady w m abs) := by
  obtain ⟨ho, hsame⟩ :=
    @onward_of_copied w m abs .copyLeaf _ _ (by decide) (by simp [classifyWrite])
    (copyUp_still (m.up abs) (m.lo abs) w)
  rw [hsame]
  exact ⟨ho, fun h => ⟨⟨h.1, h.2.1⟩, h.2.2⟩, fun h => ⟨h.shown, h.parents, h.leaf⟩⟩

/-- Where nothing has two layers, nothing changes. -/
theorem classifyName_copy (w : World) (abs : Str) :
    Onward w (classifyName abs true false .copyLeaf w).2 ∧
      (SameLayers w (classifyName abs true false .copyLeaf w).2 ↔
        ∀ m, Overlay w.mounts abs m → CopyReady w m abs) := by
  by_cases h : ∃ m, Overlay w.mounts abs m
  · obtain ⟨m, hm⟩ := h
    obtain ⟨ho, hiff⟩ := classifyWrite_copy w m abs
    rw [classifyName_overlay hm]
    refine ⟨ho, hiff.trans ⟨fun hc m' hm' => ?_, fun hc => hc m hm⟩⟩
    obtain rfl : m' = m := Option.some.inj (hm'.deepest.symm.trans hm.deepest)
    exact hc
  · rw [classifyName_plain fun m hm => h ⟨m, hm⟩]
    exact ⟨.refl w, fun _ m hm => absurd ⟨m, hm⟩ h, fun _ => .refl w⟩

end Questions

end Linuxity.Kernel

import Linuxity.Kernel.Confinement

/-!
# Kernel.Chase — the symlink chase against a resolver that speaks guest paths only

The classifier follows links on host paths and maps a host path back to the guest by comparing
strings.  The reference here never sees a host path: it reads the text of a link in the merged
view and joins it to the link's guest directory.  `classify_follow_eq` says where the two agree.
-/

namespace Linuxity.Kernel

open Posix Wire List

/-! ## The reference -/

/-- The node that shows at a guest path: the upper layer's, under an upper file nothing, and
otherwise the lower layer's unless the name is whited out. -/
def viewNode (w : World) (g : Str) : Option Node :=
  match deepest w.mounts g with
  | none => none
  | some m =>
    if m.producer.isSome then none
    else if m.upper = [] then (w.host.lstat (m.lo g)).toOption
    else
      match nodeAnyLength w.host (m.up g) false with
      | .ok n => some n
      | .error .enotdir => none
      | .error _ => if w.isWhiteout g then none else (w.host.lstat (m.lo g)).toOption

def viewLink (w : World) (g : Str) : Option Str :=
  match viewNode w g with
  | some n => match n.kind with | .link t => some t | _ => none
  | none => none

/-- What the text of a link at `g` names: from the guest root, or from the link's directory. -/
def refTarget (g t : Str) : Str :=
  if isAbs t then normalizePath t else normalizePath (dirOf g ++ '/' :: t)

def Hop (w : World) (g g' : Str) : Prop := ∃ t, viewLink w g = some t ∧ g' = refTarget g t

def Visited (w : World) : Str → Str → Prop := Relation.ReflTransGen (Hop w)

/-- Where the links of `p` end. -/
def Final (w : World) (p q : Str) : Prop := Visited w p q ∧ viewLink w q = none

/-- A name on the way, with the changes of mount before it and the links in its own mount. -/
structure Spot where
  cross : Nat
  hops : Nat
  name : Str

/-- The next name, within the code's limits on both. -/
inductive Spot.Next (w : World) : Spot → Spot → Prop
  | within {x k g g'} : Hop w g g' → deepest w.mounts g' = deepest w.mounts g → k < maxHops →
      Next w ⟨x, k, g⟩ ⟨x, k + 1, g'⟩
  | across {x k g g'} : Hop w g g' → deepest w.mounts g' ≠ deepest w.mounts g → k < maxHops →
      x < maxCross → Next w ⟨x, k, g⟩ ⟨x + 1, 0, g'⟩

def Reaches (w : World) : Spot → Spot → Prop := Relation.ReflTransGen (Spot.Next w)

/-- At a name that is not a link, the code can still see that.  It needs a hop to look at a lower
name, and one to spare and a change of mount to look at the directories of a missing one. -/
def Spot.Seen (w : World) (s : Spot) : Prop :=
  ∀ m, deepest w.mounts s.name = some m → m.producer = none → ¬Gone w m s.name →
    (m.upper = [] ∨ probeLink w.host (m.up s.name) = .absent) →
    s.hops < maxHops ∧
      (Missing w.host m s.name → s.hops + 1 < maxHops ∧ s.cross < maxCross)

/-- The end of the links is within the limits. -/
def Resolves (w : World) (s : Spot) (q : Str) : Prop :=
  ∃ e, Reaches w s e ∧ e.name = q ∧ viewLink w q = none ∧ e.Seen w

/-- The lower path of `g` passes through real directories: the mounted directory is one, and no
directory between it and the entry is a link. -/
def RealParents (w : World) (g : Str) : Prop :=
  ∀ m, deepest w.mounts g = some m → m.producer = none →
    (∃ d, w.host.lstat m.hostBase = .ok d ∧ d.isDir) ∧
    ∀ as bs, comps (m.lo g) = comps m.hostBase ++ (as ++ bs) → bs ≠ [] →
    ∀ n, w.host.lstat (absPath (comps m.hostBase ++ as)) = .ok n → n.isLink = false

/-- The layer the entry at `g` shows from. -/
def visibleLayer (h : Host) (m : Mount) (g : Str) : Str :=
  if m.upper ≠ [] ∧ probeLink h (m.up g) ≠ .absent then m.upper else m.hostBase

/-- What the hop from a link `g` with text `t` must not run into. -/
structure HopOk (w : World) (m : Mount) (g t : Str) : Prop where
  /-- The target is not a deleted name of the same mount. -/
  notDeleted : deepest w.mounts (refTarget g t) = some m → m.upper ≠ [] →
    probeLink w.host (m.up (refTarget g t)) = .absent → w.isWhiteout (refTarget g t) = false
  /-- A relative link is not read from a lower path that begins like the upper directory. -/
  notConfused : isAbs t = false → m.upper ≠ [] → m.upper.isPrefixOf (visiblePath w.host m g) →
    probeLink w.host (m.up g) ≠ .absent
  /-- A relative link is not read from the host root mounted elsewhere. -/
  notRoot : isAbs t = false → visibleLayer w.host m g = slash → comps m.pre = []

/-! ## The target of a link -/

section Target

variable {m : Mount} {g : Str}

/-- The root's own prefix adds nothing in front of a guest path. -/
theorem Mount.pre_eq_render (hg : Normal g) (hc : m.covers g) :
    (if m.pre = slash then [] else m.pre) = render (comps m.pre) := by
  obtain ⟨cs, hcs, rfl⟩ := hg
  rcases (Mount.covers_absPath hcs).mp hc with hp | ⟨cs1, cs2, rfl, hp⟩
  · rw [if_pos hp, hp]; rfl
  · have hr : comps m.pre = cs1 := by
      rw [hp, comps_render fun c hc => (hcs c (by simp [hc])).ne_nil_noSlash]
    rw [hr]
    split_ifs with hs
    · -- a rendered prefix is never the single slash
      cases cs1 with
      | nil => rfl
      | cons c cs1 =>
        rw [hp] at hs
        simp only [render_cons, slash, List.cons.injEq, append_eq_nil_iff] at hs
        exact absurd hs.2.1 (hcs c (by simp)).1
    · exact hp

theorem comps_tail_absPath {cs : List Str} (hcs : ∀ c ∈ cs, IsName c) :
    comps (absPath cs).tail = cs := by
  have hcons : absPath cs = '/' :: (absPath cs).tail := by
    have := isAbs_absPath cs
    cases h : absPath cs with
    | nil => exact absurd h (absPath_ne_nil cs)
    | cons x xs => simp_all [isAbs]
  rw [← comps_slash, ← hcons, comps_absPath hcs]

theorem getLast?_tail_absPath {cs : List Str} (hcs : ∀ c ∈ cs, IsName c) :
    (absPath cs).tail.getLast? ≠ some '/' := by
  cases cs with
  | nil => simp
  | cons c cs =>
    have h := getLast?_absPath hcs (by simp)
    rw [absPath_of_ne_nil (by simp), render_cons] at h ⊢
    have hc := (hcs c (by simp)).1
    rwa [List.getLast?_cons_of_ne_nil (by simp [hc])] at h

/-- A host path mapped back through the right base names the guest directory of the link. -/
theorem comps_linkDir (hg : Normal g) (hc : m.covers g) {b : Str} (hb : Normal b)
    (hbase : linkBase m (joinHost b (m.rel g)) = b) (hroot : b = slash → comps m.pre = []) :
    comps (linkDir m (joinHost b (m.rel g))) = (comps g).dropLast := by
  obtain ⟨rs, hrs, hcg, _⟩ := Mount.rel_eq hg hc
  have hnames : ∀ c ∈ comps g, IsName c := fun c hc => hg.isName hc
  unfold linkDir
  rw [hbase, Mount.joinHost_split hg hc hcg hb]
  -- the guest path of the link, up to its leading slash
  have hlink : ∃ s, (if m.pre = slash then (absPath (comps b ++ rs)).drop b.length
      else m.pre ++ (absPath (comps b ++ rs)).drop b.length) = s ∧ comps s = comps g ∧
      s.getLast? ≠ some '/' := by
    have hsplit : ∀ x : Str, (if m.pre = slash then x else m.pre ++ x) =
        (if m.pre = slash then [] else m.pre) ++ x := by
      intro x
      split_ifs <;> simp
    refine ⟨_, rfl, ?_⟩
    rw [hsplit, Mount.pre_eq_render hg hc]
    by_cases h0 : comps b = []
    · have hslash : b = slash := by rw [← hb.absPath_comps, h0]; rfl
      have hpre := hroot hslash
      rw [hpre, nil_append] at hcg
      rw [hpre, h0, hslash, hcg]
      have hrs' : ∀ c ∈ rs, IsName c := hrs
      simp only [render_nil, nil_append, slash, length_singleton, drop_one]
      exact ⟨comps_tail_absPath hrs', getLast?_tail_absPath hrs'⟩
    · have hlen : b.length = (render (comps b)).length := by
        conv_lhs => rw [← hb.absPath_comps, absPath_of_ne_nil h0]
      rw [absPath_of_ne_nil (by simp [h0]), render_append, hlen, drop_left, ← render_append, ← hcg]
      refine ⟨comps_render fun c hc => (hnames c hc).ne_nil_noSlash, ?_⟩
      by_cases hcs : comps g = []
      · simp [hcs]
      · rw [← absPath_of_ne_nil hcs]
        exact getLast?_absPath hnames hcs
  obtain ⟨s, hs, hcs, hlast⟩ := hlink
  simp only [hs]
  rw [← hcs]
  split_ifs with hmem
  · exact comps_dirOf hmem hlast
  · -- a single component, or the root itself
    by_cases h0 : s = []
    · simp [h0, slash]
    · rw [comps_of_noSlash hmem h0]
      simp [slash]

theorem comps_dirOf_normal (hg : Normal g) : comps (dirOf g) = (comps g).dropLast := by
  obtain ⟨cs, hcs, rfl⟩ := hg
  by_cases h0 : cs = []
  · subst h0; rfl
  · refine comps_dirOf ?_ (getLast?_absPath hcs h0)
    have := isAbs_absPath cs
    simp only [isAbs, beq_iff_eq] at this
    exact mem_of_mem_head? this

theorem linkTarget_eq (hg : Normal g) (hc : m.covers g) {b : Str} (hb : Normal b) {t : Str}
    (hok : isAbs t = false → linkBase m (joinHost b (m.rel g)) = b ∧
        (b = slash → comps m.pre = [])) :
    linkTarget m (joinHost b (m.rel g)) t = refTarget g t := by
  unfold linkTarget refTarget
  split_ifs with ht
  · rfl
  · obtain ⟨hbase, hroot⟩ := hok (by simpa using ht)
    rw [normalizePath, normalizePath, comps_append_slash, comps_append_slash,
      comps_linkDir hg hc hb hbase hroot, comps_dirOf_normal hg]

end Target

/-! ## A missing name below real directories -/

section Prefix

variable {h : Host} {m : Mount} {bs : List Str}

/-- The directory `bs` is there, and no directory between it and the end of `rs` is a link. -/
structure RealBelow (h : Host) (bs rs : List Str) : Prop where
  names : ∀ c ∈ bs ++ rs, IsName c
  base : ∃ d, h.lstat (absPath bs) = .ok d ∧ d.isDir
  below : ∀ as as', rs = as ++ as' → as' ≠ [] → ∀ n, h.lstat (absPath (bs ++ as)) = .ok n →
    n.isLink = false

variable {rs : List Str}

theorem RealBelow.dropLast {c : Str} (hr : RealBelow h bs (rs ++ [c])) : RealBelow h bs rs where
  names := fun d hd => hr.names d (by simp at hd ⊢; tauto)
  base := hr.base
  below :=
    fun as as' hrs _ n hn => hr.below as (as' ++ [c]) (by rw [hrs, append_assoc]) (by simp) n hn

theorem found_of_lstat {s : Str} {n : Node} (hs : h.lstat s = .ok n) :
    ∃ l, h.resolve s false = .ok (.found l) ∧ h.node l = some n := by
  unfold Host.lstat Host.nodeOf at hs
  split at hs
  · cases hs
  · cases hs
  · rename_i l hl
    split at hs
    · cases hs
    · rename_i k hk
      cases hs
      exact ⟨l, hl, hk⟩

theorem readlink_ne_eloop (hr : RealBelow h bs rs) :
    h.readlink (absPath (bs ++ rs)) ≠ .error .eloop := by
  obtain ⟨d, hd, hdir⟩ := hr.base
  obtain ⟨l, hl, hn⟩ := found_of_lstat hd
  have hdl : d.isLink = false := by
    cases hk : d.kind <;> simp_all [Node.isDir, Node.isLink]
  have hbs : ∀ c ∈ bs, IsName c := fun c hc => hr.names c (by simp [hc])
  -- the walk to the base directory, and on from there
  have hbase : h.walk true maxLinks [] bs = .ok (.found l) := by
    have := Host.resolve_true_of_found hl fun k hk => by rw [hn] at hk; cases hk; exact hdl
    rw [Host.resolve_absPath hbs] at this
    split_ifs at this
    exact this
  obtain ⟨k, hk⟩ := Host.walk_append_eq hbase
  have hwalk : ¬ pathMax ≤ (absPath (bs ++ rs)).length →
      h.walk false maxLinks [] (bs ++ rs) ≠ .error .eloop := by
    intro hlen
    by_cases h0 : rs = []
    · rw [h0, append_nil]
      rw [Host.resolve_absPath hbs] at hl
      split_ifs at hl
      rw [hl]
      simp
    · rw [hk false rs h0]
      refine Host.walk_ne_eloop fun as as' hrs has' l' n hw hn' => ?_
      by_cases ha : as = []
      · rw [ha] at hw
        simp only [Host.walk_nil, Except.ok.injEq, Place.found.injEq] at hw
        rw [← hw, hn] at hn'
        cases hn'
        exact hdl
      · have hnames : ∀ c ∈ bs ++ as, IsName c :=
          fun c hc => hr.names c (by rw [hrs]; simp at hc ⊢; tauto)
        have hpre : bs ++ as <+: bs ++ rs := ⟨as', by rw [hrs, append_assoc]⟩
        have hle := Host.length_absPath_le hpre
        refine hr.below as as' hrs has' n ?_
        simp [Host.lstat, Host.nodeOf, Host.resolve_absPath hnames,
          show ¬pathMax ≤ (absPath (bs ++ as)).length by omega, hk false as ha, hw, hn']
  unfold Host.readlink Host.lstat Host.nodeOf
  rw [Host.resolve_absPath hr.names]
  split_ifs with hlen
  · simp
  · have := hwalk hlen
    cases hw : h.walk false maxLinks [] (bs ++ rs) with
    | error e => simpa [hw] using this
    | ok pl =>
      cases pl with
      | free => simp
      | found l' =>
        cases hn' : h.node l' with
        | none => simp [hn']
        | some n => cases hkind : n.kind <;> simp [hn', hkind]

theorem readlink_ne_ok {s : Str} (hs : ∀ n, h.lstat s = .ok n → n.isLink = false) (t : Str) :
    h.readlink s ≠ .ok t := by
  unfold Host.readlink
  cases hl : h.lstat s with
  | error e => simp
  | ok n =>
    cases hk : n.kind <;> simp_all [Node.isLink]

theorem chaseUp_none (hr : RealBelow h bs rs) (h0 : rs ≠ []) (fuel : Nat) (tail : Str) :
    chaseUp h m fuel (absPath (bs ++ rs)) tail = none := by
  induction fuel generalizing rs tail with
  | zero => rfl
  | succ fuel ih =>
    obtain ⟨rs', c, rfl⟩ := (eq_nil_or_concat rs).resolve_left h0
    rw [concat_eq_append] at *
    have hc := hr.names c (by simp)
    have hdir : dirOf (absPath (bs ++ (rs' ++ [c]))) = render (bs ++ rs') := by
      rw [absPath_of_ne_nil (by simp), ← append_assoc, render_snoc, dirOf_append _ hc.2.1]
    rw [chaseUp, hdir]
    split_ifs with hend
    · rfl
    · have hne : bs ++ rs' ≠ [] := fun hnil => hend (by rw [hnil]; rfl)
      rw [← absPath_of_ne_nil hne]
      have hlink := hr.below rs' [c] rfl (by simp)
      have hloop := readlink_ne_eloop hr.dropLast
      dsimp only
      split
      · rename_i he
        refine ih hr.dropLast ?_ _
        -- the base directory itself is there
        rintro rfl
        obtain ⟨d, hd, hdir⟩ := hr.base
        rw [append_nil, Host.readlink, hd] at he
        cases hk : d.kind <;> simp [hk] at he
      · rename_i he
        exact absurd he hloop
      · rfl
      · rename_i t ht
        exact absurd ht (readlink_ne_ok hlink t)

end Prefix

/-! ## One mount -/

section Mount

variable {w : World} {m : Mount} {g : Str}

theorem viewLink_eq (hd : deepest w.mounts g = some m) (hp : m.producer = none) :
    viewLink w g = if Gone w m g then none else shownLink w.host m g := by
  have hlower : (match (w.host.lstat (m.lo g)).toOption with
      | some n => match n.kind with | .link t => some t | _ => none
      | none => none) = (w.host.readlink (m.lo g)).toOption := by
    unfold Host.readlink
    cases w.host.lstat (m.lo g) with
    | error e => rfl
    | ok n => cases hk : n.kind <;> simp [Except.toOption, hk]
  unfold viewLink viewNode shownLink Gone probeLink
  rw [hd]
  simp only [hp, Option.isSome_none, Bool.false_eq_true, if_false]
  by_cases hu : m.upper = []
  · simp only [hu, if_true, ne_eq, not_true, false_and, if_false]
    exact hlower
  simp only [hu, if_false, ne_eq, not_false_eq_true, true_and]
  cases nodeAnyLength w.host (m.up g) false with
  | ok n => cases hk : n.kind <;> simp [hk]
  | error e => cases e <;> by_cases hw : w.isWhiteout g <;> simp [hw, hlower]

theorem shownLink_of_view {t : Str} (hd : deepest w.mounts g = some m) (hp : m.producer = none)
    (hv : viewLink w g = some t) : shownLink w.host m g = some t := by
  rw [viewLink_eq hd hp] at hv
  split_ifs at hv
  exact hv

theorem visiblePath_eq : visiblePath w.host m g = joinHost (visibleLayer w.host m g) (m.rel g) := by
  unfold visiblePath visibleLayer
  split_ifs <;> rfl

theorem visibleLayer_normal (hp : m.producer = none) : Normal (visibleLayer w.host m g) := by
  unfold visibleLayer
  split_ifs with hu
  · exact m.upper_normal.resolve_left hu.1
  · exact m.base_normal hp

variable {t : Str} {depth k : Nat}

theorem linkBase_visible (hok : HopOk w m g t) (ht : isAbs t = false) :
    linkBase m (visiblePath w.host m g) = visibleLayer w.host m g := by
  unfold linkBase
  by_cases hu : m.upper = []
  · simp [hu, visibleLayer]
  rw [if_neg hu]
  by_cases hpr : probeLink w.host (m.up g) = .absent
  · have hlayer : visibleLayer w.host m g = m.hostBase := by simp [visibleLayer, hpr]
    rw [hlayer]
    exact if_neg fun hpre => hok.notConfused ht hu hpre hpr
  · have hlayer : visibleLayer w.host m g = m.upper := by simp [visibleLayer, hu, hpr]
    rw [hlayer, visiblePath_up hu hpr, if_pos]
    rw [ isPrefixOf_iff_prefix, Mount.up, joinHost]
    split_ifs
    · exact prefix_refl _
    · exact ⟨_, (append_assoc _ _ _).symm⟩
    · exact prefix_append _ _

theorem linkTarget_visible (hg : Normal g) (hd : deepest w.mounts g = some m)
    (hp : m.producer = none) (hok : HopOk w m g t) :
    linkTarget m (visiblePath w.host m g) t = refTarget g t := by
  rw [visiblePath_eq]
  refine linkTarget_eq hg (deepest_mem hd).2 (visibleLayer_normal hp) fun ht => ⟨?_, hok.notRoot ht⟩
  rw [← visiblePath_eq]
  exact linkBase_visible hok ht

theorem RealParents.below (hr : RealParents w g) (hg : Normal g) (hd : deepest w.mounts g = some m)
    (hp : m.producer = none) :
    ∃ rs, m.lo g = absPath (comps m.hostBase ++ rs) ∧ RealBelow w.host (comps m.hostBase) rs := by
  obtain ⟨rs, hrs, hcg, _⟩ := Mount.rel_eq hg (deepest_mem hd).2
  have hb := m.base_normal hp
  have hlo : m.lo g = absPath (comps m.hostBase ++ rs) :=
    Mount.joinHost_split hg (deepest_mem hd).2 hcg hb
  have hnames : ∀ c ∈ comps m.hostBase ++ rs, IsName c := by
    intro c hc
    rcases mem_append.mp hc with hc | hc
    · exact hb.isName hc
    · exact hrs c hc
  obtain ⟨hbase, hbelow⟩ := hr m hd hp
  refine ⟨rs, hlo, hnames, by rwa [hb.absPath_comps], fun as as' h1 h2 n hn => ?_⟩
  exact hbelow as as' (by rw [hlo, comps_absPath hnames, h1]) h2 n hn

/-- Below real directories there is no link to find on the way up from a missing name. -/
theorem chaseUp_missing (hr : RealParents w g) (hg : Normal g) (hd : deepest w.mounts g = some m)
    (hp : m.producer = none) (hmiss : Missing w.host m g) (fuel : Nat) :
    chaseUp w.host m fuel (m.lo g) [] = none := by
  obtain ⟨rs, hlo, hbelow⟩ := hr.below hg hd hp
  rw [hlo]
  refine chaseUp_none hbelow ?_ fuel []
  -- the mounted directory itself is there
  rintro rfl
  obtain ⟨d, hd', hdir⟩ := hbelow.base
  have hread := hmiss.2
  rw [hlo, append_nil, Host.readlink, hd'] at hread
  cases hk : d.kind <;> simp [hk] at hread

/-- The chase at the end of the links, with `k` of its hops used up. -/
theorem descend_end {x k : Nat} (hr : RealParents w g) (hg : Normal g)
    (hd : deepest w.mounts g = some m) (hp : m.producer = none) (hgone : ¬Gone w m g)
    (hv : viewLink w g = none) (hk : k ≤ maxHops) :
    (Spot.Seen w ⟨x, k, g⟩ ∧ descend w.host w.mounts m g x (maxHops - k) =
        .done (.host (visiblePath w.host m g))) ∨
      (¬Spot.Seen w ⟨x, k, g⟩ ∧ descend w.host w.mounts m g x (maxHops - k) =
        .done (.missing .eloop)) := by
  have hs : shownLink w.host m g = none := by rwa [viewLink_eq hd hp, if_neg hgone] at hv
  have hseen : (k < maxHops ∧ (Missing w.host m g → k + 1 < maxHops ∧ x < maxCross)) →
      Spot.Seen w ⟨x, k, g⟩ := by
    rintro h m' hd' - - -
    cases hd.symm.trans hd'
    exact h
  have hunseen : (m.upper = [] ∨ probeLink w.host (m.up g) = .absent) →
      ¬(k < maxHops ∧ (Missing w.host m g → k + 1 < maxHops ∧ x < maxCross)) →
      ¬Spot.Seen w ⟨x, k, g⟩ := fun hlow hnot h => hnot (h m hd hp hgone hlow)
  by_cases hlow : m.upper = [] ∨ probeLink w.host (m.up g) = .absent
  · rcases hk.lt_or_eq with hlt | rfl
    · rw [show maxHops - k = maxHops - (k + 1) + 1 by omega, descend_rest hs]
      by_cases hmiss : Missing w.host m g
      · rw [if_pos hmiss, chasePrefix, chaseUp_missing hr hg hd hp hmiss]
        by_cases hlim : k + 1 < maxHops ∧ x < maxCross
        · rw [if_neg (by omega)]
          exact .inl ⟨hseen ⟨hlt, fun _ => hlim⟩, rfl⟩
        · rw [if_pos (by omega)]
          exact .inr ⟨hunseen hlow fun h => hlim (h.2 hmiss), rfl⟩
      · rw [if_neg hmiss]
        exact .inl ⟨hseen ⟨hlt, fun h => absurd h hmiss⟩, rfl⟩
    · rw [Nat.sub_self, descend_zero, if_neg fun h => by rcases hlow with h' | h' <;> simp_all]
      exact .inr ⟨hunseen hlow fun h => absurd h.1 (lt_irrefl _), rfl⟩
  · obtain ⟨hu, hpr⟩ := not_or.1 hlow
    have hdone : descend w.host w.mounts m g x (maxHops - k) =
        .done (.host (visiblePath w.host m g)) := by
      rw [visiblePath_up hu hpr, descend, if_neg hu]
      rw [shownLink, if_neg hu] at hs
      cases hprobe : probeLink w.host (m.up g) <;> simp_all
    refine .inl ⟨fun m' hd' _ _ h => ?_, hdone⟩
    cases hd.symm.trans hd'
    exact absurd h hlow

/-- A read of a name that is not gone: the chase, or the entry that shows. -/
theorem classifyStep_chase (hd : deepest w.mounts g = some m) (hp : m.producer = none)
    (hgone : ¬ Gone w m g) (wi : WriteIntent) (depth : Nat) (follow : Bool) :
    classifyStep w depth false follow wi g =
      (if follow then descend w.host w.mounts m g depth maxHops
        else .done (.host (visiblePath w.host m g)), w) := by
  rw [classifyStep_read hd hp (.inl rfl), if_neg hgone]

/-- How a read of a name begins: with an answer that following does not change, or with the
chase in one mount. -/
theorem classifyStep_cases (w : World) (wi : WriteIntent) (g : Str) :
    (viewLink w g = none ∧ (∀ m, deepest w.mounts g = some m → m.producer = none → Gone w m g) ∧
      ∃ pc, ∀ depth follow, classifyStep w depth false follow wi g = (.done pc, w)) ∨
      ∃ m, deepest w.mounts g = some m ∧ m.producer = none ∧ ¬ Gone w m g := by
  cases hd : deepest w.mounts g with
  | none =>
    refine .inl ⟨by simp [viewLink, viewNode, hd], nofun, .missing .enoent, fun _ _ => ?_⟩
    simp only [classifyStep, hd]
  | some m =>
    cases hp : m.producer with
    | some prod =>
      refine .inl ⟨by simp [viewLink, viewNode, hd, hp], ?_, ?_⟩
      · rintro _ ⟨⟩ hp'
        cases hp.symm.trans hp'
      · cases hvf : prod g with
        | error e => exact ⟨_, fun _ _ => by simp only [classifyStep, hd, hp, hvf]; rfl⟩
        | ok vf =>
          refine ⟨if vf.redirectHost ≠ [] then .host vf.redirectHost
            else { realm := .virtualFile, virtualPath := g }, fun _ _ => ?_⟩
          simp only [classifyStep, hd, hp, hvf]
          split_ifs <;> rfl
    | none =>
      by_cases hgone : Gone w m g
      · refine .inl ⟨by rw [viewLink_eq hd hp, if_pos hgone], ?_, .missing .enoent, fun _ _ => ?_⟩
        · rintro _ ⟨⟩ -
          exact hgone
        · rw [classifyStep_read hd hp (.inl rfl), if_pos hgone]
      · exact .inr ⟨m, rfl, hp, hgone⟩

end Mount

/-! ## The whole chase -/

section Chain

variable {w : World} {wi : WriteIntent}

/-- Every link that the code comes to within its limits is harmless. -/
def CleanFrom (w : World) (s : Spot) : Prop :=
  ∀ e, Reaches w s e → e.hops < maxHops → ∀ t m, viewLink w e.name = some t →
    deepest w.mounts e.name = some m → HopOk w m e.name t

variable {g q : Str}

theorem CleanFrom.next {s s' : Spot} (hc : CleanFrom w s) (hn : s.Next w s') : CleanFrom w s' :=
  fun e he => hc e (.head hn he)

/-- What a chase in the mount `m` comes to, with `b` more changes of mount. -/
def settle (w : World) (wi : WriteIntent) (b : Nat) : Chase → PathClass
  | .done pc => pc
  | .reclassify next => (classifyImpl false wi b true next w).1

theorem classifyImpl_settle (b : Nat) (follow : Bool) (g : Str) :
    (classifyImpl false wi b follow g w).1 =
      settle w wi (b - 1) (classifyStep w (maxCross - b) false follow wi g).1 := by
  have hw := @classifyStep_same _ wi (.inl rfl) w (maxCross - b) follow g
  rw [classifyImpl.eq_def]
  rcases hs : classifyStep w (maxCross - b) false follow wi g with ⟨pc | next, w'⟩
  · rfl
  · rw [hs] at hw
    obtain rfl : w' = w := hw
    cases b with
    | zero => exact absurd (classifyStep_reclassify hs).1 (by omega)
    | succ b => rfl

theorem refTarget_normal (g t : Str) : Normal (refTarget g t) := by
  unfold refTarget
  split_ifs <;> exact normalizePath_normal _

/-- A name is one link away from the next, so the links from `g` end where those of the next do. -/
theorem Resolves.iff_next {x k : Nat} {g' : Str} {s : Spot} (hop : Hop w g g')
    (hnext : ∀ s', Spot.Next w ⟨x, k, g⟩ s' ↔ s' = s) :
    Resolves w ⟨x, k, g⟩ q ↔ Resolves w s q := by
  constructor
  · rintro ⟨e, he, rfl, hv, hseen⟩
    obtain rfl | ⟨s', hs', he'⟩ := he.cases_head
    · obtain ⟨t, ht, -⟩ := hop
      rw [hv] at ht
      cases ht
    · cases (hnext s').1 hs'
      exact ⟨e, he', rfl, hv, hseen⟩
  · rintro ⟨e, he, hrest⟩
    exact ⟨e, .head ((hnext s).2 rfl) he, hrest⟩

theorem Hop.unique {g' g'' : Str} (h : Hop w g g') (h' : Hop w g g'') : g' = g'' := by
  obtain ⟨t, ht, rfl⟩ := h
  obtain ⟨t', ht', rfl⟩ := h'
  cases ht.symm.trans ht'
  rfl

/-- Without a next name within the limits, a link has no end within them. -/
theorem not_resolves {s : Spot} {g' : Str} (hop : Hop w s.name g') (hnext : ∀ s', ¬s.Next w s') :
    ¬Resolves w s q := by
  rintro ⟨e, he, rfl, hv, -⟩
  obtain rfl | ⟨s', hs', -⟩ := he.cases_head
  · obtain ⟨t, ht, -⟩ := hop
    rw [hv] at ht
    cases ht
  · exact hnext s' hs'

theorem resolves_self {s : Spot} (hv : viewLink w s.name = none) :
    Resolves w s s.name ↔ s.Seen w := by
  constructor
  · rintro ⟨e, he, -, -, hseen⟩
    obtain rfl | ⟨s', hs', -⟩ := he.cases_head
    · exact hseen
    · cases hs' with
      | within hop | across hop =>
        obtain ⟨t, ht, -⟩ := hop
        rw [hv] at ht
        cases ht
  · exact fun h => ⟨s, .refl, rfl, hv, h⟩

/-- The answer is that of the final target, or the limits are passed and it is ELOOP. -/
def Comes (w : World) (wi : WriteIntent) (s : Spot) (q : Str) (pc : PathClass) : Prop :=
  (Resolves w s q ∧ pc = (classifyImpl false wi maxCross false q w).1) ∨
    (¬Resolves w s q ∧ pc = .missing .eloop)

/-- An entry into a mount, given what the chase in that mount comes to. -/
theorem classifyImpl_enter {x : Nat} (hx : x ≤ maxCross) (hv : Visited w g q)
    (hchase : ∀ m, deepest w.mounts g = some m → m.producer = none → ¬ Gone w m g →
      Comes w wi ⟨x, 0, g⟩ q (settle w wi (maxCross - x - 1)
        (descend w.host w.mounts m g x maxHops))) :
    Comes w wi ⟨x, 0, g⟩ q (classifyImpl false wi (maxCross - x) true g w).1 := by
  rw [classifyImpl_settle, show maxCross - (maxCross - x) = x by omega]
  rcases classifyStep_cases w wi g with ⟨hnone, hgone, pc, hpc⟩ | ⟨m, hd, hp, hgone⟩
  · obtain rfl : g = q := by
      obtain rfl | ⟨c, ⟨t, ht, -⟩, -⟩ := hv.cases_head
      · rfl
      · rw [hnone] at ht
        cases ht
    refine .inl ⟨(resolves_self hnone).2 fun m hd hp hnot => absurd (hgone m hd hp) hnot, ?_⟩
    rw [classifyImpl_settle, hpc, hpc]
    rfl
  · rw [classifyStep_chase hd hp hgone, if_pos rfl]
    exact hchase m hd hp hgone

/-- The chase of `follow_from` keeps step with the reference: by induction on the reference's
hops, with the entry into a mount as the case of a change of mount. -/
theorem descend_comes {x k : Nat} {m : Mount} (hv : Visited w g q) (hq : viewLink w q = none)
    (hreal : ∀ a, Visited w g a → RealParents w a) (hclean : CleanFrom w ⟨x, k, g⟩) (hg : Normal g)
    (hx : x ≤ maxCross) (hk : k ≤ maxHops) (hd : deepest w.mounts g = some m)
    (hp : m.producer = none) (hgone : ¬ Gone w m g) :
    Comes w wi ⟨x, k, g⟩ q (settle w wi (maxCross - x - 1)
      (descend w.host w.mounts m g x (maxHops - k))) := by
  induction hv using Relation.ReflTransGen.head_induction_on generalizing x k m with
  | refl =>
    have hans : (classifyImpl false wi maxCross false q w).1 = .host (visiblePath w.host m q) := by
      rw [classifyImpl_settle, classifyStep_chase hd hp hgone]
      rfl
    rcases descend_end (hreal q .refl) hg hd hp hgone hq hk with ⟨hseen, he⟩ | ⟨hseen, he⟩
    · exact .inl ⟨(resolves_self hq).2 hseen, by rw [he, hans]; rfl⟩
    · exact .inr ⟨fun h => hseen ((resolves_self hq).1 h), by rw [he]; rfl⟩
  | @head g g' hop hrest ih =>
    obtain ⟨t, ht, rfl⟩ := id hop
    have hs := shownLink_of_view hd hp ht
    have hreal' := fun a ha => hreal a (Relation.ReflTransGen.head hop ha)
    rcases hk.lt_or_eq with hlt | rfl
    · have hok := hclean _ .refl hlt t m ht hd
      rw [show maxHops - k = maxHops - (k + 1) + 1 by omega, descend_link hs,
        linkTarget_visible hg hd hp hok]
      by_cases hsame : deepest w.mounts (refTarget g t) = deepest w.mounts g
      · have hd' : deepest w.mounts (refTarget g t) = some m := hsame.trans hd
        have hnext : Spot.Next w ⟨x, k, g⟩ ⟨x, k + 1, refTarget g t⟩ := .within hop hsame hlt
        rw [if_neg (by simp [hd']), Comes,
          Resolves.iff_next hop fun s' => ⟨fun h => ?_, (· ▸ hnext)⟩]
        · refine ih hreal' (hclean.next hnext) (refTarget_normal g t) hx hlt hd' hp ?_
          rintro ⟨hu, hpr, hw⟩
          rw [hok.notDeleted hd' hu hpr] at hw
          cases hw
        · cases h with
          | within hop' => rw [hop.unique hop']
          | across hop' hdiff => exact absurd (hop.unique hop' ▸ hsame) hdiff
      · have hother : (deepest w.mounts (refTarget g t)).map (·.pre) ≠ some m.pre := by
          intro hpre
          exact hsame ((deepest_of_map_pre hd (not_not.mpr hpre)).trans hd.symm)
        rw [if_pos hother]
        rcases hx.lt_or_eq with hxlt | rfl
        · have hnext : Spot.Next w ⟨x, k, g⟩ ⟨x + 1, 0, refTarget g t⟩ := .across hop hsame hlt hxlt
          rw [if_neg (by omega), Comes,
            Resolves.iff_next hop fun s' => ⟨fun h => ?_, (· ▸ hnext)⟩]
          · refine classifyImpl_enter hxlt hrest fun m' hd' hp' hgone' => ?_
            exact ih hreal' (hclean.next hnext) (refTarget_normal g t) hxlt (Nat.zero_le _) hd' hp'
              hgone'
          · cases h with
            | within hop' hsame' => exact absurd (hop.unique hop' ▸ hsame') hsame
            | across hop' => rw [hop.unique hop']
        · rw [if_pos le_rfl]
          refine .inr ⟨not_resolves hop fun s' h => ?_, rfl⟩
          cases h with
          | within hop' hsame' => exact hsame (hop.unique hop' ▸ hsame')
          | across _ _ _ hx => exact lt_irrefl _ hx
    · refine .inr ⟨not_resolves hop fun s' h => ?_, ?_⟩
      · cases h with
        | within _ _ hk | across _ _ hk => exact lt_irrefl _ hk
      · rw [Nat.sub_self, descend_zero, if_neg]
        · rfl
        · rintro ⟨hu, hpr | hpr⟩ <;> simp [shownLink, hu, hpr] at hs

/-- The classifier's answer for a name and for its final target, before the alias step. -/
theorem classifyImpl_comes {p : Str} (hp : Normal p) (hq : Final w p q)
    (hreal : ∀ g, Visited w p g → RealParents w g) (hclean : CleanFrom w ⟨0, 0, p⟩) :
    Comes w wi ⟨0, 0, p⟩ q (classifyImpl false wi maxCross true p w).1 :=
  classifyImpl_enter (Nat.zero_le _) hq.1 fun _ hd hm hgone =>
    descend_comes hq.1 hq.2 hreal hclean hp (Nat.zero_le _) (Nat.zero_le _) hd hm hgone

/-- The producer of the mount answers ELOOP for the name. -/
def LoopsVirtually (w : World) (q : Str) : Prop :=
  ∃ m prod, deepest w.mounts q = some m ∧ m.producer = some prod ∧ prod q = .error .eloop

theorem classifyImpl_eloop_iff :
    (classifyImpl false wi maxCross false q w).1 = .missing .eloop ↔ LoopsVirtually w q := by
  rw [classifyImpl_settle]
  unfold LoopsVirtually
  cases hd : deepest w.mounts q with
  | none => simp [classifyStep, hd, settle, PathClass.missing]
  | some m =>
    cases hp : m.producer with
    | none =>
      rw [classifyStep_read hd hp (.inl rfl), if_neg Bool.false_ne_true]
      split_ifs <;> simp [settle, PathClass.missing, PathClass.host, hp]
    | some prod =>
      simp only [classifyStep, hd, hp]
      cases hvf : prod q with
      | error e => simp [settle, PathClass.missing, hp, hvf]
      | ok vf =>
        dsimp only
        split_ifs <;> simp [settle, PathClass.missing, PathClass.host, hp, hvf]

theorem resolveAlias_eq_missing {pc : PathClass} {e : Errno} :
    resolveAlias w wi pc = .missing e ↔ pc = .missing e := by
  unfold resolveAlias
  split_ifs with h
  · have hne : pc ≠ .missing e := by
      rintro rfl
      cases h.1
    split
    · exact Iff.rfl
    · refine iff_of_false (fun he => ?_) hne
      have hr := congrArg PathClass.realm he
      dsimp only at hr
      rw [h.1] at hr
      cases hr
  · exact Iff.rfl

end Chain

/-- **The chase agrees with the reference.** Where no link that the code comes to leads it astray, a
following read of `p` answers what a read of its final target without following answers, exactly
if the links end within the limits; past them it is ELOOP. -/
theorem classify_follow_iff (w : World) (wi : WriteIntent) {p q : Str} (hp : normalizePath p = p)
    (hq : Final w p q) (hreal : ∀ g, Visited w p g → RealParents w g)
    (hclean : CleanFrom w ⟨0, 0, p⟩) :
    classify p false true wi w = classify q false false wi w ↔
      Resolves w ⟨0, 0, p⟩ q ∨ LoopsVirtually w q := by
  have hcomes := @classifyImpl_comes w wi q p (normalizePath_eq_self_iff.mp hp) hq hreal hclean
  have heq : classify p false true wi w = classify q false false wi w ↔
      resolveAlias w wi (classifyImpl false wi maxCross true p w).1 =
        resolveAlias w wi (classifyImpl false wi maxCross false q w).1 := by
    simp only [classify, classifyName, classifyImpl_read, Prod.ext_iff, and_true]
  rw [heq]
  rcases hcomes with ⟨hr, he⟩ | ⟨hr, he⟩
  · simp only [he, hr, true_or]
  · have hloop : resolveAlias w wi (.missing .eloop) = .missing .eloop :=
      resolveAlias_eq_missing.2 rfl
    rw [he, hloop, eq_comm, resolveAlias_eq_missing, classifyImpl_eloop_iff]
    simp only [hr, false_or]

/-! ## Two links in two trees -/

/-- Two lower trees `/srv/root` and `/srv/up-low`, each with a file `t` and a link `l` to it, and
an empty upper directory `/srv/up`. -/
def twinHost : Host :=
  Host.ofList
    [([], ⟨0, 0o755, .dir⟩), (["srv"], ⟨1, 0o755, .dir⟩), (["srv", "up"], ⟨2, 0o755, .dir⟩),
      (["srv", "root"], ⟨3, 0o755, .dir⟩), (["srv", "root", "l"], ⟨4, 0o777, .link "t"⟩),
      (["srv", "root", "t"], ⟨5, 0o644, .file []⟩), (["srv", "up-low"], ⟨6, 0o755, .dir⟩),
      (["srv", "up-low", "l"], ⟨7, 0o777, .link "t"⟩),
      (["srv", "up-low", "t"], ⟨8, 0o644, .file []⟩)] 9 (by decide)

/-- One of the trees mounted at the guest root below the upper directory; the path of the other
one begins like the upper directory's. -/
def twinMount (low : Bool) : Mount :=
  mountHost slash slash (if low then "/srv/up-low" else "/srv/root") "/srv/up"
    (by cases low <;> decide)

def twinWorld (low : Bool) (whiteouts : Finset Str) : World where
  host := twinHost
  mounts := [twinMount low]
  whiteouts := whiteouts

variable {g : Str} {w : World}

/-- Of a link to a name that is not one, only the two are visited. -/
theorem visited_one_hop {p t : Str} (hp : viewLink w p = some t)
    (hq : viewLink w (refTarget p t) = none) (hv : Visited w p g) : g = p ∨ g = refTarget p t := by
  induction hv with
  | refl => exact .inl rfl
  | tail _ hop ih =>
    obtain ⟨t', ht', rfl⟩ := hop
    rcases ih with rfl | rfl
    · rw [hp] at ht'
      cases ht'
      exact .inr rfl
    · rw [hq] at ht'
      cases ht'

theorem realParents_of_top {c : Str} {m : Mount} (hw : w.mounts = [m])
    (hbase : ∃ d, w.host.lstat m.hostBase = .ok d ∧ d.isDir)
      (hlo : comps (m.lo g) = comps m.hostBase ++ [c])
    (hb : absPath (comps m.hostBase) = m.hostBase) : RealParents w g := by
  intro m' hd hp
  obtain rfl : m' = m := by
    have := (deepest_mem hd).1
    rw [hw] at this
    exact mem_singleton.mp this
  refine ⟨hbase, fun as bs has hbs n hn => ?_⟩
  have has' : as = [] := by
    rw [hlo] at has
    rcases append_eq_singleton_iff.mp (append_cancel_left has).symm with ⟨h1, _⟩ | ⟨_, h2⟩
    · exact h1
    · exact absurd h2 hbs
  obtain ⟨d, hd', hdir⟩ := hbase
  rw [has', append_nil, hb, hd'] at hn
  cases hn
  cases hk : n.kind <;> simp_all [Node.isDir, Node.isLink]

theorem twin_real (low : Bool) {whiteouts : Finset Str} (hg : g = "/l" ∨ g = "/t") :
    RealParents (twinWorld low whiteouts) g := by
  have hbase : ∃ d, twinHost.lstat (twinMount low).hostBase = .ok d ∧ d.isDir := by
    cases low
    · exact ⟨⟨3, 0o755, .dir⟩, by decide +kernel, rfl⟩
    · exact ⟨⟨6, 0o755, .dir⟩, by decide +kernel, rfl⟩
  have hlo : ∃ c, comps ((twinMount low).lo g) = comps (twinMount low).hostBase ++ [c] := by
    rcases hg with rfl | rfl
    · exact ⟨"l", by cases low <;> decide +kernel⟩
    · exact ⟨"t", by cases low <;> decide +kernel⟩
  obtain ⟨c, hc⟩ := hlo
  exact realParents_of_top rfl hbase hc ((twinMount low).base_normal rfl).absPath_comps

theorem twin_resolves (h1 : viewLink w "/l" = some "t") (h2 : viewLink w "/t" = none) {m : Mount}
    (hw : w.mounts = [m]) (hm : m.pre = slash) : Resolves w ⟨0, 0, "/l"⟩ "/t" := by
  have htarget : refTarget "/l" "t" = "/t" := by decide
  refine ⟨⟨0, 1, "/t"⟩, .single (.within ⟨_, h1, htarget.symm⟩ ?_ (by decide)), rfl, h2, ?_⟩
  · rw [hw, deepest_root hm, deepest_root hm]
  · exact fun _ _ _ _ _ => ⟨by decide, fun _ => by decide⟩

/-- A link to a deleted name is answered with the lower file, and a relative link below
`/srv/up-low` is resolved from a directory the guest does not have. -/
theorem classify_follow_differs :
    (Resolves (twinWorld false {"/t".toList}) ⟨0, 0, "/l".toList⟩ "/t".toList ∧
      (∀ g, Visited (twinWorld false {"/t".toList}) "/l".toList g →
        RealParents (twinWorld false {"/t".toList}) g) ∧
      classify "/l".toList false true .copyLeaf (twinWorld false {"/t".toList}) ≠
        classify "/t".toList false false .copyLeaf (twinWorld false {"/t".toList})) ∧
    (Resolves (twinWorld true ∅) ⟨0, 0, "/l".toList⟩ "/t".toList ∧
      (∀ g, Visited (twinWorld true ∅) "/l".toList g → RealParents (twinWorld true ∅) g) ∧
      classify "/l".toList false true .copyLeaf (twinWorld true ∅) ≠
        classify "/t".toList false false .copyLeaf (twinWorld true ∅)) := by
  have htarget : refTarget "/l" "t" = "/t" := by decide
  have differs (b : Bool) (wh : Finset Str) (h1 : viewLink (twinWorld b wh) "/l" = some "t")
      (h2 : viewLink (twinWorld b wh) "/t" = none)
      (hne : (classify "/l" false true .copyLeaf (twinWorld b wh)).1 ≠
        (classify "/t" false false .copyLeaf (twinWorld b wh)).1) :
      Resolves (twinWorld b wh) ⟨0, 0, "/l"⟩ "/t" ∧
        (∀ g, Visited (twinWorld b wh) "/l" g → RealParents (twinWorld b wh) g) ∧
        classify "/l" false true .copyLeaf (twinWorld b wh) ≠
          classify "/t" false false .copyLeaf (twinWorld b wh) := by
    refine ⟨twin_resolves h1 h2 rfl rfl, fun g hv => twin_real _ ?_, fun he => ?_⟩
    · exact htarget ▸ visited_one_hop h1 (htarget ▸ h2) hv
    · exact hne (congrArg Prod.fst he)
  exact ⟨differs _ _ (by decide +kernel) (by decide +kernel) (by decide +kernel),
    differs _ _ (by decide +kernel) (by decide +kernel) (by decide +kernel)⟩

theorem Reaches.visited {s e : Spot} (h : Reaches w s e) : Visited w s.name e.name := by
  induction h with
  | refl => exact .refl
  | tail _ hn ih =>
    cases hn with
    | within hop | across hop => exact ih.tail hop

/-- With disjoint layers and nothing deleted, the link is harmless. -/
theorem twin_clean : CleanFrom (twinWorld false ∅) ⟨0, 0, "/l"⟩ := by
  have htarget : refTarget "/l" "t" = "/t" := by decide
  have h1 : viewLink (twinWorld false ∅) "/l" = some "t" := by decide +kernel
  have h2 : viewLink (twinWorld false ∅) "/t" = none := by decide +kernel
  rintro ⟨_, _, g⟩ he - t m ht hd
  obtain rfl : g = "/l" := by
    rcases visited_one_hop h1 (htarget ▸ h2) he.visited with rfl | rfl
    · rfl
    · rw [htarget, h2] at ht
      cases ht
  obtain rfl := mem_singleton.mp (deepest_mem hd).1
  refine ⟨fun _ _ _ => rfl, fun _ _ hpre => ?_, fun _ hroot => ?_⟩
  · have : (twinMount false).upper.isPrefixOf (visiblePath twinHost (twinMount false) "/l") =
        false := by
      decide +kernel
    exact absurd hpre (by rw [show (twinWorld false ∅).host = twinHost from rfl, this]; simp)
  · have : visibleLayer twinHost (twinMount false) "/l" ≠ slash := by decide +kernel
    exact absurd hroot this

theorem classify_follow_iff_twin :
    classify "/l".toList false true .copyLeaf (twinWorld false ∅) =
      classify "/t".toList false false .copyLeaf (twinWorld false ∅) := by
  have htarget : refTarget "/l" "t" = "/t" := by decide
  have h1 : viewLink (twinWorld false ∅) "/l" = some "t" := by decide +kernel
  have h2 : viewLink (twinWorld false ∅) "/t" = none := by decide +kernel
  refine (classify_follow_iff _ _ (by decide) ⟨.single ⟨_, h1, htarget.symm⟩, h2⟩ (fun g hv => ?_)
    twin_clean).2 (.inl (twin_resolves h1 h2 rfl rfl))
  exact twin_real _ (htarget ▸ visited_one_hop h1 (htarget ▸ h2) hv)

end Linuxity.Kernel

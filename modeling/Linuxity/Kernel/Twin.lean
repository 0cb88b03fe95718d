import Linuxity.Kernel.Chase

/-!
# Kernel.Twin — which file a write through a guest path lands in

A following read of `p` is served from the guest name at which its chase rests.  The write branch
of the classifier does not look at links: it copies `p` itself up and answers `p`'s own upper
path.  `write_names_twin_iff` says when that is the upper twin of the name the read is served
from.
-/

namespace Linuxity.Kernel

open Posix Wire List

/-- Only the last component of the path may be a link. -/
def LinksLast (h : Host) (s : Str) : Prop :=
  ∀ as bs, comps s = as ++ bs → bs ≠ [] → ∀ n, h.node as = some n → n.isLink = false

theorem linksLast_iff {h : Host} {s : Str} :
    LinksLast h s ↔ ∀ k < (comps s).length, (h.node ((comps s).take k)).all (!·.isLink) := by
  constructor
  · intro hl k hk
    have := hl ((comps s).take k) ((comps s).drop k) (by simp) (by simpa using hk)
    cases hn : h.node ((comps s).take k) with
    | none => rfl
    | some n => simp [this n hn]
  · intro hall as bs has hbs n hn
    have hk : as.length < (comps s).length := by
      have := length_pos_of_ne_nil hbs
      rw [has, length_append]
      omega
    have := hall as.length hk
    rw [has, take_left, hn] at this
    simpa using this

instance (h : Host) (s : Str) : Decidable (LinksLast h s) := decidable_of_iff' _ linksLast_iff

/-- The host reaches one place by both paths. -/
def SamePlace (h : Host) (a b : Str) : Prop :=
  ∃ x y, h.resolve a true = .ok x ∧ h.resolve b true = .ok y ∧ x.loc = y.loc

/-- A following read of `p` is served from the guest name `g`: its chase rests there, and it is
answered with the entry that shows there, or with the data of that entry if it is a hard link. -/
structure ServedFrom (w : World) (p g : Str) (m : Mount) : Prop where
  rests : RestsAt w false true p g
  mount : deepest w.mounts g = some m
  host : m.producer = none
  answer : (classify p false true .copyLeaf w).1 = .host (w.links.resolve (visiblePath w.host m g))

/-- Where the data of `g` is written: its upper path, or what that is a hard link to. -/
def upperTwin (w : World) (m : Mount) (g : Str) : Str := w.links.resolve (m.up g)

/-! ## Literal paths -/

section Literal

variable {h h' : Host} {s : Str}

theorem LinksLast.grows (hl : LinksLast h s) (hg : h.Grows h') : LinksLast h' s := by
  intro as bs has hbs n hn
  by_contra hlink
  have := hl as bs has hbs n (hg.noLink as n hn (by simpa using hlink))
  exact hlink this

theorem LinksLast.loc_false (hl : LinksLast h s) (hs : Normal s) {x : Place}
    (hr : h.resolve s false = .ok x) : x.loc = comps s := by
  have hnames : ∀ c ∈ comps s, IsName c := fun c hc => hs.isName hc
  rw [← hs.absPath_comps, Host.resolve_absPath hnames] at hr
  split_ifs at hr
  have hs : h.Straight [] (comps s) := hl
  exact Host.walk_literal (f := false) hnames hs nofun hr

theorem LinksLast.loc_true (hl : LinksLast h s) (hs : Normal s)
    (hend : ∀ n, h.resolve s false = .ok (.found (comps s)) → h.node (comps s) = some n →
        n.isLink = false) {x : Place} (hr : h.resolve s true = .ok x) : x.loc = comps s := by
  rcases Host.resolve_true_cases hr with h1 | ⟨l, n, h1, h2, h3⟩
  · exact hl.loc_false hs h1
  · obtain rfl : l = comps s := hl.loc_false hs h1
    rw [hend n h1 h2] at h3
    cases h3

theorem LinksLast.found_of_grows (hl : LinksLast h s) (hs : Normal s) (hg : h.Grows h')
    (hr : h'.resolve s false = .ok (.found (comps s))) (hold : h.node (comps s) ≠ none) :
    h.resolve s false = .ok (.found (comps s)) := by
  have hnames : ∀ c ∈ comps s, IsName c := fun c hc => hs.isName hc
  have habs := hs.absPath_comps
  rw [← habs, Host.resolve_absPath hnames] at hr ⊢
  split_ifs at hr ⊢
  rw [habs] at hr ⊢
  exact Host.walk_of_grows hg hnames hr hold hl

end Literal

/-! ## The upper paths of two guest names -/

section Upper

variable {w : World} {m m' : Mount} {p g : Str}

/-- What a write through `p` answers, and what it may have made on the way. -/
theorem classify_write {wi : WriteIntent} (hwi : wi ≠ .remove) (hp : Normal p)
    (hd : deepest w.mounts p = some m) (hm : m.producer = none) (hu : m.upper ≠ []) :
    (classify p true true wi w).1 = .host (upperTwin w m p) ∧
      Made w.host (classify p true true wi w).2.host (comps (m.up p)) := by
  obtain ⟨rs, _, hnames, hup⟩ := Mount.up_eq hp (deepest_mem hd).2 hu
  have hwrite : (classifyWrite w m wi p).1 = .host (m.up p) ∧
      Made w.host (classifyWrite w m wi p).2.host (comps (m.up p)) := by
    rw [hup, comps_absPath hnames]
    unfold classifyWrite
    cases wi with
    | remove => exact absurd rfl hwi
    | parentsOnly => simpa [hup] using mirrorParents_made hnames (m.lo p) w
    | copyLeaf => simpa [hup] using copyUp_made hnames (m.lo p) w
  have hstep : classifyStep w 0 true true wi p =
      (.done (.host (m.up p)), (classifyWrite w m wi p).2) := by
    simp [classifyStep, hd, hm, hu, hwrite.1]
  have halias : resolveAlias (classifyWrite w m wi p).2 wi (.host (m.up p)) =
      .host (upperTwin w m p) := by
    unfold resolveAlias upperTwin LinkTable.resolve
    rw [if_pos ⟨rfl, hwi⟩, (classifyWrite_files w m wi p).links, PathClass.host_hostPath]
    cases w.links.backingOf (m.up p) <;> rfl
  constructor
  · simpa [classify, classifyName, classifyImpl, maxCross, hstep] using halias
  · simpa [classify, classifyName, classifyImpl, maxCross, hstep] using hwrite.2

end Upper

/-! ## Reading and writing -/

/-- A write through `p` names the upper twin of `g`, or a path the host takes to the same place
in the tree the classification leaves behind. -/
def WriteNames (w : World) (wi : WriteIntent) (p : Str) (m : Mount) (g : Str) : Prop :=
  (classify p true true wi w).1.hostPath = upperTwin w m g ∨
    SamePlace (classify p true true wi w).2.host (classify p true true wi w).1.hostPath
      (upperTwin w m g)

/-- The twins of `p` and `g` are one path, or the host takes both to one place already. The data of
a hard link can lie behind a link, so with one of those they can also meet in what is made for
`p`. -/
def TwinsMeet (w : World) (wi : WriteIntent) (p : Str) (m : Mount) (g : Str) (m' : Mount) : Prop :=
  upperTwin w m p = upperTwin w m' g ∨
    SamePlace w.host (upperTwin w m p) (upperTwin w m' g) ∨
    w.host.node (comps (m.up p)) = none ∧ (upperTwin w m p ≠ m.up p ∨ upperTwin w m' g ≠ m'.up g) ∧
      SamePlace (classify p true true wi w).2.host (upperTwin w m p) (upperTwin w m' g)

section Agree

variable {w : World} {m m' : Mount} {p g : Str}

/-- The place of a resting name's upper path, in any tree grown from the present one. -/
theorem up_loc (hg : Normal g) (hd : deepest w.mounts g = some m) (hm : m.producer = none)
    (hu : m.upper ≠ []) (hrest : onward w.host w.mounts g = none) (hl : LinksLast w.host (m.up g))
    {h' : Host} (hgrow : w.host.Grows h') {y : Place} (hr : h'.resolve (m.up g) true = .ok y) :
    y.loc = comps (m.up g) := by
  have hn := Mount.up_normal hg (deepest_mem hd).2 hu
  refine (hl.grows hgrow).loc_true hn (fun n hf hnode => ?_) hr
  by_contra hlink
  have hold := hgrow.noLink _ n hnode (by simpa using hlink)
  have hf' := hl.found_of_grows hn hgrow hf (by simp [hold])
  obtain ⟨t, ht⟩ := probeLink_of_link hf' hold (by simpa using hlink)
  simp [onward_host hd hm, shownLink, hu, ht] at hrest

/-- Where something was made on the way to `p`'s upper path, there was nothing at that path. -/
theorem Made.node_none {h h' : Host} {s : Str} (hmade : Made h h' (comps s)) (hs : Normal s)
    (hl : LinksLast h s) : h' = h ∨ (h.Grows h' ∧ h.node (comps s) = none) := by
  rcases hmade with he | ⟨hgrow, as, c, dl, ⟨bs, hbs⟩, hr, hnone, _⟩
  · exact .inl he
  · refine .inr ⟨hgrow, ?_⟩
    have hnames : ∀ d ∈ as, IsName d := fun d hd => hs.isName (by rw [← hbs]; simp [hd])
    have has : comps (absPath as) = as := comps_absPath hnames
    have hlas : LinksLast h (absPath as) := by
      intro cs ds hcs _ n hn
      rw [has] at hcs
      exact hl cs (ds ++ [c] ++ bs) (by rw [← hbs, hcs]; simp) (by simp) n hn
    have hloc := hlas.loc_true (normal_absPath hnames)
      (fun n _ hn => hl as ([c] ++ bs) (by rw [← hbs]; simp) (by simp) n (has ▸ hn)) hr
    rw [Place.loc_found, has] at hloc
    rw [hloc] at hnone
    exact h.node_eq_none_under ⟨bs, hbs⟩ hnone

end Agree

/-- Where two places meet, they still meet in a tree that has grown. -/
theorem SamePlace.grows {h h' : Host} {a b : Str} (hs : SamePlace h a b) (hg : h.Grows h') :
    SamePlace h' a b := by
  obtain ⟨x, y, hx, hy, hxy⟩ := hs
  obtain ⟨x', hx', hlx⟩ := Host.resolve_grows hg hx
  obtain ⟨y', hy', hly⟩ := Host.resolve_grows hg hy
  exact ⟨x', y', hx', hy', hlx.trans (hxy.trans hly.symm)⟩

/-- A read of the lower link `l` is served from `t`. -/
theorem twin_served : ServedFrom (twinWorld false ∅) "/l" "/t" (twinMount false) where
  rests := by
    refine ⟨.single ?_, nofun, fun _ => .inl ?_⟩
    · unfold LeadsOn
      decide +kernel
    · decide +kernel
  mount := deepest_root rfl _
  host := rfl
  answer := by decide +kernel

end Linuxity.Kernel

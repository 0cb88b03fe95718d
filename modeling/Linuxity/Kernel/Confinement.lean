import Linuxity.Kernel.LastTurn

/-!
# Kernel.Confinement — which host objects a classified path can reach

There is no chroot, so a host path handed to the guest is walked by the kernel from the real
root, through every link on the way.  `LayersSealed` says of a mount table and a host tree that
these walks stay inside the mounted directories; it mentions neither whiteouts nor hard links
nor the classifier.
-/

namespace Linuxity.Kernel

open Posix Wire List

def Mount.layers (m : Mount) : List Str :=
  if m.upper = [] then [m.hostBase] else [m.upper, m.hostBase]

/-- The place lies in a mounted directory, as the host resolves that directory. -/
def Inside (h : Host) (ms : List Mount) (l : Loc) : Prop :=
  ∃ m ∈ hostMounts ms, ∃ b ∈ m.layers, ∃ p, h.resolve b true = .ok p ∧ p.loc <+: l

/-- Whatever the host reaches by the path is inside. -/
def Confined (h : Host) (ms : List Mount) (hp : Str) (follow : Bool) : Prop :=
  ∀ p, h.resolve hp follow = .ok p → Inside h ms p.loc

/-- **Sealed layers.** The host walks of the visible entries end inside, and so do those of the
upper links when they are followed. -/
structure LayersSealed (ms : List Mount) (h : Host) : Prop where
  stays : ∀ g m, Normal g → deepest (hostMounts ms) g = some m →
    Confined h ms (visiblePath h m g) false
  links : ∀ g m t, Normal g → deepest (hostMounts ms) g = some m → m.upper ≠ [] →
    probeLink h (m.up g) = .symlink t → Confined h ms (m.up g) true

/-- A host path some producer redirects to. -/
def IsRedirect (ms : List Mount) (hp : Str) : Prop :=
  ∃ m ∈ ms, ∃ prod q vf, m.producer = some prod ∧ prod q = .ok vf ∧ vf.redirectHost = hp

/-- **Confinement** of one classification. -/
def ClassifyConfined (w : World) (abs : Str) (forWrite follow : Bool) (wi : WriteIntent) : Prop :=
  let r := classify abs forWrite follow wi w
  r.1.realm = .hostBacked → IsRedirect w.mounts r.1.hostPath ∨
    (∃ a, w.links.backingOf a = some r.1.hostPath) ∨ Confined r.2.host w.mounts r.1.hostPath follow

/-! ## Inside -/

section Inside

variable {h h' : Host} {ms ms' : List Mount} {l l' : Loc}

theorem Inside.trans (hi : Inside h ms l) (hl : l <+: l') : Inside h ms l' := by
  obtain ⟨m, hm, b, hb, p, hp, hpre⟩ := hi
  exact ⟨m, hm, b, hb, p, hp, hpre.trans hl⟩

theorem Inside.grows (hi : Inside h ms l) (hg : h.Grows h') : Inside h' ms l := by
  obtain ⟨m, hm, b, hb, p, hp, hpre⟩ := hi
  obtain ⟨p', hp', hloc⟩ := Host.resolve_grows hg hp
  exact ⟨m, hm, b, hb, p', hp', hloc ▸ hpre⟩

theorem Inside.congr (hi : Inside h ms l)
    (he : hostMounts ms' = hostMounts ms) : Inside h ms' l := by
  unfold Inside
  rw [he]
  exact hi

theorem Confined.follow {hp : Str} (hc : Confined h ms hp false)
    (hnl : ∀ l m, h.resolve hp false = .ok (.found l) → h.node l = some m → m.isLink = false) :
    Confined h ms hp true := by
  intro p hr
  rcases Host.resolve_true_cases hr with h1 | ⟨l, m, h1, h2, h3⟩
  · exact hc p h1
  · rw [hnl l m h1 h2] at h3
    cases h3

end Inside

/-! ## Probes and places -/

section Probes

variable {h : Host} {s : Str} {l : Loc} {m : Node}

theorem nodeAnyLength_of_found (hr : h.resolve s false = .ok (.found l)) (hm : h.node l = some m) :
    nodeAnyLength h s false = .ok m := by
  simp [nodeAnyLength, Host.nodeOf, hr, hm]

theorem probeLink_of_found (hr : h.resolve s false = .ok (.found l)) (hm : h.node l = some m) :
    probeLink h s ≠ .absent := by
  unfold probeLink
  rw [nodeAnyLength_of_found hr hm]
  cases hk : m.kind <;> simp [hk]

theorem probeLink_of_link (hr : h.resolve s false = .ok (.found l)) (hm : h.node l = some m)
    (hl : m.isLink) : ∃ t, probeLink h s = .symlink t := by
  unfold probeLink
  rw [nodeAnyLength_of_found hr hm]
  cases hk : m.kind with
  | link t => exact ⟨t, by simp [hk]⟩
  | _ => simp [Node.isLink, hk] at hl

end Probes

/-! ## Sealed layers -/

namespace LayersSealed

variable {ms : List Mount} {h : Host} {g : Str} {m : Mount}

theorem up_confined (hs : LayersSealed ms h) (hg : Normal g)
    (hd : deepest (hostMounts ms) g = some m) (hu : m.upper ≠ []) {l : Loc}
    (hr : h.resolve (m.up g) false = .ok (.found l)) (f : Bool) : Confined h ms (m.up g) f := by
  obtain ⟨n, hn⟩ := Host.resolve_found_node hr
  have hstay := hs.stays g m hg hd
  rw [visiblePath, if_pos ⟨hu, probeLink_of_found hr hn⟩] at hstay
  cases f with
  | false => exact hstay
  | true =>
    by_cases hl : n.isLink
    · obtain ⟨t, ht⟩ := probeLink_of_link hr hn hl
      exact hs.links g m t hg hd hu ht
    · refine hstay.follow fun l' m' hr' hm' => ?_
      rw [hr] at hr'
      cases hr'
      rw [hn] at hm'
      cases hm'
      simpa using hl

variable {rs : List Str}

theorem ancestor_inside (hs : LayersSealed ms h) (hg : Normal g)
    (hd : deepest (hostMounts ms) g = some m) (hu : Normal m.upper) {rs1 rs2 : List Str}
    (hrs : comps g = comps m.pre ++ (rs1 ++ rs2)) {d : Loc}
    (hr : h.resolve (absPath (comps m.upper ++ rs1)) true = .ok (.found d)) : Inside h ms d := by
  have hnames : ∀ c ∈ comps m.pre ++ rs1, IsName c := by
    intro c hc
    refine hg.isName ?_
    rw [hrs]
    rcases mem_append.1 hc with hc | hc <;> simp [hc]
  have hg1 : Normal (absPath (comps m.pre ++ rs1)) := normal_absPath hnames
  have hd1 := deepest_ancestor hg hd hrs
  have hup : m.up (absPath (comps m.pre ++ rs1)) = absPath (comps m.upper ++ rs1) :=
    Mount.joinHost_split hg1 (deepest_mem hd1).2 (comps_absPath hnames) hu
  rw [← hup] at hr
  have hfound : ∃ l, h.resolve (m.up (absPath (comps m.pre ++ rs1))) false = .ok (.found l) := by
    rcases Host.resolve_true_cases hr with h1 | ⟨l, _, h1, _⟩
    · exact ⟨d, h1⟩
    · exact ⟨l, h1⟩
  obtain ⟨l, hl⟩ := hfound
  simpa using hs.up_confined hg1 hd1 hu.ne_nil hl true _ hr

theorem made_loc {h h' : Host} {as : List Str} {c : Str} {dl : Loc} {bs : List Str}
    (hnames : ∀ d ∈ as ++ c :: bs, IsName d) (hg : h.Grows h')
    (hr : h.resolve (absPath as) true = .ok (.found dl)) (hnone : h.node (dl ++ [c]) = none)
    {n : Node} (hn : h'.node (dl ++ [c]) = some n) (hl : n.isLink = false) {f : Bool} {p : Place}
    (hp : h'.resolve (absPath (as ++ c :: bs)) f = .ok p) :
    p.loc = dl ++ c :: bs ∧ ∀ q m, (dl ++ [c]) <+: q → h'.node q = some m → m.isLink = false := by
  -- a link below the new entry would be an old one, and there was nothing there
  have hnl : ∀ q m, (dl ++ [c]) <+: q → h'.node q = some m → m.isLink = false := by
    intro q m hq hm
    by_contra hlink
    have hold := hg.noLink q m hm (by simpa using hlink)
    rw [h.node_eq_none_under hq hnone] at hold
    cases hold
  obtain ⟨mid, k, h1, h2⟩ := Host.resolve_parent hnames (by simp) hp
  have hmid : mid = dl := by
    obtain ⟨p', hp', hloc⟩ := Host.resolve_grows hg hr
    rw [h1] at hp'
    cases hp'
    exact hloc
  subst hmid
  have hc := hnames c (by simp)
  have hlink : ∀ t, h'.look mid c ≠ .ok (.link t) := by
    intro t hlook
    obtain ⟨m, hm, hml⟩ := Host.look_link hlook
    rw [hn] at hm
    cases hm
    simp [hl] at hml
  cases Host.walk_eq_ok.1 h2 with
  | into hlook hw =>
    obtain rfl := Host.look_into_name hc hlook
    have hlit :=
      Host.walk_literal (fun d hd => hnames d (by simp [hd]))
      (fun as _ _ _ x hx => hnl _ x ⟨as, rfl⟩ hx)
      (fun _ x hx => hnl _ x ⟨bs, rfl⟩ hx) (Host.walk_eq_ok.2 hw)
    exact ⟨by simpa using hlit, hnl⟩
  | free hlook => simp [(Host.look_missing hlook).2.2.2] at hn
  | last hlook => exact absurd hlook (hlink _)
  | follow hlook => exact absurd hlook (hlink _)

/-- What leads below an entry that was made leads to every directory on the way. -/
theorem made_ancestor {h h' : Host} {as : List Str} {c : Str} {dl : Loc} {bs : List Str}
    (hnames : ∀ d ∈ as ++ c :: (bs ++ rs), IsName d) (hg : h.Grows h')
    (hr : h.resolve (absPath as) true = .ok (.found dl)) (hnone : h.node (dl ++ [c]) = none)
    {n : Node} (hn : h'.node (dl ++ [c]) = some n) (hl : n.isLink = false) {f : Bool} {p : Place}
    (hp : h'.resolve (absPath (as ++ c :: (bs ++ rs))) f = .ok p) :
    ∃ q, h'.resolve (absPath (as ++ c :: bs)) true = .ok q := by
  obtain ⟨hloc, hnl⟩ := made_loc hnames hg hr hnone hn hl hp
  by_cases h0 : rs = []
  · subst h0
    rw [append_nil] at hp hloc
    cases f with
    | true => exact ⟨p, hp⟩
    | false =>
      cases p with
      | free d e => exact ⟨_, Host.resolve_true_of_free hp⟩
      | found l =>
        refine ⟨_, Host.resolve_true_of_found hp fun m hm => hnl l m ?_ hm⟩
        rw [Place.loc_found] at hloc
        exact ⟨bs, by simp [hloc]⟩
  · have hassoc : as ++ c :: (bs ++ rs) = (as ++ c :: bs) ++ rs := by simp
    rw [hassoc] at hp hnames
    obtain ⟨mid, _, h1, _⟩ := Host.resolve_parent hnames h0 hp
    exact ⟨_, h1⟩

/-- The upper path of a guest path is confined: it has an entry, or is a free name in a directory
of its layer. -/
theorem up_inside (hs : LayersSealed ms h) (hg : Normal g)
    (hd : deepest (hostMounts ms) g = some m) (hu : Normal m.upper)
    (hrs : comps g = comps m.pre ++ rs) (f : Bool) : Confined h ms (m.up g) f := by
  have hup : m.up g = absPath (comps m.upper ++ rs) :=
    Mount.joinHost_split hg (deepest_mem hd).2 hrs hu
  intro p hp
  have hcase : ∃ q, h.resolve (m.up g) false = .ok q ∧ (q = p ∨ ∃ l, q = .found l) := by
    cases f with
    | false => exact ⟨p, hp, .inl rfl⟩
    | true =>
      rcases Host.resolve_true_cases hp with h1 | ⟨l, _, h1, _⟩
      · exact ⟨p, h1, .inl rfl⟩
      · exact ⟨.found l, h1, .inr ⟨l, rfl⟩⟩
  obtain ⟨q, hq, hqp⟩ := hcase
  cases q with
  | found l => exact hs.up_confined hg hd hu.ne_nil hq f p hp
  | free d e =>
    obtain rfl : Place.free d e = p := by
      rcases hqp with h1 | ⟨l, h1⟩
      · exact h1
      · cases h1
    obtain rfl | ⟨rs1, e', rfl⟩ := eq_nil_or_concat rs
    · refine ⟨m, (deepest_mem hd).1, m.upper, by simp [Mount.layers, hu.ne_nil], .free d e, ?_,
        prefix_refl _⟩
      rw [hup, append_nil, hu.absPath_comps] at hq
      exact Host.resolve_true_of_free hq
    · rw [concat_eq_append] at *
      have hnames : ∀ c ∈ comps m.upper ++ rs1 ++ [e'], IsName c := by
        rw [append_assoc]
        exact forall_mem_append.2
          ⟨fun _ => hu.isName, fun c hc => hg.isName (by rw [hrs]; exact mem_append_right _ hc)⟩
      rw [hup, ← append_assoc] at hq
      obtain ⟨mid, k, h1, h2⟩ := Host.resolve_parent hnames (by simp) hq
      have hin := hs.ancestor_inside hg hd hu hrs h1
      have hmid :=
        (Host.walk_false_snoc_free (show h.walk false k mid ([] ++ [e']) = _ from h2)).1
      simp only [Host.walk_nil, Except.ok.injEq, Place.found.injEq] at hmid
      exact (hmid ▸ hin).trans (prefix_append d [e])

/-- The upper path of a guest path is confined in the tree its parents were made in. -/
theorem made_confined (hs : LayersSealed ms h) (hg : Normal g)
    (hd : deepest (hostMounts ms) g = some m) (hu : Normal m.upper)
    (hrs : comps g = comps m.pre ++ rs) {h' : Host} (hm : Made h h' (comps m.upper ++ rs))
    (f : Bool) : Confined h' ms (m.up g) f := by
  rcases hm with rfl | ⟨hgrow, as, c, dl, ⟨bs, hbs⟩, hr, hnone, n, hn, hl⟩
  · exact hs.up_inside hg hd hu hrs f
  have hnames : ∀ c ∈ comps m.upper ++ rs, IsName c :=
    forall_mem_append.2
      ⟨fun _ => hu.isName, fun c hc => hg.isName (by rw [hrs]; exact mem_append_right _ hc)⟩
  intro p hp
  rw [append_assoc, singleton_append] at hbs
  rw [← hbs] at hnames
  rw [show m.up g = _ from Mount.joinHost_split hg (deepest_mem hd).2 hrs hu, ← hbs] at hp
  rw [(made_loc hnames hgrow hr hnone hn hl hp).1]
  rcases append_eq_append_iff.1 hbs with ⟨a', hcu, hcb⟩ | ⟨b', has, hrs'⟩
  · cases a' with
    | nil =>
      have hcu' : comps m.upper = as := by simpa using hcu
      have hr' : h.resolve (absPath (comps m.upper ++ [])) true = .ok (.found dl) := by
        rw [append_nil, hcu']
        exact hr
      have hin := hs.ancestor_inside hg hd hu hrs hr'
      exact (hin.grows hgrow).trans (prefix_append dl _)
    | cons c' a' =>
      -- the new entry is at or above the upper directory itself
      obtain ⟨rfl, rfl⟩ : c = c' ∧ bs = a' ++ rs := by simpa using hcb
      obtain ⟨pu, hpu⟩ := made_ancestor hnames hgrow hr hnone hn hl hp
      have hnames' : ∀ d ∈ as ++ c :: a', IsName d :=
        fun d hd => hnames d (by simp at hd ⊢; tauto)
      have hlocu := (made_loc hnames' hgrow hr hnone hn hl hpu).1
      rw [← hcu, hu.absPath_comps] at hpu
      exact ⟨m, (deepest_mem hd).1, m.upper, by simp [Mount.layers, hu.ne_nil], pu, hpu,
        by rw [hlocu]; exact ⟨rs, by simp⟩⟩
  · rw [has] at hr
    rw [hrs'] at hrs
    have hin := hs.ancestor_inside hg hd hu hrs hr
    exact (hin.grows hgrow).trans (prefix_append dl _)

end LayersSealed

/-! ## Where a chase rests -/

section Chase

variable {h : Host} {ms : List Mount} {m : Mount} {abs g hp : Str}

theorem onward_normal (hg : Normal abs) (hl : Relation.ReflTransGen (LeadsOn h ms) abs g) :
    Normal g := by
  rcases Relation.reflTransGen_iff_eq_or_transGen.1 hl with rfl | hl
  · exact hg
  · exact LeadsOn.normal_of_led hl

/-- What nothing leads on from is not a link. -/
theorem not_link_of_rest (hd : deepest ms g = some m) (hm : m.producer = none)
    (hrest : onward h ms g = none) :
    ∀ l n, h.resolve (visiblePath h m g) false = .ok (.found l) → h.node l = some n →
      n.isLink = false := by
  intro l n hl hn
  by_contra hlink
  obtain ⟨t, ht⟩ := probeLink_of_link hl hn (by simpa using hlink)
  have hshown : shownLink h m g ≠ none := by
    by_cases hv : m.upper ≠ [] ∧ probeLink h (m.up g) ≠ .absent
    · rw [visiblePath_up hv.1 hv.2] at ht
      simp [shownLink, hv.1, ht]
    · have hlow : m.upper = [] ∨ probeLink h (m.up g) = .absent := by tauto
      have hread : (h.readlink (m.lo g)).toOption ≠ none := by
        rw [visiblePath_lo hlow] at hl
        cases hk : n.kind <;>
          simp_all [Node.isLink, Host.readlink, Host.lstat, Host.nodeOf, Except.toOption]
      unfold shownLink
      split_ifs with hu
      · exact hread
      · rw [hlow.resolve_left hu]
        exact hread
  rw [onward_host hd hm] at hrest
  cases hs : shownLink h m g with
  | none => exact hshown hs
  | some t => rw [hs] at hrest; cases hrest

theorem RedirectAt.isRedirect (hr : RedirectAt ms g hp) : IsRedirect ms hp := by
  obtain ⟨m, prod, vf, hd, hm, hv, rfl⟩ := hr
  exact ⟨m, (deepest_mem hd).1, prod, g, vf, hm, hv, rfl⟩

end Chase

/-! ## Classification -/

namespace LayersSealed

variable {ms : List Mount} {w : World} {abs : Str} {m : Mount}

theorem classifyWrite_confined (hs : LayersSealed ms w.host) (hg : Normal abs)
    (hd : deepest (hostMounts ms) abs = some m) (hu : m.upper ≠ []) (wi : WriteIntent) (f : Bool)
    (hb : (classifyWrite w m wi abs).1.realm = .hostBacked) :
    Confined (classifyWrite w m wi abs).2.host ms (classifyWrite w m wi abs).1.hostPath f := by
  have hun : Normal m.upper := m.upper_normal.resolve_left hu
  obtain ⟨rs, hrs, hnames, hup⟩ := Mount.up_eq hg (deepest_mem hd).2 hu
  unfold classifyWrite at hb ⊢
  cases wi with
  | remove =>
    dsimp only at hb ⊢
    split_ifs at hb ⊢ with hx hy
    · exact hs.made_confined hg hd hun hrs (.inl rfl) f
    · cases hb
    · cases hb
  | parentsOnly =>
    have hmade := mirrorParents_made hnames (m.lo abs) w
    rw [← hup] at hmade
    simpa using hs.made_confined hg hd hun hrs hmade f
  | copyLeaf =>
    have hmade := copyUp_made hnames (m.lo abs) w
    rw [← hup] at hmade
    simpa using hs.made_confined hg hd hun hrs hmade f

/-- The answer of a turn is confined. -/
theorem turn_confined (hs : LayersSealed ms w.host) (he : hostMounts w.mounts = hostMounts ms)
    (hg : Normal abs) {depth : Nat} {forWrite follow : Bool} {wi : WriteIntent} {pc : PathClass}
    {w' : World} (hr : StepRun w depth forWrite follow wi abs (.done pc) w')
    (hb : pc.realm = .hostBacked) :
    IsRedirect w.mounts pc.hostPath ∨ Confined w'.host ms pc.hostPath follow := by
  cases hr with
  | missing => cases hb
  | virtual => cases hb
  | redirect hr => exact .inl hr.isRedirect
  | written _ hd hm hu =>
    exact .inr (hs.classifyWrite_confined hg (he ▸ deepest_hostMounts hd hm) hu wi follow hb)
  | shown _ hlead _ hrest hd hm =>
    have hstay := hs.stays _ _ (onward_normal hg hlead) (he ▸ deepest_hostMounts hd hm)
    cases follow with
    | false => exact .inr hstay
    | true => exact .inr (hstay.follow (not_link_of_rest hd hm (hrest rfl)))

theorem classify_confined (hs : LayersSealed ms w.host) (he : hostMounts w.mounts = hostMounts ms)
    (hg : Normal abs) {forWrite follow : Bool} {wi : WriteIntent} :
    ClassifyConfined w abs forWrite follow wi := by
  have hfiles := classifyImpl_files forWrite wi maxCross follow abs w
  have direct (hb : (classifyImpl forWrite wi maxCross follow abs w).1.realm = .hostBacked) :
      IsRedirect w.mounts (classifyImpl forWrite wi maxCross follow abs w).1.hostPath ∨
        (∃ a, w.links.backingOf a =
          some (classifyImpl forWrite wi maxCross follow abs w).1.hostPath) ∨
        Confined (classifyImpl forWrite wi maxCross follow abs w).2.host w.mounts
          (classifyImpl forWrite wi maxCross follow abs w).1.hostPath follow := by
    rcases classifyImpl_last forWrite wi maxCross follow abs w with hl | ⟨g, _, hled, hl⟩
    · rw [hl] at hb
      cases hb
    have hn : Normal g := by
      rcases hled with rfl | ⟨-, hled⟩
      · exact hg
      · exact LeadsOn.normal_of_led hled
    rcases hs.turn_confined he hn hl hb with hr | hc
    · exact .inl hr
    · exact .inr (.inr fun p hp => (hc p hp).congr he)
  unfold ClassifyConfined classify classifyName resolveAlias
  simp only
  split_ifs with halias
  · split
    · exact direct
    · rename_i b hb
      intro _
      rw [hfiles.links] at hb
      exact .inr (.inl ⟨_, hb⟩)
  · exact direct

end LayersSealed

/-! ## Sealed layers are necessary -/

section Necessary

variable {ms : List Mount} {h : Host} {g : Str} {m : Mount}

def plainWorld (ms : List Mount) (h : Host) : World := { host := h, mounts := hostMounts ms }

theorem hostMounts_hostMounts (ms : List Mount) : hostMounts (hostMounts ms) = hostMounts ms := by
  simp [hostMounts, filter_filter]

theorem producer_of_mem_hostMounts (hm : m ∈ hostMounts ms) : m.producer = none := by
  simpa using (mem_filter.1 hm).2

theorem not_isRedirect_hostMounts (hp : Str) : ¬ IsRedirect (hostMounts ms) hp := by
  rintro ⟨m, hm, prod, _, _, hprod, _⟩
  rw [producer_of_mem_hostMounts hm] at hprod
  cases hprod

theorem plainWorld_backingOf (a : Str) : (plainWorld ms h).links.backingOf a = none := by
  simp [plainWorld, LinkTable.backingOf]

theorem classify_plain_read (hd : deepest (hostMounts ms) g = some m) :
    classify g false false .copyLeaf (plainWorld ms h) =
      (.host (visiblePath h m g), plainWorld ms h) := by
  have hp := producer_of_mem_hostMounts (deepest_mem hd).1
  have hstep : classifyStep (plainWorld ms h) 0 false false .copyLeaf g =
      (.done (.host (visiblePath h m g)), plainWorld ms h) := by
    unfold classifyStep
    rw [show deepest (plainWorld ms h).mounts g = some m from hd]
    simp only [hp, Bool.false_eq_true, if_false]
    split_ifs with hu
    · have hw : (plainWorld ms h).isWhiteout g = false := by simp [plainWorld, World.isWhiteout]
      unfold classifyRead
      rw [show (plainWorld ms h).host = h from rfl, hw]
      cases hpr : probeLink h (m.up g) <;> simp [visiblePath, hu, hpr]
    · simp [visiblePath, not_not.1 hu]
  simp [classify, classifyName, classifyImpl, maxCross, hstep, resolveAlias, plainWorld_backingOf]

theorem classify_plain_write (hg : Normal g) (hd : deepest (hostMounts ms) g = some m)
    (hu : m.upper ≠ []) {l : Loc} (hr : h.resolve (m.up g) false = .ok (.found l)) :
    (classify g true true .copyLeaf (plainWorld ms h)).1 = .host (m.up g) ∧
      (classify g true true .copyLeaf (plainWorld ms h)).2.host = h := by
  have hp := producer_of_mem_hostMounts (deepest_mem hd).1
  have hun : Normal m.upper := m.upper_normal.resolve_left hu
  obtain ⟨rs, _, hrs, _⟩ := Mount.rel_eq hg (deepest_mem hd).2
  have hup : m.up g = absPath (comps m.upper ++ rs) :=
    Mount.joinHost_split hg (deepest_mem hd).2 hrs hun
  have hnames : ∀ c ∈ comps m.upper ++ rs, IsName c :=
    forall_mem_append.2 ⟨fun _ => hun.isName, fun c hc => hg.isName (by rw [hrs]; simp [hc])⟩
  have hsame : (copyUp (m.up g) (m.lo g) (plainWorld ms h)).1.host = h := by
    have hmade := copyUp_made hnames (m.lo g) (plainWorld ms h)
    rw [hup] at hr
    rw [hup]
    exact hmade.eq_of_found hnames hr
  have hstep : classifyStep (plainWorld ms h) 0 true true .copyLeaf g =
      (.done (.host (m.up g)), (classifyWrite (plainWorld ms h) m .copyLeaf g).2) := by
    unfold classifyStep
    rw [show deepest (plainWorld ms h).mounts g = some m from hd]
    simp [hp, hu, classifyWrite]
  have hlinks :
      ∀ a, (classifyWrite (plainWorld ms h) m .copyLeaf g).2.links.backingOf a = none := by
    intro a
    rw [(classifyWrite_files _ m .copyLeaf g).links, plainWorld_backingOf]
  constructor
  · simp [classify, classifyName, classifyImpl, maxCross, hstep, resolveAlias, hlinks]
  · simp [classify, classifyName, classifyImpl, maxCross, hstep, classifyWrite, hsame]

end Necessary

/-- **Confinement, exactly.** For given host mounts and a given host tree, every classification
in every namespace over them is confined if and only if the layers are sealed. -/
theorem classify_confined_iff (ms : List Mount) (h : Host) :
    (∀ w : World, w.host = h → hostMounts w.mounts = hostMounts ms →
        ∀ abs, normalizePath abs = abs → ∀ forWrite follow wi,
        ClassifyConfined w abs forWrite follow wi) ↔ LayersSealed ms h := by
  constructor
  · intro hall
    have hworld : ∀ g, Normal g → ∀ forWrite follow wi,
        ClassifyConfined (plainWorld ms h) g forWrite follow wi := fun g hg =>
      hall (plainWorld ms h) rfl (hostMounts_hostMounts ms) g (normalizePath_eq_self_iff.2 hg)
    refine ⟨fun g m hg hd => ?_, fun g m t hg hd hu ht => ?_⟩
    · have hc := hworld g hg false false .copyLeaf
      unfold ClassifyConfined at hc
      rw [classify_plain_read hd] at hc
      rcases hc rfl with hc | ⟨a, hc⟩ | hc
      · exact absurd hc (not_isRedirect_hostMounts _)
      · rw [plainWorld_backingOf] at hc; cases hc
      · exact fun p hp => (hc p hp).congr (hostMounts_hostMounts ms).symm
    · intro p hp
      -- the link itself is there, so nothing is copied up over it
      have hfound : ∃ l, h.resolve (m.up g) false = .ok (.found l) := by
        rcases Host.resolve_true_cases hp with h1 | ⟨l, _, h1, _⟩
        · cases p with
          | found l => exact ⟨l, h1⟩
          | free d e => simp [probeLink, nodeAnyLength, Host.nodeOf, h1] at ht
        · exact ⟨l, h1⟩
      obtain ⟨l, hl⟩ := hfound
      obtain ⟨h1, h2⟩ := classify_plain_write hg hd hu hl
      have hc := hworld g hg true true .copyLeaf
      simp only [ClassifyConfined, h1, h2] at hc
      rcases hc rfl with hc | ⟨a, hc⟩ | hc
      · exact absurd hc (not_isRedirect_hostMounts _)
      · rw [plainWorld_backingOf] at hc; cases hc
      · exact (hc p hp).congr (hostMounts_hostMounts ms).symm
  · rintro hs w rfl he abs hg forWrite follow wi
    exact hs.classify_confined he (normalizePath_eq_self_iff.1 hg)

/-- A root directory `/srv/root` with a link `lnk` to `/etc`, an empty upper `/srv/up`, and a
host file `/etc/passwd` outside both. -/
def linkedHost : Host :=
  Host.ofList
    [([], ⟨0, 0o755, .dir⟩), (["etc"], ⟨1, 0o755, .dir⟩),
      (["etc", "passwd"], ⟨2, 0o644, .file "root"⟩), (["srv"], ⟨3, 0o755, .dir⟩),
      (["srv", "root"], ⟨4, 0o755, .dir⟩), (["srv", "root", "lnk"], ⟨5, 0o777, .link "/etc"⟩),
      (["srv", "up"], ⟨6, 0o755, .dir⟩)] 7 (by decide)

theorem srvRoot_ne_nil : "/srv/root".toList ≠ [] := by decide

def linkedWorld : World where
  host := linkedHost
  mounts := [mountHost slash slash "/srv/root" "/srv/up" srvRoot_ne_nil]

/-- Reading `/lnk/passwd` in the guest answers a path that the host walks to `/etc/passwd`. -/
theorem classify_escapes :
    normalizePath "/lnk/passwd".toList = "/lnk/passwd".toList ∧
      ¬ ClassifyConfined linkedWorld "/lnk/passwd".toList false true .copyLeaf := by
  refine ⟨by decide, fun hc => ?_⟩
  have hpath : (classify "/lnk/passwd".toList false true .copyLeaf linkedWorld).1 =
      .host "/srv/root/lnk/passwd".toList := by decide +kernel
  have hhost :
      (classify "/lnk/passwd".toList false true .copyLeaf linkedWorld).2.host = linkedHost := by
    rw [classify_read]; rfl
  have hreach : linkedHost.resolve "/srv/root/lnk/passwd".toList true =
      .ok (.found ["etc".toList, "passwd".toList]) := by decide +kernel
  simp only [ClassifyConfined, hpath, hhost] at hc
  rcases hc rfl with ⟨m, hm, prod, _, _, hp, _⟩ | ⟨a, ha⟩ | hin
  · obtain rfl := mem_singleton.1 hm
    cases hp
  · simp [linkedWorld, LinkTable.backingOf] at ha
  · obtain ⟨m, hm, b, hb, p, hp, hpre⟩ := hin _ hreach
    obtain rfl := mem_singleton.1 (mem_of_mem_filter hm)
    have hlayers : (mountHost slash slash "/srv/root".toList "/srv/up".toList (by decide)).layers =
        ["/srv/up".toList, "/srv/root".toList] := by decide +kernel
    rw [hlayers] at hb
    have hb' : b = "/srv/up".toList ∨ b = "/srv/root".toList := by
      simpa only [mem_cons, not_mem_nil, or_false] using hb
    rcases hb' with rfl | rfl
    · have hup :
          linkedHost.resolve "/srv/up".toList true = .ok (.found ["srv".toList, "up".toList]) := by
        decide +kernel
      cases hup.symm.trans hp
      exact absurd hpre (by decide)
    · have hroot : linkedHost.resolve "/srv/root".toList true =
          .ok (.found ["srv".toList, "root".toList]) := by
        decide +kernel
      cases hroot.symm.trans hp
      exact absurd hpre (by decide)

/-! ## The text of an answer -/

section Text

variable {w : World} {ms : List Mount} {abs g b : Str} {m : Mount}

theorem classifyWrite_hostPath {wi : WriteIntent}
    (hb : (classifyWrite w m wi abs).1.realm = .hostBacked) :
    (classifyWrite w m wi abs).1.hostPath = m.up abs := by
  unfold classifyWrite at hb ⊢
  cases wi with
  | copyLeaf | parentsOnly => rfl
  | remove =>
    dsimp only at hb ⊢
    split_ifs at hb ⊢
    · rfl
    · cases hb
    · cases hb

/-- `hp` is the path of `g` in a layer of the mount that is deepest for `g`.  It is absolute and
normal, and the layer is a prefix of it by components. -/
def InLayer (ms : List Mount) (g hp : Str) : Prop :=
  ∃ m, deepest ms g = some m ∧
    ∃ b ∈ m.layers, hp = joinHost b (m.rel g) ∧ Normal hp ∧ comps b <+: comps hp

/-- `joinHost` adds names to the layer, and nothing else. -/
theorem inLayer_joinHost (hg : Normal g) (hd : deepest ms g = some m) (hl : b ∈ m.layers)
    (hb : Normal b) : InLayer ms g (joinHost b (m.rel g)) := by
  have hc := (deepest_mem hd).2
  obtain ⟨rs, hrs, hcg, -⟩ := Mount.rel_eq hg hc
  have hnames : ∀ c ∈ comps b ++ rs, IsName c := forall_mem_append.2 ⟨fun _ => hb.isName, hrs⟩
  refine ⟨m, hd, b, hl, rfl, ?_⟩
  rw [Mount.joinHost_split hg hc hcg hb, comps_absPath hnames]
  exact ⟨normal_absPath hnames, prefix_append _ _⟩

/-- The guest path that a classification of `abs` finally resolves to: the chase leads there, and if
it follows links, it does not lead on.  A write to an overlay mount takes the path as it is. -/
structure RestsAt (w : World) (forWrite follow : Bool) (abs g : Str) : Prop where
  leads : Relation.ReflTransGen (LeadsOn w.host w.mounts) abs g
  stays : follow = false → g = abs
  rests : follow → onward w.host w.mounts g = none ∨
    forWrite ∧ ∃ m, deepest w.mounts g = some m ∧ m.upper ≠ []

/-- The answer of a turn is in a layer of the mount of the path that the turn comes to rest at. -/
theorem StepRun.lexical {depth : Nat} {forWrite follow : Bool} {wi : WriteIntent} {pc : PathClass}
    {w' : World} (hr : StepRun w depth forWrite follow wi abs (.done pc) w') (hg : Normal abs)
    (hb : pc.realm = .hostBacked) : ∃ g, RestsAt w forWrite follow abs g ∧
      (RedirectAt w.mounts g pc.hostPath ∨ InLayer w.mounts g pc.hostPath) := by
  cases hr with
  | missing => cases hb
  | virtual => cases hb
  | redirect hr =>
    refine ⟨abs, ⟨.refl, fun _ => rfl, fun _ => .inl ?_⟩, .inl hr⟩
    obtain ⟨m, prod, vf, hd, hm, -⟩ := hr
    simp [onward, hd, hm]
  | @written m hw hd hm hu =>
    refine ⟨abs, ⟨.refl, fun _ => rfl, fun _ => .inr ⟨hw, m, hd, hu⟩⟩, .inr ?_⟩
    rw [classifyWrite_hostPath hb]
    exact inLayer_joinHost hg hd (by simp [Mount.layers, hu]) (m.upper_normal.resolve_left hu)
  | @shown m g _ hlead hstay hrest hd hm =>
    refine ⟨g, ⟨hlead, hstay, fun h => .inl (hrest h)⟩, .inr ?_⟩
    have hgn := onward_normal hg hlead
    rw [PathClass.host_hostPath, visiblePath]
    split_ifs with hv
    · exact inLayer_joinHost hgn hd (by simp [Mount.layers, hv.1])
        (m.upper_normal.resolve_left hv.1)
    · exact inLayer_joinHost hgn hd (by unfold Mount.layers; split_ifs <;> simp) (m.base_normal hm)

/-- **Lexical containment.** A host path that the classifier answers is a redirect of the guest path
it finally resolves to, or it is in a layer of the mount of that path. -/
theorem classifyImpl_lexical (w : World) (hg : Normal abs) (forWrite : Bool) (wi : WriteIntent)
    (budget : Nat) (follow : Bool)
    (hb : (classifyImpl forWrite wi budget follow abs w).1.realm = .hostBacked) :
    ∃ g, RestsAt w forWrite follow abs g ∧
      (RedirectAt w.mounts g (classifyImpl forWrite wi budget follow abs w).1.hostPath ∨
        InLayer w.mounts g (classifyImpl forWrite wi budget follow abs w).1.hostPath) := by
  rcases classifyImpl_last forWrite wi budget follow abs w with hl | ⟨a, _, ha, hl⟩
  · rw [hl] at hb
    cases hb
  rcases ha with rfl | ⟨hfollow, hled⟩
  · exact hl.lexical hg hb
  · obtain ⟨g, ⟨hlead, -, hrest⟩, hans⟩ := hl.lexical (LeadsOn.normal_of_led hled) hb
    exact ⟨g, ⟨hled.to_reflTransGen.trans hlead, fun h => by simp [hfollow] at h, hrest⟩, hans⟩

/-- The link `/lnk` leads to the guest's `/etc`, which the mounted directory does not have. -/
theorem classifyImpl_lexical_lnk : ∃ g, RestsAt linkedWorld false true "/lnk" g ∧
    (RedirectAt linkedWorld.mounts g
        (classifyImpl false .copyLeaf maxCross true "/lnk" linkedWorld).1.hostPath ∨
      InLayer linkedWorld.mounts g
        (classifyImpl false .copyLeaf maxCross true "/lnk" linkedWorld).1.hostPath) :=
  classifyImpl_lexical linkedWorld (normalizePath_eq_self_iff.1 (by decide)) false .copyLeaf
    maxCross true (by decide +kernel)

end Text

end Linuxity.Kernel

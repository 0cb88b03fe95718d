import Linuxity.Kernel.Merged

/-!
# Kernel.Agree — listing and lookup

`overlayDirUnion` scans the directory in both layers; a look at one of its names asks the layers in
turn.  They agree on a name as long as both see the same entry, and disagree on the journals, on
special files, on the names of emulated hard links, where a directory can be searched but not read,
and below a directory that has been removed.
-/

namespace Linuxity.Kernel

open Posix Wire List

/-! ## Ways without links -/

section Straight

variable {h : Host} {q c : Str} {f : Bool}

/-- What is at the end of a way without links. -/
def straightNode (h : Host) (cs : List Str) : Except Errno Node :=
  match h.blocked [] cs with
  | some e => .error e
  | none => match h.node cs with | none => .error .enoent | some x => .ok x

def openPart (h : Host) (cur : Loc) (part : Str) : Except Errno Loc :=
  match h.walk true maxLinks cur [part] with
  | .error e => .error e
  | .ok (.free _ _) => .error .enoent
  | .ok (.found l) => if h.isDirAt l then .ok l else .error .enotdir

theorem longFold_straight {as : List Str} {cur : Loc} (hcs : ∀ d ∈ as ++ [c], IsName d)
    (hs : h.Straight cur (as ++ [c])) :
    match as.foldlM (openPart h) cur with
    | .ok dfd => dfd = cur ++ as ∧ h.blocked cur as = none
    | .error e => h.blocked cur (as ++ [c]) = some e := by
  induction as generalizing cur with
  | nil => exact ⟨by simp, rfl⟩
  | cons a as ih =>
    have ha : ∀ d ∈ [a], IsName d := by
      intro d hd
      exact hcs d (by simp [mem_singleton.1 hd])
    have hlink : ∀ x, h.node (cur ++ [a]) = some x → x.isLink = false :=
      hs [a] (as ++ [c]) rfl (by simp)
    have hsa : h.Straight cur [a] := @Host.Straight.left h cur [a] (as ++ [c]) hs
    have hw := Host.walk_straight (n := maxLinks) (f := true) ha hsa fun _ => hlink
    rw [foldlM_cons, openPart]
    rw [show (a :: as) ++ [c] = [a] ++ (as ++ [c]) from rfl, show a :: as = [a] ++ as from rfl,
      Host.blocked_append [a], Host.blocked_append [a]]
    rcases hb : h.blocked cur [a] with _ | e
    · rw [hb] at hw
      rw [hw]
      dsimp only
      split_ifs with hd
      · have := ih (fun d hd => hcs d (.tail _ hd)) hs.tail
        rw [append_assoc] at this
        exact this
      · -- the next name is looked up in something that is no directory
        have hx := ((Host.blocked_name (ha a (by simp))).1 hb).2
        obtain ⟨x, hx⟩ := Option.ne_none_iff_exists'.1 hx
        have hxd : x.isDir = false := by simpa [Host.isDirAt, hx] using hd
        have hlook : ∀ d, h.look (cur ++ [a]) d = .error .enotdir := by simp [Host.look, hx, hxd]
        rcases as with _ | ⟨d, as⟩
        · simp [Host.blocked, hlook, bind, Except.bind]
        · simp [Host.blocked, hlook, bind, Except.bind]
    · rw [hb] at hw
      rcases hw with hw | ⟨rfl, d, c', hw⟩
      · rw [hw]
        rfl
      · rw [hw]
        rfl

theorem found_straight (hcs : ∀ d ∈ comps q ++ [c], IsName d) (hs : h.Straight [] (comps q ++ [c]))
    (hf : f → ∀ x, h.node (comps q ++ [c]) = some x → x.isLink = false) :
    nodeAnyLength h (q ++ '/' :: c) f = straightNode h (comps q ++ [c]) ∧
      foundAt h (q ++ '/' :: c) f =
        if h.blocked [] (comps q ++ [c]) = none then some (comps q ++ [c]) else none := by
  have hc := hcs c (by simp)
  have hsteps : steps (q ++ '/' :: c) = comps q ++ [c] := by
    unfold steps
    rw [comps_append_noSlash _ hc.2.1 hc.1, if_neg]
    · simp
    · rintro ⟨hlast, -⟩
      rw [List.getLast?_append_of_ne_nil _ (by simp), List.getLast?_cons_of_ne_nil hc.1] at hlast
      exact hc.2.1 (mem_of_getLast? hlast)
  have hroot : startOf [] (q ++ '/' :: c) = [] := by simp [startOf]
  have hne : q ++ '/' :: c ≠ [] := by simp
  have hw := Host.walk_straight (n := maxLinks) hcs hs hf
  have hlong := @Host.blocked_ne_long h [] (comps q ++ [c])
  unfold straightNode
  by_cases hlen : pathMax ≤ (q ++ '/' :: c).length
  · have hres : h.resolve (q ++ '/' :: c) f = .error .enametoolong := by
      simp only [Host.resolve, Host.resolveAt, if_neg hne, if_pos hlen]
    have hfold := longFold_straight hcs hs
    have hpar : atLongParent h (q ++ '/' :: c) = (comps q).foldlM (openPart h) [] := by
      unfold atLongParent
      rw [leafOf_append _ hc.2.1, dirOf_append _ hc.2.1, if_neg hc.1]
      rfl
    rw [← hpar] at hfold
    simp only [nodeAnyLength, Host.nodeOf, foundAt, hres, longNode, leafOf_append _ hc.2.1]
    rcases hp : atLongParent h (q ++ '/' :: c) with e | dfd
    · rw [hp] at hfold
      simp [hfold]
    · rw [hp] at hfold
      obtain ⟨rfl, hb⟩ := hfold
      have hlast :=
        @Host.walk_straight h f maxLinks (comps q) [c]
        (fun d hd => hcs d (by simp [mem_singleton.1 hd]))
        (fun as bs he hbs x hx => ?_) hf
      · simp only [nil_append]
        rw [Host.blocked_append, hb, Option.none_or, nil_append]
        rcases hbc : h.blocked (comps q) [c] with _ | e
        · rw [hbc] at hlast
          rw [hlast]
          rcases hx : h.node (comps q ++ [c]) with _ | x
          · simp [hx]
          · simp [hx]
        · rw [hbc] at hlast
          rcases hlast with hlast | ⟨rfl, d, c', hlast⟩
          · simp [hlast]
          · simp [hlast]
      · obtain ⟨rfl, rfl⟩ : as = [] ∧ bs = [c] := by
          rcases as with _ | ⟨a, as⟩
          · exact ⟨rfl, he.symm⟩
          · simp at he
            exact absurd he.2.2 hbs
        exact hs (comps q) [c] rfl (by simp) x (by simpa using hx)
  · have hres : h.resolve (q ++ '/' :: c) f = h.walk f maxLinks [] (comps q ++ [c]) := by
      simp only [Host.resolve, Host.resolveAt, if_neg hne, if_neg hlen, hsteps, hroot]
    simp only [nodeAnyLength, Host.nodeOf, foundAt, hres]
    rcases hb : h.blocked [] (comps q ++ [c]) with _ | e
    · rw [hb] at hw
      rw [hw]
      dsimp only
      rw [nil_append]
      rcases h.node (comps q ++ [c]) with _ | x
      · exact ⟨rfl, rfl⟩
      · exact ⟨rfl, rfl⟩
    · rw [hb] at hw hlong
      have he : e ≠ .enametoolong := fun he => hlong (by rw [he])
      rcases hw with hw | ⟨rfl, d, c', hw⟩
      · rw [hw]
        cases e <;> first | exact absurd rfl he | exact ⟨rfl, rfl⟩
      · rw [hw]
        exact ⟨rfl, rfl⟩

theorem straightNode_eq_ok {cs : List Str} {x : Node} :
    straightNode h cs = .ok x ↔ h.blocked [] cs = none ∧ h.node cs = some x := by
  unfold straightNode
  rcases h.blocked [] cs with _ | e
  · rcases h.node cs with _ | y
    · simp
    · simp
  · simp

theorem found_normal {p : Str} (hp : Normal p) (hu : h.Unlinked (comps p)) (f : Bool) :
    nodeAnyLength h p f = straightNode h (comps p) ∧
      foundAt h p f = if h.blocked [] (comps p) = none then some (comps p) else none := by
  obtain ⟨cs, hcs, rfl⟩ := hp
  rw [comps_absPath hcs] at hu ⊢
  rcases eq_nil_or_concat cs with rfl | ⟨cs', c, rfl⟩
  · have hres : h.resolve ['/'] f = .ok (.found []) := by
      simp [Host.resolve, Host.resolveAt, pathMax, steps, startOf, isAbs]
    obtain ⟨r, hr, -⟩ := h.rooted
    simp [nodeAnyLength, Host.nodeOf, foundAt, hres, straightNode, Host.blocked, hr]
  · rw [concat_eq_append] at hcs hu ⊢
    have hcs' : ∀ d ∈ cs', d ≠ [] ∧ '/' ∉ d :=
      fun d hd => (hcs d (mem_append_left _ hd)).ne_nil_noSlash
    rw [absPath_of_ne_nil (by simp), render_snoc]
    have hq := comps_render hcs'
    have hs : h.Unlinked cs' := fun as ha => hu as (ha.trans (prefix_append _ _))
    have := found_straight (f := f) (by rwa [hq]) (by rw [hq]; exact hs.straight c)
      (fun _ x hx => hu _ (prefix_refl _) x (by rwa [hq] at hx))
    rwa [hq] at this

theorem isName_snoc {cs : List Str} {n : Str} (hcs : ∀ c ∈ cs, IsName c) (hn : IsName n) :
    ∀ c ∈ cs ++ [n], IsName c :=
  forall_mem_append.2 ⟨hcs, forall_mem_singleton.2 hn⟩

theorem node_child (hq : ∀ d ∈ comps q, IsName d) (hu : h.Unlinked (comps q)) (hc : IsName c) :
    nodeAnyLength h (q ++ '/' :: c) false = straightNode h (comps q ++ [c]) := by
  exact (found_straight (f := false) (isName_snoc hq hc) (hu.straight c) nofun).1

def opens (h : Host) (cs : Loc) : Bool :=
  (h.blocked [] cs).isNone && (h.node cs).any fun x => x.isDir && x.readable

def enters (h : Host) (cs : Loc) : Bool :=
  (h.blocked [] cs).isNone && (h.node cs).any fun x => x.isDir && x.searchable

theorem enters_iff {cs : Loc} : enters h cs ↔ h.blocked [] cs = none ∧ h.Searchable cs := by
  unfold enters Host.Searchable
  rcases h.node cs with _ | x
  · simp
  · simp

theorem blocked_child {cs : Loc} (hc : IsName c) :
    h.blocked [] (cs ++ [c]) = none ↔ enters h cs ∧ h.node (cs ++ [c]) ≠ none := by
  rw [Host.blocked_append, Option.or_eq_none_iff, nil_append, Host.blocked_name hc, enters_iff,
    and_assoc]

theorem exists_child {q : Str} (hq : ∀ d ∈ comps q, IsName d) (hu : h.Unlinked (comps q))
    (hc : IsName c) :
    hostExists h (q ++ '/' :: c) = (enters h (comps q) && (h.node (comps q ++ [c])).isSome) := by
  have hb := @blocked_child h c (comps q) hc
  unfold hostExists
  rw [node_child hq hu hc, Bool.eq_iff_iff, Bool.and_eq_true, Option.isSome_iff_ne_none, ← hb]
  unfold straightNode
  rcases hbl : h.blocked [] (comps q ++ [c]) with _ | e
  · have hne := (hb.1 hbl).2
    obtain ⟨x, hx⟩ := Option.ne_none_iff_exists'.1 hne
    simp [hx, Except.isOk, Except.toBool]
  · simp [Except.isOk, Except.toBool]

end Straight

/-! ## Merging -/

section Merging

variable {h : Host} {seen : List VirtualDirent}

def direntOf (n : Str) (x : Node) : VirtualDirent := { name := n, type := dtypeOf x, ino := x.ino }

/-- A name in `seen` keeps its entry, and every other name of `es` gets one. -/
theorem mem_merge {es : List (Str × Node)} (hes : ∀ n x y, (n, x) ∈ es → (n, y) ∈ es → x = y)
    {e : VirtualDirent} : e ∈ es.foldl mergeEntry seen ↔
    e ∈ seen ∨ (∀ s ∈ seen, s.name ≠ e.name) ∧ ∃ x, (e.name, x) ∈ es ∧ e = direntOf e.name x := by
  induction es generalizing seen with
  | nil => simp
  | cons a es ih =>
    obtain ⟨n, x⟩ := a
    rw [foldl_cons, ih fun n x y hx hy => hes n x y (.tail _ hx) (.tail _ hy)]
    by_cases hn : ∃ s ∈ seen, s.name = n
    · have hm : mergeEntry seen (n, x) = seen := if_pos (by simpa using hn)
      rw [hm]
      refine or_congr_right (and_congr_right fun hno =>
          ⟨fun ⟨y, hy, he⟩ => ⟨y, .tail _ hy, he⟩, ?_⟩)
      rintro ⟨y, hy, he⟩
      rcases mem_cons.1 hy with hy | hy
      · obtain ⟨s, hs, hsn⟩ := hn
        exact absurd (hsn.trans (Prod.mk.inj hy).1.symm) (hno s hs)
      · exact ⟨y, hy, he⟩
    · have hm : mergeEntry seen (n, x) = seen ++ [direntOf n x] := if_neg (by simpa using hn)
      have hfresh : ∀ s ∈ seen, s.name ≠ n := fun s hs he => hn ⟨s, hs, he⟩
      rw [hm]
      constructor
      · rintro (he | ⟨hno, y, hy, he⟩)
        · rcases mem_append.1 he with he | he
          · exact .inl he
          · obtain rfl := mem_singleton.1 he
            exact .inr ⟨hfresh, x, .head _, rfl⟩
        · exact .inr ⟨fun s hs => hno s (mem_append_left _ hs), y, .tail _ hy, he⟩
      · rintro (he | ⟨hno, y, hy, he⟩)
        · exact .inl (mem_append_left _ he)
        · by_cases hne : e.name = n
          · -- the entry of the first one with this name
            have hyx : y = x := hes e.name y x hy (by rw [hne]; exact (.head _))
            rw [he, hyx, hne]
            exact .inl (mem_append_right _ (mem_singleton.2 rfl))
          · rcases mem_cons.1 hy with hy | hy
            · exact absurd (Prod.mk.inj hy).1 hne
            · refine .inr ⟨fun s hs => ?_, y, hy, he⟩
              rcases mem_append.1 hs with hs | hs
              · exact hno s hs
              · rw [mem_singleton.1 hs]
                exact fun h => hne h.symm

theorem nodup_merge {es : List (Str × Node)} (hs : (seen.map (·.name)).Nodup) :
    ((es.foldl mergeEntry seen).map (·.name)).Nodup := by
  induction es generalizing seen with
  | nil => exact hs
  | cons a es ih =>
    refine ih ?_
    unfold mergeEntry
    split_ifs with hn
    · exact hs
    · rw [map_append, nodup_append]
      refine ⟨hs, by simp, fun n hn' n' hn'' he => hn ?_⟩
      obtain ⟨s, hs', rfl⟩ := mem_map.1 hn'
      rw [map_singleton, mem_singleton] at hn''
      rw [any_eq_true]
      exact ⟨s, hs', by simp [he, hn'']⟩

theorem mergeDir_normal {p : Str} (hp : Normal p) (hu : h.Unlinked (comps p))
    (seen : List VirtualDirent) :
    mergeDir h p seen =
      if opens h (comps p) then some ((entriesAt h (comps p)).foldl mergeEntry seen) else none := by
  unfold mergeDir opens
  rw [dirLoc_eq, (found_normal hp hu true).2]
  rcases hb : h.blocked [] (comps p) with _ | e
  · simp only [if_true]
    rcases h.node (comps p) with _ | x
    · rfl
    · simp
  · simp

/-- What reading the two directories shows under a name. -/
def entryOf (h : Host) (u l : Loc) (n : Str) : Option Node :=
  (if opens h u then h.node (u ++ [n]) else none).or (if opens h l then h.node (l ++ [n]) else none)

theorem entriesAt_unique {l : Loc} (n : Str) (x y : Node) (hx : (n, x) ∈ entriesAt h l)
    (hy : (n, y) ∈ entriesAt h l) : x = y :=
  Option.some.inj ((mem_entriesAt.1 hx).symm.trans (mem_entriesAt.1 hy))

theorem mem_merge_nil {l : Loc} {e : VirtualDirent} : e ∈ (entriesAt h l).foldl mergeEntry [] ↔
    ∃ x, h.node (l ++ [e.name]) = some x ∧ e = direntOf e.name x := by
  rw [mem_merge entriesAt_unique]
  simp [mem_entriesAt]

theorem mem_merge_both {u l : Loc} {e : VirtualDirent} :
    e ∈ (entriesAt h l).foldl mergeEntry ((entriesAt h u).foldl mergeEntry []) ↔
      ∃ x, (h.node (u ++ [e.name])).or (h.node (l ++ [e.name])) = some x ∧
      e = direntOf e.name x := by
  rw [mem_merge entriesAt_unique, mem_merge_nil]
  rcases hx : h.node (u ++ [e.name]) with _ | x
  · have hno : ∀ s ∈ (entriesAt h u).foldl mergeEntry [], s.name ≠ e.name := by
      intro s hs he
      obtain ⟨y, hy, -⟩ := mem_merge_nil.1 hs
      rw [he, hx] at hy
      cases hy
    rw [and_iff_right hno]
    simp [mem_entriesAt]
  · have hin : ¬∀ s ∈ (entriesAt h u).foldl mergeEntry [], s.name ≠ e.name := by
      intro hall
      exact hall (direntOf e.name x) (mem_merge_nil.2 ⟨x, hx, rfl⟩) rfl
    simp [hin]

end Merging

/-! ## One directory of the overlay -/

def object (w : World) (p : Str) : Option Node :=
  (nodeAnyLength w.host (aliased w.links p) false).toOption

/-- A guest directory that has two layers, and no link leads to it in either. -/
structure Site (w : World) (m : Mount) (d : Str) : Prop where
  normal : Normal d
  overlay : Overlay w.mounts d m
  up : w.host.Unlinked (comps (m.up d))
  lo : w.host.Unlinked (comps (m.lo d))

/-- The upper layer shows the name to those who look it up. -/
def upperHas (w : World) (m : Mount) (d n : Str) : Bool :=
  enters w.host (comps (m.up d)) && (w.host.node (comps (m.up d) ++ [n])).isSome

section Site

variable {w : World} {m : Mount} {d n : Str}

theorem childPath_normal (hd : Normal d) (n : Str) : childPath d n = absPath (comps d ++ [n]) := by
  obtain ⟨cs, hcs, rfl⟩ := hd
  have hlast : ¬(absPath cs ≠ slash ∧ (absPath cs).getLast? = some '/') := by
    rintro ⟨hne, hl⟩
    by_cases h0 : cs = []
    · exact hne (by rw [h0]; rfl)
    · exact getLast?_absPath hcs h0 hl
  unfold childPath
  rw [if_neg hlast, comps_absPath hcs]
  by_cases h0 : cs = []
  · subst h0
    simp [absPath, slash]
  · have hne : absPath cs ≠ slash := by
      intro h
      have := congrArg comps h
      rw [comps_absPath hcs] at this
      exact h0 (by simpa [slash] using this)
    dsimp only
    rw [if_neg hne, absPath_of_ne_nil h0, absPath_of_ne_nil (by simp), render_snoc]
    simp [slash]

theorem covers_child (hs : Site w m d) (hn : IsName n) : m.covers (childPath d n) := by
  have hc := (deepest_mem hs.overlay.deepest).2
  rw [childPath_normal hs.normal n]
  obtain ⟨cs, hcs, rfl⟩ := hs.normal
  rw [comps_absPath hcs]
  have hcs' := isName_snoc hcs hn
  rw [Mount.covers_absPath hcs] at hc
  rw [Mount.covers_absPath hcs']
  rcases hc with hc | ⟨cs1, cs2, rfl, hp⟩
  · exact .inl hc
  · exact .inr ⟨cs1, cs2 ++ [n], by simp, hp⟩

/-- A name is in each layer what it is in the overlay. -/
theorem join_child (hs : Site w m d) (hn : IsName n) {b : Str} (hb : Normal b) :
    Normal (joinHost b (m.rel d)) ∧ joinHost b (m.rel (childPath d n)) =
        absPath (comps (joinHost b (m.rel d)) ++ [n]) := by
  have hc := (deepest_mem hs.overlay.deepest).2
  obtain ⟨rs, hrs, hcomps, -⟩ := Mount.rel_eq hs.normal hc
  have hnames : ∀ c ∈ comps b ++ rs, IsName c := forall_mem_append.2 ⟨fun _ => hb.isName, hrs⟩
  have hd := Mount.joinHost_split hs.normal hc hcomps hb
  have hdn := isName_snoc (fun c hc => hs.normal.isName hc) hn
  have hchild : Normal (childPath d n) := by
    rw [childPath_normal hs.normal n]
    exact normal_absPath hdn
  have hcomps' : comps (childPath d n) = comps m.pre ++ (rs ++ [n]) := by
    rw [childPath_normal hs.normal n, comps_absPath hdn, hcomps, append_assoc]
  have hdn := Mount.joinHost_split hchild (covers_child hs hn) hcomps' hb
  rw [hd, hdn, comps_absPath hnames, append_assoc]
  exact ⟨normal_absPath hnames, rfl⟩

theorem node_layer (hs : Site w m d) (hn : IsName n) {b : Str} (hb : Normal b)
    (hu : w.host.Unlinked (comps (joinHost b (m.rel d)))) :
    nodeAnyLength w.host (joinHost b (m.rel (childPath d n))) false =
      straightNode w.host (comps (joinHost b (m.rel d)) ++ [n]) := by
  obtain ⟨hnorm, hchild⟩ := join_child hs hn hb
  have hcomps : comps (render (comps (joinHost b (m.rel d)))) = _ :=
    comps_render fun c hc => (hnorm.isName hc).ne_nil_noSlash
  rw [hchild, absPath_of_ne_nil (by simp), render_snoc,
    node_child (by rw [hcomps]; exact fun c hc => hnorm.isName hc) (by rw [hcomps]; exact hu) hn,
    hcomps]

theorem Site.up_normal (hs : Site w m d) : Normal m.upper :=
  m.upper_normal.resolve_left hs.overlay.upper

theorem Site.lo_normal (hs : Site w m d) : Normal m.hostBase := m.base_normal hs.overlay.host

theorem probe_child (hs : Site w m d) (hn : IsName n) :
    probeLink w.host (m.up (childPath d n)) = .absent ↔
      upperHas w m d n = false ∧ w.host.blocked [] (comps (m.up d) ++ [n]) ≠ some .enotdir := by
  have hnode : nodeAnyLength w.host (m.up (childPath d n)) false =
      straightNode w.host (comps (m.up d) ++ [n]) :=
    node_layer hs hn hs.up_normal hs.up
  have hb := @blocked_child w.host n (comps (m.up d)) hn
  have hhas : upperHas w m d n ↔ w.host.blocked [] (comps (m.up d) ++ [n]) = none := by
    rw [hb, upperHas, Bool.and_eq_true, Option.isSome_iff_ne_none]
  unfold probeLink
  rw [hnode, straightNode]
  rcases hbl : w.host.blocked [] (comps (m.up d) ++ [n]) with _ | e
  · obtain ⟨x, hx⟩ := Option.ne_none_iff_exists'.1 (hb.1 hbl).2
    have htrue := hhas.2 hbl
    rw [hx]
    dsimp only
    rcases x.kind with _ | _ | _ | _ <;> simp [htrue]
  · have hfalse : upperHas w m d n = false := by
      rw [Bool.eq_false_iff, ne_eq, hhas, hbl]
      nofun
    cases e <;> simp [hfalse]

theorem seenAt_child (hs : Site w m d) (hn : IsName n) (hm : Overlay w.mounts (childPath d n) m) :
    seenAt w (childPath d n) =
      if upperHas w m d n ∨ w.host.blocked [] (comps (m.up d) ++ [n]) =
      some .enotdir then object w (m.up (childPath d n))
      else if childPath d n ∈ w.whiteouts then none else object w (m.lo (childPath d n)) := by
  rw [seenAt_overlay hm]
  have hiff := probe_child hs hn
  by_cases h : probeLink w.host (m.up (childPath d n)) = .absent
  · obtain ⟨h1, h2⟩ := hiff.1 h
    have hno : ¬(upperHas w m d n ∨ w.host.blocked [] (comps (m.up d) ++ [n]) = some .enotdir) := by
      rw [not_or, Bool.not_eq_true]
      exact ⟨h1, h2⟩
    rw [if_pos h, if_neg hno]
    rfl
  · rw [if_neg h, if_pos]
    · rfl
    · by_contra hno
      rw [not_or, Bool.not_eq_true] at hno
      exact h (hiff.2 hno)

/-- A directory that a look finds; the names of hard links are not asked for, as no directory has
one. -/
def dirSeen (w : World) (d : Str) : Bool :=
  let pc := (classifyName d false false .copyLeaf w).1
  pc.realm == .hostBacked && (nodeAnyLength w.host pc.hostPath false).toOption.any Node.isDir

theorem Site.up_path (hs : Site w m d) : Normal (m.up d) :=
  Mount.up_normal hs.normal (deepest_mem hs.overlay.deepest).2 hs.overlay.upper

/-- Where a directory is seen, no file of the upper layer is in the way of its names. -/
theorem dirSeen_free (hs : Site w m d) (hd : dirSeen w d) (n : Str) :
    w.host.blocked [] (comps (m.up d) ++ [n]) ≠ some .enotdir := by
  have hnode := (found_normal hs.up_path hs.up false).1
  have hcl : (classifyName d false false .copyLeaf w).1 =
    if probeLink w.host (m.up d) = .absent then if d ∈ w.whiteouts then .missing .enoent
    else .host (m.lo d)
      else .host (m.up d) := by
    have hstep : ∀ depth, classifyStep w depth false false .copyLeaf d =
        (classifyRead w m depth false d, w) := by
      intro depth
      unfold classifyStep
      simp [hs.overlay.deepest, hs.overlay.host, hs.overlay.upper]
    unfold classifyName classifyImpl
    simp only [hstep, classifyRead_eq]
  intro hno
  rcases Host.blocked_notdir hno with hb | ⟨hb, x, hx, hxd⟩
  · have hprobe : probeLink w.host (m.up d) = .notdir := by
      unfold probeLink
      rw [hnode, straightNode, hb]
    unfold dirSeen at hd
    rw [hcl, hprobe] at hd
    simp [hnode, straightNode, hb, Except.toOption] at hd
  · have hx : w.host.node (comps (m.up d)) = some x := hx
    have hok : nodeAnyLength w.host (m.up d) false = .ok x := by
      rw [hnode]
      exact straightNode_eq_ok.2 ⟨hb, hx⟩
    have hexists : hostExists w.host (m.up d) := by
      unfold hostExists
      rw [hok]
      rfl
    unfold dirSeen at hd
    rw [hcl, if_neg (probeLink_of_exists hexists).1] at hd
    simp [hok, Except.toOption, hxd] at hd

theorem Site.lo_path (hs : Site w m d) : Normal (m.lo d) := by
  have hc := (deepest_mem hs.overlay.deepest).2
  obtain ⟨rs, hrs, hcomps, -⟩ := Mount.rel_eq hs.normal hc
  rw [Mount.lo, Mount.joinHost_split hs.normal hc hcomps hs.lo_normal]
  exact normal_absPath (forall_mem_append.2 ⟨fun _ => hs.lo_normal.isName, hrs⟩)

/-- What the two directories list together, before the hidden names are taken out. -/
def merged (h : Host) (u l : Loc) : List VirtualDirent :=
  let ups := if opens h u then (entriesAt h u).foldl mergeEntry [] else []
  if opens h l then (entriesAt h l).foldl mergeEntry ups else ups

theorem nodup_merged {h : Host} {u l : Loc} : ((merged h u l).map (·.name)).Nodup := by
  have hups :
      ((if opens h u then (entriesAt h u).foldl mergeEntry [] else []).map (·.name)).Nodup := by
    split_ifs
    · exact nodup_merge (by simp)
    · simp
  unfold merged
  dsimp only
  split_ifs at hups ⊢
  · exact nodup_merge hups
  · exact nodup_merge hups
  · exact hups
  · exact hups

theorem mem_merged {h : Host} {u l : Loc} {e : VirtualDirent} :
    e ∈ merged h u l ↔ ∃ x, entryOf h u l e.name = some x ∧ e = direntOf e.name x := by
  unfold merged entryOf
  rcases opens h u with _ | _
  · rcases opens h l with _ | _
    · simp
    · simpa using mem_merge_nil
  · rcases opens h l with _ | _
    · simpa using mem_merge_nil
    · simpa using mem_merge_both

theorem union_eq (hs : Site w m d) : overlayDirUnion w d =
    if opens w.host (comps (m.up d)) || opens w.host (comps (m.lo d)) then
      { name := dot, type := .dir } :: { name := dotdot, type := .dir } ::
        (merged w.host (comps (m.up d)) (comps (m.lo d))).filter fun e => !hiddenEntry w m d e.name
    else [] := by
  have hno : ¬(m.producer.isSome ∨ m.upper = []) := by simp [hs.overlay.host, hs.overlay.upper]
  unfold overlayDirUnion merged
  rw [hs.overlay.deepest]
  dsimp only
  rw [if_neg hno, mergeDir_normal hs.up_path hs.up, mergeDir_normal hs.lo_path hs.lo]
  rcases opens w.host (comps (m.up d)) with _ | _
  · rcases opens w.host (comps (m.lo d)) with _ | _
    · rfl
    · rfl
  · rcases opens w.host (comps (m.lo d)) with _ | _
    · rfl
    · rfl

/-- A name is listed with what reading both layers shows, unless it is hidden. -/
theorem mem_union (hs : Site w m d) (hn : IsName n) {e : VirtualDirent} (he : e.name = n) :
    e ∈ overlayDirUnion w d ↔ hiddenEntry w m d n = false ∧
      ∃ x, entryOf w.host (comps (m.up d)) (comps (m.lo d)) n = some x ∧ e = direntOf n x := by
  have hdot : e ≠ { name := dot, type := .dir } ∧ e ≠ { name := dotdot, type := .dir } := by
    refine ⟨fun h => hn.2.2.1 ?_, fun h => hn.2.2.2 ?_⟩
    · rw [← he, h]
    · rw [← he, h]
  rw [union_eq hs]
  split_ifs with ho
  · rw [mem_cons, or_iff_right hdot.1, mem_cons, or_iff_right hdot.2, mem_filter, mem_merged, he,
      and_comm, Bool.not_eq_true']
  · have hnone : entryOf w.host (comps (m.up d)) (comps (m.lo d)) n = none := by
      rw [Bool.not_eq_true, Bool.or_eq_false_iff] at ho
      simp [entryOf, ho.1, ho.2]
    simp [hnone]

theorem hidden_iff (hs : Site w m d) (hn : IsName n) : hiddenEntry w m d n = false ↔
    n ∉ journalLeaves ∧ (childPath d n ∈ w.whiteouts → upperHas w m d n) := by
  unfold hiddenEntry World.isWhiteout
  rw [exists_child (fun c hc => hs.up_path.isName hc) hs.up hn]
  change (_ || _ && !upperHas w m d n) = false ↔ _
  rcases upperHas w m d n with _ | _
  · simp
  · simp

end Site

end Linuxity.Kernel

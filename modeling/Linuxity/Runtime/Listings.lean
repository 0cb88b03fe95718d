import Linuxity.Kernel.Agree
import Linuxity.Runtime.Removal

/-!
# Runtime.Listings — what a directory lists and what is found in it

For every directory of an overlay, the listing has the names that a look finds, with the inodes and
types of what it finds, exactly if each name fits in one of a few ways; and a directory that was
removed keeps nothing, exactly if each of its lower names has a whiteout of its own.
-/

namespace Linuxity.Runtime

open Posix Wire Kernel Abi Logic World List Option

/-! ## The property -/

/-- The type that is listed is the type of the object. -/
def IsType : DType → Kind → Prop
  | .dir, .dir => True
  | .regular, .file _ => True
  | .symlink, .link _ => True
  | _, _ => False

structure Agrees (w : World) (m : Mount) (d : Str) : Prop where
  dots : ∃ es, overlayDirUnion w d = { name := dot, type := .dir } ::
    { name := dotdot, type := .dir } :: es
  once : ((overlayDirUnion w d).map (·.name)).Nodup
  found : ∀ n, IsName n → Overlay w.mounts (childPath d n) m →
    ((∃ e ∈ overlayDirUnion w d, e.name = n) ↔ (seenAt w (childPath d n)).isSome)
  same : ∀ e ∈ overlayDirUnion w d, IsName e.name → Overlay w.mounts (childPath d e.name) m →
    ∀ x, seenAt w (childPath d e.name) = some x → e.ino = x.ino ∧ IsType e.type x.kind

/-- A directory that the guest has removed. -/
structure Removed (w : World) (m : Mount) (a : Str) : Prop where
  normal : Normal a
  overlay : Overlay w.mounts a m
  whited : a ∈ w.whiteouts
  gone : hostExists w.host (m.up a) = false

/-- The name is neither listed nor found. -/
structure Gone (w : World) (d n : Str) : Prop where
  unseen : seenAt w (childPath d n) = none
  unlisted : ∀ e ∈ overlayDirUnion w d, e.name ≠ n

/-- The name is one of the lower layer, at or below a removed directory. -/
structure Buried (w : World) (m : Mount) (d n : Str) : Prop where
  removed : ∃ a, Removed w m a ∧ comps a <+: comps d
  name : IsName n
  overlay : Overlay w.mounts (childPath d n) m
  lower : hostExists w.host (m.lo (childPath d n))

def ListingAgrees (w : World) : Prop :=
  ∀ m d, Site w m d → (dirSeen w d → Agrees w m d) ∧ ∀ n, Buried w m d n → Gone w d n

/-! ## How a name fits -/

/-- The object has the inode of the entry, and the type the entry is listed with. -/
def SameFile (x : Node) (o : Option Node) : Prop :=
  ∃ y, o = some y ∧ x.ino = y.ino ∧ IsType (dtypeOf x) y.kind

section Fits

variable (w : World) (m : Mount) (d n : Str)

inductive NameFits : Prop
  /-- Whited out, and not made again. -/
  | hidden (hw : childPath d n ∈ w.whiteouts) (hu : upperHas w m d n = false)
  /-- In the upper directory, which can be read and searched. -/
  | upper (x : Node) (hj : n ∉ journalLeaves) (hu : upperHas w m d n)
      (ho : opens w.host (comps (m.up d)))
      (hx : w.host.node (comps (m.up d) ++ [n]) = some x)
        (hs : SameFile x (object w (m.up (childPath d n))))
  /-- In the lower one alone. -/
  | lower (x : Node) (hj : n ∉ journalLeaves) (hu : upperHas w m d n = false)
      (hno : opens w.host (comps (m.up d)) → w.host.node (comps (m.up d) ++ [n]) = none)
      (ho : opens w.host (comps (m.lo d))) (hx : w.host.node (comps (m.lo d) ++ [n]) = some x)
      (hs : SameFile x (object w (m.lo (childPath d n))))
  /-- In neither, or with the name of a journal that is not there. -/
  | nothing (hj : n ∈ journalLeaves ∨
        (opens w.host (comps (m.up d)) → w.host.node (comps (m.up d) ++ [n]) = none) ∧
        (opens w.host (comps (m.lo d)) → w.host.node (comps (m.lo d) ++ [n]) = none))
      (hno : object w (if upperHas w m d n then m.up (childPath d n) else m.lo (childPath d n)) =
          none)
  /-- In an upper directory that can be searched but not read, while the lower one lists the same
  file. -/
  | twinUpper (x : Node) (hj : n ∉ journalLeaves) (hu : upperHas w m d n)
      (hno : opens w.host (comps (m.up d)) = false)
      (ho : opens w.host (comps (m.lo d))) (hx : w.host.node (comps (m.lo d) ++ [n]) = some x)
      (hs : SameFile x (object w (m.up (childPath d n))))
  /-- In an upper directory that can be read but not searched, while the same file is found in the
  lower one. -/
  | twinLower (x : Node) (hj : n ∉ journalLeaves) (hu : upperHas w m d n = false)
      (ho : opens w.host (comps (m.up d)))
      (hx : w.host.node (comps (m.up d) ++ [n]) = some x)
        (hs : SameFile x (object w (m.lo (childPath d n))))

/-- One of the directories can be read, and every name fits. -/
structure Regular : Prop where
  opened : opens w.host (comps (m.up d)) ∨ opens w.host (comps (m.lo d))
  names : ∀ n, IsName n → Overlay w.mounts (childPath d n) m → NameFits w m d n

/-- The name has a whiteout of its own, or is kept from being listed and from being found in other
ways. -/
structure Cleared : Prop where
  unlisted : n ∈ journalLeaves ∨ childPath d n ∈ w.whiteouts ∨ opens w.host (comps (m.lo d)) = false
  unseen :
    if w.host.blocked [] (comps (m.up d) ++ [n]) = some .enotdir then
      object w (m.up (childPath d n)) = none
    else childPath d n ∈ w.whiteouts ∨ object w (m.lo (childPath d n)) = none

end Fits

section Iff

variable {w : World} {m : Mount} {d n : Str}

/-- The listing and the look agree on one name. -/
structure NameAgrees (w : World) (d n : Str) : Prop where
  found : (∃ e ∈ overlayDirUnion w d, e.name = n) ↔ (seenAt w (childPath d n)).isSome
  same : ∀ e ∈ overlayDirUnion w d, e.name = n → ∀ x, seenAt w (childPath d n) = some x →
    e.ino = x.ino ∧ IsType e.type x.kind

theorem entryOf_none {h : Host} {u l : Loc} : entryOf h u l n = none ↔
    (opens h u → h.node (u ++ [n]) = none) ∧ (opens h l → h.node (l ++ [n]) = none) := by
  unfold entryOf
  rw [or_eq_none_iff]
  rcases opens h u with _ | _
  · rcases opens h l with _ | _ <;> simp
  · rcases opens h l with _ | _ <;> simp

theorem entryOf_some {h : Host} {u l : Loc} {x : Node} :
    entryOf h u l n = some x ↔ opens h u ∧ h.node (u ++ [n]) = some x ∨
      (opens h u → h.node (u ++ [n]) = none) ∧ opens h l ∧ h.node (l ++ [n]) = some x := by
  unfold entryOf
  rw [or_eq_some_iff]
  rcases opens h u with _ | _
  · rcases opens h l with _ | _ <;> simp
  · rcases opens h l with _ | _ <;> simp

/-- What is listed under a name, and what is found there. -/
def Matches (listed : Bool) (e o : Option Node) : Prop :=
  (listed = false ∨ e = none) ∧ o = none ∨ listed ∧ ∃ x, e = some x ∧ SameFile x o

theorem nameAgrees_iff (hs : Site w m d) (hn : IsName n) :
    NameAgrees w d n ↔
      Matches (!hiddenEntry w m d n) (entryOf w.host (comps (m.up d)) (comps (m.lo d)) n)
      (seenAt w (childPath d n)) := by
  have hmem : ∀ e : VirtualDirent, e.name = n →
      (e ∈ overlayDirUnion w d ↔ hiddenEntry w m d n = false ∧
        ∃ x, entryOf w.host (comps (m.up d)) (comps (m.lo d)) n = some x ∧ e = direntOf n x) :=
    fun e he => mem_union hs hn he
  generalize hiddenEntry w m d n = hid at hmem ⊢
  generalize entryOf w.host (comps (m.up d)) (comps (m.lo d)) n = E at hmem ⊢
  constructor
  · intro ha
    by_cases hl : hid = false ∧ ∃ x, E = some x
    · obtain ⟨hh, x, hx⟩ := hl
      have hin : direntOf n x ∈ overlayDirUnion w d := (hmem _ rfl).2 ⟨hh, x, hx, rfl⟩
      obtain ⟨y, hy⟩ := isSome_iff_exists.1 (ha.found.1 ⟨_, hin, rfl⟩)
      obtain ⟨hi, ht⟩ := ha.same _ hin rfl y hy
      exact .inr ⟨by simp [hh], x, hx, y, hy, hi, ht⟩
    · refine .inl ⟨?_, ?_⟩
      · rcases hh : hid with _ | _
        · refine .inr ?_
          rcases hE : E with _ | x
          · rfl
          · exact absurd ⟨hh, x, hE⟩ hl
        · exact .inl rfl
      · rcases hy : seenAt w (childPath d n) with _ | y
        · rfl
        · obtain ⟨e, he, hen⟩ := ha.found.2 (by rw [hy]; rfl)
          obtain ⟨hh, x, hx, -⟩ := (hmem e hen).1 he
          exact absurd ⟨hh, x, hx⟩ hl
  · rintro (⟨hno, hsn⟩ | ⟨hh, x, hx, y, hy, hi, ht⟩)
    · have hnot : ∀ e ∈ overlayDirUnion w d, e.name ≠ n := by
        intro e he hen
        obtain ⟨hh, x, hx, -⟩ := (hmem e hen).1 he
        rcases hno with hno | hno
        · simp [hh] at hno
        · simp [hx] at hno
      refine ⟨⟨fun ⟨e, he, hen⟩ => absurd hen (hnot e he), fun h => ?_⟩,
        fun e he hen => absurd hen (hnot e he)⟩
      simp [hsn] at h
    · have hh : hid = false := by simpa using hh
      refine ⟨⟨fun _ => by rw [hy]; rfl,
          fun _ => ⟨direntOf n x, (hmem _ rfl).2 ⟨hh, x, hx, rfl⟩, rfl⟩⟩, fun e he hen z hz => ?_⟩
      obtain ⟨-, x', hx', rfl⟩ := (hmem e hen).1 he
      cases hx.symm.trans hx'
      cases hy.symm.trans hz
      exact ⟨hi, ht⟩

theorem nameFits_iff (hs : Site w m d) (hd : dirSeen w d) (hn : IsName n)
    (hm : Overlay w.mounts (childPath d n) m) : NameFits w m d n ↔ NameAgrees w d n := by
  have hseen := seenAt_child hs hn hm
  have hhid := hidden_iff hs hn
  rw [nameAgrees_iff hs hn]
  unfold Matches
  rw [hseen]
  simp only [dirSeen_free hs hd n, or_false]
  rcases hu : upperHas w m d n with _ | _
  · rw [hu] at hhid
    by_cases hw : childPath d n ∈ w.whiteouts
    · have hh : hiddenEntry w m d n := by simpa [hw] using hhid
      rw [hh, if_pos hw]
      exact ⟨fun _ => .inl ⟨.inl rfl, rfl⟩, fun _ => .hidden hw hu⟩
    · have hh : (!hiddenEntry w m d n) ↔ n ∉ journalLeaves := by simpa [hw] using hhid
      rw [if_neg hw, ← Bool.not_eq_true, hh, not_not]
      constructor
      · rintro (⟨hw', -⟩ | ⟨x, hj, hu', -⟩ | ⟨x, hj, -, hno, ho, hx, hsf⟩ | ⟨hj, hno⟩
            | ⟨x, hj, hu', -⟩ | ⟨x, hj, -, ho, hx, hsf⟩)
        · exact absurd hw' hw
        · simp [hu] at hu'
        · exact .inr ⟨hj, x, entryOf_some.2 (.inr ⟨hno, ho, hx⟩), hsf⟩
        · rw [hu, if_neg nofun] at hno
          exact .inl ⟨hj.imp id entryOf_none.2, hno⟩
        · simp [hu] at hu'
        · exact .inr ⟨hj, x, entryOf_some.2 (.inl ⟨ho, hx⟩), hsf⟩
      · rintro (⟨hj, hno⟩ | ⟨hj, x, hx, hsf⟩)
        · refine .nothing (hj.imp id entryOf_none.1) ?_
          rw [hu, if_neg nofun]
          exact hno
        · rcases entryOf_some.1 hx with ⟨ho, hx⟩ | ⟨hno, ho, hx⟩
          · exact .twinLower x hj hu ho hx hsf
          · exact .lower x hj hu hno ho hx hsf
  · rw [hu] at hhid
    have hh : (!hiddenEntry w m d n) ↔ n ∉ journalLeaves := by simpa using hhid
    have hin : (w.host.node (comps (m.up d) ++ [n])).isSome := by
      unfold upperHas at hu
      rw [Bool.and_eq_true] at hu
      exact hu.2
    rw [if_pos rfl, ← Bool.not_eq_true, hh, not_not]
    constructor
    · rintro (⟨-, hu'⟩ | ⟨x, hj, -, ho, hx, hsf⟩ | ⟨x, hj, hu', -⟩ | ⟨hj, hno⟩
          | ⟨x, hj, -, hno, ho, hx, hsf⟩ | ⟨x, hj, hu', -⟩)
      · simp [hu] at hu'
      · exact .inr ⟨hj, x, entryOf_some.2 (.inl ⟨ho, hx⟩), hsf⟩
      · simp [hu] at hu'
      · rw [hu, if_pos rfl] at hno
        exact .inl ⟨hj.imp id entryOf_none.2, hno⟩
      · exact .inr ⟨hj, x, entryOf_some.2 (.inr ⟨fun h => absurd h (by simp [hno]), ho, hx⟩), hsf⟩
      · simp [hu] at hu'
    · rintro (⟨hj, hno⟩ | ⟨hj, x, hx, hsf⟩)
      · refine .nothing (hj.imp id entryOf_none.1) ?_
        rw [hu, if_pos rfl]
        exact hno
      · rcases entryOf_some.1 hx with ⟨ho, hx⟩ | ⟨hno, ho, hx⟩
        · exact .upper x hj hu ho hx hsf
        · refine .twinUpper x hj hu ?_ ho hx hsf
          rw [Bool.eq_false_iff]
          intro hup
          simp [hno hup] at hin

theorem merged_name {h : Host} {u l : Loc} {e : VirtualDirent}
    (he : e ∈ merged h u l) : IsName e.name := by
  obtain ⟨x, hx, -⟩ := mem_merged.1 he
  rcases entryOf_some.1 hx with ⟨-, hx⟩ | ⟨-, -, hx⟩
  · exact h.named hx
  · exact h.named hx

theorem agrees_iff (hs : Site w m d) (hd : dirSeen w d) : Agrees w m d ↔ Regular w m d := by
  constructor
  · intro ha
    refine ⟨?_, fun n hn hm =>
      (nameFits_iff hs hd hn hm).2 ⟨ha.found n hn hm, fun e he hen x hx => ?_⟩⟩
    · obtain ⟨es, hes⟩ := ha.dots
      rw [union_eq hs] at hes
      split_ifs at hes with ho
      rwa [Bool.or_eq_true] at ho
    · subst hen
      exact ha.same e he hn hm x hx
  · intro hr
    have ho : (opens w.host (comps (m.up d)) || opens w.host (comps (m.lo d))) := by
      rw [Bool.or_eq_true]
      exact hr.opened
    have heq := union_eq hs
    rw [if_pos ho] at heq
    have hagree : ∀ n, IsName n → Overlay w.mounts (childPath d n) m → NameAgrees w d n :=
        fun n hn hm =>
      (nameFits_iff hs hd hn hm).1 (hr.names n hn hm)
    refine ⟨⟨_, heq⟩, ?_, fun n hn hm => (hagree n hn hm).found,
      fun e he hn hm => (hagree e.name hn hm).same e he rfl⟩
    -- the two directories are no proper names, and the rest is merged without repetition
    have hrest := (nodup_merged (h := w.host) (u := comps (m.up d)) (l := comps (m.lo d))).sublist
      ((filter_sublist (p := fun e : VirtualDirent => !hiddenEntry w m d e.name)).map (·.name))
    have hnot : ∀ c, (c = dot ∨ c = dotdot) →
        c ∉ ((merged w.host (comps (m.up d)) (comps (m.lo d))).filter fun e =>
          !hiddenEntry w m d e.name).map (·.name) := by
      rintro c hc hmem
      obtain ⟨e, he, rfl⟩ := mem_map.1 hmem
      have hname := merged_name (mem_filter.1 he).1
      rcases hc with hc | hc
      · exact hname.2.2.1 hc
      · exact hname.2.2.2 hc
    rw [heq, map_cons, map_cons, nodup_cons, nodup_cons]
    refine ⟨?_, hnot dotdot (.inr rfl), hrest⟩
    rw [mem_cons, not_or]
    exact ⟨by decide, hnot dot (.inl rfl)⟩

theorem removed_blocked (hs : Site w m d) {a : Str} (hr : Removed w m a)
    (ha : comps a <+: comps d) :
    w.host.blocked [] (comps (m.up d)) ≠ none := by
  obtain ⟨ra, hra, hna, hupa⟩ :=
    Mount.up_eq hr.normal (deepest_mem hr.overlay.deepest).2 hr.overlay.upper
  obtain ⟨rd, hrd, hnd, hupd⟩ :=
    Mount.up_eq hs.normal (deepest_mem hs.overlay.deepest).2 hs.overlay.upper
  have hpre : ra <+: rd := by
    rw [hra, hrd] at ha
    exact (prefix_append_right_inj _).1 ha
  obtain ⟨rs, rfl⟩ := hpre
  have hca : comps (m.up a) = comps m.upper ++ ra := by rw [hupa, comps_absPath hna]
  have hcd : comps (m.up d) = comps m.upper ++ ra ++ rs := by
    rw [hupd, comps_absPath hnd, append_assoc]
  have hua : w.host.Unlinked (comps (m.up a)) := by
    intro as has x hx
    refine hs.up as ?_ x hx
    rw [hcd, ← hca]
    exact has.trans (prefix_append _ _)
  have hnormal := Mount.up_normal hr.normal (deepest_mem hr.overlay.deepest).2 hr.overlay.upper
  intro hb
  rw [hcd, ← hca, Host.blocked_append, or_eq_none_iff] at hb
  have hfound := (found_normal hnormal hua false).2
  rw [if_pos hb.1] at hfound
  have := hostExists_iff.2 ⟨_, hfound⟩
  simp [hr.gone] at this

theorem gone_iff (hs : Site w m d) (hb : Buried w m d n) : Gone w d n ↔ Cleared w m d n := by
  obtain ⟨⟨a, hr, ha⟩, hn, hm, hlow⟩ := hb
  have hblocked := removed_blocked hs hr ha
  obtain ⟨e, he⟩ := ne_none_iff_exists'.1 hblocked
  have hou : opens w.host (comps (m.up d)) = false := by simp [opens, he]
  have hu : upperHas w m d n = false := by simp [upperHas, enters, he]
  have hlo : w.host.node (comps (m.lo d) ++ [n]) ≠ none := by
    have hnode : nodeAnyLength w.host (m.lo (childPath d n)) false =
        straightNode w.host (comps (m.lo d) ++ [n]) :=
      node_layer hs hn hs.lo_normal hs.lo
    unfold hostExists at hlow
    rw [hnode] at hlow
    rcases hx : straightNode w.host (comps (m.lo d) ++ [n]) with e | x
    · simp [hx, Except.isOk, Except.toBool] at hlow
    · simp [(straightNode_eq_ok.1 hx).2]
  have hhid := hidden_iff hs hn
  rw [hu] at hhid
  have hlisted : (∀ e ∈ overlayDirUnion w d, e.name ≠ n) ↔
      n ∈ journalLeaves ∨ childPath d n ∈ w.whiteouts ∨ opens w.host (comps (m.lo d)) = false := by
    constructor
    · intro hno
      by_contra hc
      rw [not_or, not_or, Bool.not_eq_false] at hc
      obtain ⟨x, hx⟩ := ne_none_iff_exists'.1 hlo
      refine hno (direntOf n x) ((mem_union hs hn rfl).2 ⟨?_, x, ?_, rfl⟩) rfl
      · exact hhid.2 ⟨hc.1, fun hw => absurd hw hc.2.1⟩
      · exact entryOf_some.2 (.inr ⟨fun h => absurd h (by simp [hou]), hc.2.2, hx⟩)
    · intro hc e he hen
      obtain ⟨hh, x, hx, -⟩ := (mem_union hs hn hen).1 he
      obtain ⟨hj, hw⟩ := hhid.1 hh
      rcases hc with hc | hc | hc
      · exact hj hc
      · cases hw hc
      · rcases entryOf_some.1 hx with ⟨ho, -⟩ | ⟨-, ho, -⟩
        · simp [hou] at ho
        · simp [hc] at ho
  have hunseen : seenAt w (childPath d n) = none ↔
    if w.host.blocked [] (comps (m.up d) ++ [n]) =
    some .enotdir then object w (m.up (childPath d n)) = none
      else childPath d n ∈ w.whiteouts ∨ object w (m.lo (childPath d n)) = none := by
    rw [seenAt_child hs hn hm, hu]
    simp only [Bool.false_eq_true, false_or]
    by_cases h1 : w.host.blocked [] (comps (m.up d) ++ [n]) = some .enotdir
    · rw [if_pos h1, if_pos h1]
    · rw [if_neg h1, if_neg h1]
      by_cases h2 : childPath d n ∈ w.whiteouts
      · simp [h2]
      · simp [h2]
  constructor
  · intro hg
    exact ⟨hlisted.1 hg.unlisted, hunseen.1 hg.unseen⟩
  · intro hc
    exact ⟨hunseen.2 hc.unseen, hlisted.2 hc.unlisted⟩

end Iff

/-- Listing and lookup agree exactly if every name of a directory fits, and every lower name below a
removed directory is cleared. -/
theorem listing_agrees_iff (w : World) :
    ListingAgrees w ↔ ∀ m d, Site w m d →
      (dirSeen w d = true → Regular w m d) ∧ ∀ n, Buried w m d n → Cleared w m d n := by
  constructor
  · intro ha m d hs
    obtain ⟨h1, h2⟩ := ha m d hs
    exact ⟨fun hd => (agrees_iff hs hd).1 (h1 hd), fun n hb => (gone_iff hs hb).1 (h2 n hb)⟩
  · intro hr m d hs
    obtain ⟨h1, h2⟩ := hr m d hs
    exact ⟨fun hd => (agrees_iff hs hd).2 (h1 hd), fun n hb => (gone_iff hs hb).2 (h2 n hb)⟩

/-! ## A removed directory -/

/-- The two layers after `rmdir("/d")`. -/
def dirGone : World := (runNative (twoTexts "/d" []) (twoPaths "/d") .rmdir (layeredWorld ∅)).2

/-- The directory has a whiteout and is not found, but its file is, and is listed in it. -/
theorem removed_dir_shows :
    dirGone.whiteouts = {"/d".toList} ∧ dirSeen dirGone "/d".toList = false ∧
      (seenAt dirGone "/d/f".toList).isSome = true ∧
      (∃ e ∈ overlayDirUnion dirGone "/d".toList, e.name = "f".toList) ∧
      ¬ListingAgrees dirGone := by
  have hm : ∀ abs, Overlay dirGone.mounts abs layeredMount := layered_overlay ∅
  have hwh : dirGone.whiteouts = {"/d".toList} := by decide +kernel
  have hd : Normal "/d".toList := ⟨["d".toList], by decide, rfl⟩
  have hs : Site dirGone layeredMount "/d".toList :=
    ⟨hd, hm _, by decide +kernel, by decide +kernel⟩
  have hb : Buried dirGone layeredMount "/d".toList "f".toList := by
    refine ⟨⟨"/d".toList, ⟨hd, hm _, ?_, by decide +kernel⟩, prefix_refl _⟩, by decide,
      hm _, by decide +kernel⟩
    rw [hwh]
    decide
  refine ⟨hwh, by decide +kernel, by decide +kernel, by decide +kernel, fun ha => ?_⟩
  have hgone := ((ha layeredMount "/d".toList hs).2 "f".toList hb).unseen
  exact absurd hgone (by decide +kernel)

end Linuxity.Runtime

import Linuxity.Kernel.Listing
import Linuxity.Kernel.Prepare

/-!
# Kernel.Merged — what a guest sees of an overlay

`seenAt` is what a look at a path finds, without following it; `overlayDirUnion` is what a listing
shows.  Both are said here in terms of the two layers.
-/

namespace Linuxity.Kernel

open Posix Wire List

/-! ## Places on the host -/

def foundAt (h : Host) (p : Str) (follow : Bool) : Option Loc :=
  match h.resolve p follow with
  | .ok (.found l) => some l
  | .ok (.free _ _) => none
  | .error .enametoolong =>
    match atLongParent h p with
    | .error _ => none
    | .ok dfd =>
      match h.walk follow maxLinks dfd [leafOf p] with
      | .ok (.found l) => some l
      | _ => none
  | .error _ => none

theorem dirLoc_eq (h : Host) (p : Str) : dirLoc h p = foundAt h p true := rfl

section Places

variable {h : Host} {p : Str} {l : Loc} {f : Bool}

theorem look_ne_long {cur : Loc} {c : Str} : h.look cur c ≠ .error .enametoolong := by
  unfold Host.look
  split
  · nofun
  · split_ifs
    · nofun
    · nofun
    · nofun
    · nofun
    · split
      · nofun
      · split <;> nofun

theorem walk_ne_long {n : Nat} {cur : Loc} {cs : List Str} :
    h.walk f n cur cs ≠ .error .enametoolong := by
  induction n, cur, cs using Host.walk_induction h with
  | nil n cur => simp
  | cons n cur c cs ihinto ihlink =>
    rw [Host.walk_cons]
    rcases hl : h.look cur c with e | k
    · exact fun he => look_ne_long (hl.trans (by rw [Except.error.inj he]))
    rcases k with l' | t | _
    · exact ihinto l' hl
    · dsimp only
      split_ifs
      · nofun
      · rcases n with _ | n
        · nofun
        · unfold Host.jump
          split_ifs
          · nofun
          · exact ihlink n t rfl hl
    · split_ifs <;> nofun

/-- A path leads where one walk ends, or where its last name is found in its directory. -/
theorem foundAt_eq_some :
    foundAt h p f = some l ↔
      p ≠ [] ∧
      ((p.length < pathMax ∧ h.walk f maxLinks (startOf [] p) (steps p) = .ok (.found l)) ∨
        (pathMax ≤ p.length ∧ ∃ dfd, atLongParent h p = .ok dfd ∧
        h.walk f maxLinks dfd [leafOf p] = .ok (.found l))) := by
  unfold foundAt Host.resolve Host.resolveAt
  by_cases h0 : p = []
  · simp [h0]
  rw [if_neg h0]
  by_cases hlen : pathMax ≤ p.length
  · have hnot : ¬p.length < pathMax := by omega
    rw [if_pos hlen]
    simp only [ne_eq, h0, not_false_eq_true, true_and, hnot, false_and, false_or, hlen]
    rcases atLongParent h p with e | dfd
    · simp
    · simp only [Except.ok.injEq, exists_eq_left']
      rcases h.walk f maxLinks dfd [leafOf p] with e | ⟨l'⟩ | ⟨d, c⟩ <;> simp
  · have hlt : p.length < pathMax := by omega
    rw [if_neg hlen]
    simp only [ne_eq, h0, not_false_eq_true, true_and, hlt, hlen, false_and, or_false]
    have hne := @walk_ne_long h f maxLinks (startOf [] p) (steps p)
    generalize h.walk f maxLinks (startOf [] p) (steps p) = x at hne ⊢
    rcases x with e | ⟨l'⟩ | ⟨d, c⟩
    · cases e with
      | enametoolong => exact absurd rfl hne
      | _ => simp
    · simp
    · simp

/-- What every step of a loop that may fail keeps. -/
theorem foldlM_keeps {α β ε : Type} {g : β → α → Except ε β} {P : β → Prop}
    (hg : ∀ b a b', P b → g b a = .ok b' → P b') {as : List α} {b b' : β} (hb : P b)
    (h : as.foldlM g b = .ok b') : P b' := by
  induction as generalizing b with
  | nil =>
    cases h
    exact hb
  | cons a as ih =>
    rw [foldlM_cons] at h
    rcases hs : g b a with e | b1
    · rw [hs] at h
      cases h
    · rw [hs] at h
      exact ih (hg b a b1 hb hs) h

theorem atLongParent_node {dfd : Loc} (hp : atLongParent h p = .ok dfd) : h.node dfd ≠ none := by
  unfold atLongParent at hp
  split_ifs at hp
  refine foldlM_keeps (P := fun l => h.node l ≠ none) (fun cur part l hcur hs => ?_) ?_ hp
  · split at hs
    · cases hs
    · cases hs
    · rename_i l' hw
      split_ifs at hs
      cases hs
      exact Host.walk_found_node hcur hw
  · obtain ⟨r, hr, _⟩ := h.rooted
    simp [hr]

theorem foundAt_node (hl : foundAt h p f = some l) : ∃ n, h.node l = some n := by
  have hroot : h.node (startOf [] p) ≠ none := by
    obtain ⟨r, hr, _⟩ := h.rooted
    simp [startOf, hr]
  rcases (foundAt_eq_some.1 hl).2 with ⟨-, hw⟩ | ⟨-, dfd, hd, hw⟩
  · exact Option.ne_none_iff_exists'.1 (Host.walk_found_node hroot hw)
  · exact Option.ne_none_iff_exists'.1 (Host.walk_found_node (atLongParent_node hd) hw)

/-- What following leads to is there without following: itself, or a link. -/
theorem foundAt_of_follow (hl : foundAt h p true = some l) : ∃ l', foundAt h p false = some l' := by
  simp only [foundAt_eq_some] at hl ⊢
  obtain ⟨h0, ⟨hlen, hw⟩ | ⟨hlen, dfd, hd, hw⟩⟩ := hl
  · rcases Host.walk_true_cases hw with hw | ⟨l', m, hw, -⟩
    · exact ⟨l, h0, .inl ⟨hlen, hw⟩⟩
    · exact ⟨l', h0, .inl ⟨hlen, hw⟩⟩
  · rcases Host.walk_true_cases hw with hw | ⟨l', m, hw, -⟩
    · exact ⟨l, h0, .inr ⟨hlen, dfd, hd, hw⟩⟩
    · exact ⟨l', h0, .inr ⟨hlen, dfd, hd, hw⟩⟩

theorem foundAt_follow (hl : foundAt h p false = some l)
    (hk : ∀ n, h.node l = some n → n.isLink = false) : foundAt h p true = some l := by
  simp only [foundAt_eq_some] at hl ⊢
  obtain ⟨h0, ⟨hlen, hw⟩ | ⟨hlen, dfd, hd, hw⟩⟩ := hl
  · exact ⟨h0, .inl ⟨hlen, Host.walk_true_of_found hw hk⟩⟩
  · exact ⟨h0, .inr ⟨hlen, dfd, hd, Host.walk_true_of_found hw hk⟩⟩

theorem nodeAnyLength_eq_ok {n : Node} :
    nodeAnyLength h p f = .ok n ↔ ∃ l, foundAt h p f = some l ∧ h.node l = some n := by
  unfold nodeAnyLength Host.nodeOf longNode foundAt
  rcases h.resolve p f with e | ⟨l'⟩ | ⟨d, c⟩
  · cases e with
    | enametoolong =>
      rcases atLongParent h p with e | dfd
      · simp
      · dsimp only
        rcases h.walk f maxLinks dfd [leafOf p] with e | ⟨l'⟩ | ⟨d, c⟩
        · simp
        · rcases hn : h.node l' with _ | m
          · simp [hn]
          · simp [hn]
        · simp
    | _ => simp
  · rcases hn : h.node l' with _ | m
    · simp [hn]
    · simp [hn]
  · simp

theorem hostExists_iff : hostExists h p ↔ ∃ l, foundAt h p false = some l := by
  unfold hostExists
  constructor
  · intro hx
    rcases hn : nodeAnyLength h p false with e | n
    · simp [hn, Except.isOk, Except.toBool] at hx
    · obtain ⟨l, hl, -⟩ := nodeAnyLength_eq_ok.1 hn
      exact ⟨l, hl⟩
  · rintro ⟨l, hl⟩
    obtain ⟨n, hn⟩ := foundAt_node hl
    rw [nodeAnyLength_eq_ok.2 ⟨l, hl, hn⟩]
    rfl

end Places

/-! ## A look -/

def aliased (links : LinkTable) (p : Str) : Str := (links.backingOf p).getD p

def seenAt (w : World) (abs : Str) : Option Node :=
  let pc := (classify abs false false .copyLeaf w).1
  if pc.realm = .hostBacked then (nodeAnyLength w.host pc.hostPath false).toOption else none

section Look

variable {w : World} {m : Mount} {abs : Str}

theorem resolveAlias_host (w : World) {wi : WriteIntent} (hwi : wi ≠ .remove) (p : Str) :
    resolveAlias w wi (.host p) = .host (aliased w.links p) := by
  unfold resolveAlias aliased
  rw [if_pos ⟨rfl, hwi⟩]
  rcases hb : w.links.backingOf p with _ | b
  · simp [hb]
  · simp [hb, PathClass.host]

theorem probeLink_of_exists {h : Host} {p : Str} (hx : hostExists h p) :
    probeLink h p ≠ .absent ∧ probeLink h p ≠ .notdir := by
  obtain ⟨l, hl⟩ := hostExists_iff.1 hx
  obtain ⟨n, hn⟩ := foundAt_node hl
  unfold probeLink
  rw [nodeAnyLength_eq_ok.2 ⟨l, hl, hn⟩]
  dsimp only
  split <;> exact ⟨nofun, nofun⟩

theorem classifyRead_eq (w : World) (m : Mount) (depth : Nat) (abs : Str) :
    classifyRead w m depth false abs =
      .done (if probeLink w.host (m.up abs) = .absent then
          if abs ∈ w.whiteouts then .missing .enoent else .host (m.lo abs)
        else .host (m.up abs)) := by
  unfold classifyRead World.isWhiteout
  rcases probeLink w.host (m.up abs) with t | _ | _ | _
  · simp
  · simp
  · by_cases hwh : abs ∈ w.whiteouts
    · simp [hwh]
    · simp [hwh]
  · simp

theorem classify_overlay_read (hm : Overlay w.mounts abs m) {wi : WriteIntent}
    (hwi : wi ≠ .remove) :
    (classify abs false false wi w).1 =
      if probeLink w.host (m.up abs) = .absent then
        if abs ∈ w.whiteouts then .missing .enoent else .host (aliased w.links (m.lo abs))
      else .host (aliased w.links (m.up abs)) := by
  have hstep :
      ∀ depth, classifyStep w depth false false wi abs = (classifyRead w m depth false abs, w) := by
    intro depth
    unfold classifyStep
    simp [hm.deepest, hm.host, hm.upper]
  unfold classify classifyName classifyImpl
  simp only [hstep, classifyRead_eq]
  split_ifs
  · simp [resolveAlias]
  · rw [resolveAlias_host w hwi]
  · rw [resolveAlias_host w hwi]

theorem seenAt_overlay (hm : Overlay w.mounts abs m) :
    seenAt w abs =
      if probeLink w.host (m.up abs) = .absent then if abs ∈ w.whiteouts then none
      else (nodeAnyLength w.host (aliased w.links (m.lo abs)) false).toOption
      else (nodeAnyLength w.host (aliased w.links (m.up abs)) false).toOption := by
  unfold seenAt
  rw [classify_overlay_read hm (by decide)]
  split_ifs with h1 h2 <;> simp_all

end Look

/-! ## A listing -/

section Listing

variable {w : World} {m : Mount} {abs : Str} {h : Host} {p : Str}

theorem mem_entriesAt {l : Loc} {c : Str} {n : Node} :
    (c, n) ∈ entriesAt h l ↔ h.node (l ++ [c]) = some n := by
  unfold entriesAt
  rw [mem_filterMap]
  constructor
  · rintro ⟨q, hq, hc⟩
    split at hc
    · cases hc
    · rename_i c' hlast
      split_ifs at hc with hd
      obtain ⟨n', hn', he⟩ := Option.map_eq_some_iff.1 hc
      obtain ⟨rfl, rfl⟩ := Prod.mk.inj he
      have hq' : q = l ++ [c'] := by
        rw [← hd]
        exact (dropLast_append_getLast? c' hlast).symm
      rw [← hq']
      exact hn'
  · intro hn
    exact ⟨l ++ [c], h.mem_dom hn, by simp [hn]⟩

theorem mergeDir_absent (hx : hostExists h p = false) (seen : List VirtualDirent) :
    mergeDir h p seen = none := by
  have hnone : foundAt h p true = none := by
    rcases hl : foundAt h p true with _ | l
    · rfl
    · have := hostExists_iff.2 (foundAt_of_follow hl)
      simp [hx] at this
  unfold mergeDir
  rw [dirLoc_eq, hnone]

theorem mergeDir_empty {l : Loc} (hl : dirLoc h p = some l) (he : ∀ c, h.node (l ++ [c]) = none)
    (seen : List VirtualDirent) : (mergeDir h p seen).getD seen = seen := by
  have hnil : entriesAt h l = [] := by
    rw [eq_nil_iff_forall_not_mem]
    rintro ⟨c, n⟩ hn
    rw [mem_entriesAt, he c] at hn
    cases hn
  unfold mergeDir
  rw [hl]
  dsimp only
  rw [hnil]
  rcases h.node l with _ | d
  · rfl
  · dsimp only
    split_ifs <;> rfl

theorem mem_foldl_mergeEntry {es : List (Str × Node)} {seen : List VirtualDirent}
    {e : VirtualDirent} (he : e ∈ es.foldl mergeEntry seen) : e ∈ seen ∨ ∃ n, (e.name, n) ∈ es := by
  induction es generalizing seen with
  | nil => exact .inl he
  | cons x es ih =>
    rw [foldl_cons] at he
    rcases ih he with hs | ⟨n, hn⟩
    · unfold mergeEntry at hs
      split_ifs at hs
      · exact .inl hs
      · rcases mem_append.1 hs with hs | hs
        · exact .inl hs
        · obtain rfl := mem_singleton.1 hs
          exact .inr ⟨x.2, .head _⟩
    · exact .inr ⟨n, .tail _ hn⟩

theorem mergeDir_name {es : List VirtualDirent} (hes : mergeDir h p [] = some es)
    {e : VirtualDirent} (he : e ∈ es) : IsName e.name := by
  unfold mergeDir at hes
  split at hes
  · cases hes
  · rename_i l hl
    split at hes
    · cases hes
    · split_ifs at hes
      cases hes
      rcases mem_foldl_mergeEntry he with h0 | ⟨n, hn⟩
      · cases h0
      · exact h.named (mem_entriesAt.1 hn)

/-- A name is listed if it was there before, or the directory has it. -/
theorem mem_mergeDir_name {seen : List VirtualDirent} {n : Str} :
    n ∈ ((mergeDir h p seen).getD seen).map (·.name) ↔
      n ∈ seen.map (·.name) ∨ n ∈ ((mergeDir h p []).getD []).map (·.name) := by
  have hfold : ∀ (es : List (Str × Node)) (seen : List VirtualDirent),
      n ∈ (es.foldl mergeEntry seen).map (·.name) ↔
      n ∈ seen.map (·.name) ∨ n ∈ es.map Prod.fst := by
    intro es
    induction es with
    | nil => simp
    | cons x es ih =>
      intro seen
      have hstep : n ∈ (mergeEntry seen x).map (·.name) ↔ n ∈ seen.map (·.name) ∨ n = x.1 := by
        unfold mergeEntry
        split_ifs with hx
        · refine ⟨.inl, fun h => h.elim id ?_⟩
          rintro rfl
          obtain ⟨e, he, hen⟩ := any_eq_true.1 hx
          exact mem_map.2 ⟨e, he, by simpa using hen⟩
        · simp
      rw [foldl_cons, ih, hstep, map_cons, mem_cons, or_assoc]
  unfold mergeDir
  rcases dirLoc h p with _ | l
  · simp
  · dsimp only
    rcases h.node l with _ | d
    · simp
    · dsimp only
      split_ifs
      · rw [Option.getD_some, Option.getD_some, hfold, hfold]
        simp
      · simp

/-- The directory of one layer shows nothing. -/
def LayerBare (w : World) (m : Mount) (abs dir : Str) : Prop :=
  ∀ e ∈ (mergeDir w.host dir []).getD [], hiddenEntry w m abs e.name

def LowerBare (w : World) (m : Mount) (abs : Str) : Prop := LayerBare w m abs (m.lo abs)

def Bare (es : List VirtualDirent) : Prop := ∀ e ∈ es, e.name = dot ∨ e.name = dotdot

instance (es : List VirtualDirent) : Decidable (Bare es) :=
  inferInstanceAs (Decidable (∀ e ∈ es, _ ∨ _))

/-- The listing has what the two layers show. -/
theorem union_bare_iff (hm : Overlay w.mounts abs m) :
    Bare (overlayDirUnion w abs) ↔ LayerBare w m abs (m.up abs) ∧ LowerBare w m abs := by
  have hno : ¬(m.producer.isSome ∨ m.upper = []) := by simp [hm.host, hm.upper]
  have hlayer : ∀ dir, LayerBare w m abs dir ↔
      ∀ n ∈ ((mergeDir w.host dir []).getD []).map (·.name), hiddenEntry w m abs n := by
    simp [LayerBare]
  have hname : ∀ {dir n}, n ∈ ((mergeDir w.host dir []).getD []).map (·.name) → IsName n := by
    intro dir n hn
    obtain ⟨e, he, rfl⟩ := mem_map.1 hn
    rcases hd : mergeDir w.host dir [] with _ | es
    · simp [hd] at he
    · rw [hd] at he
      exact mergeDir_name hd he
  -- the names that are filtered are those of both layers
  have hmem := @mem_mergeDir_name w.host (m.lo abs) ((mergeDir w.host (m.up abs) []).getD [])
  have hiff : (∀ n ∈ ((mergeDir w.host (m.lo abs) ((mergeDir w.host (m.up abs) []).getD [])).getD
      ((mergeDir w.host (m.up abs) []).getD [])).map (·.name), hiddenEntry w m abs n) ↔
        LayerBare w m abs (m.up abs) ∧ LowerBare w m abs := by
    rw [LowerBare, hlayer, hlayer]
    simp only [hmem, or_imp, forall_and]
  rw [← hiff]
  unfold Bare overlayDirUnion
  rw [hm.deepest]
  dsimp only
  rw [if_neg hno]
  split_ifs with h0
  · obtain ⟨h1, h2⟩ := h0
    simp only [Option.isNone_iff_eq_none] at h1 h2
    rw [h2, h1]
    simp
  constructor
  · intro hall n hn
    by_contra hh
    obtain ⟨e, he, rfl⟩ := mem_map.1 hn
    have hshown := hall e (.tail _ (.tail _ (mem_filter.2 ⟨he, by simpa using hh⟩)))
    have hn := (hmem.1 hn).elim hname hname
    exact hshown.elim hn.2.2.1 hn.2.2.2
  · intro hall e he
    rcases mem_cons.1 he with rfl | he
    · exact .inl rfl
    · rcases mem_cons.1 he with rfl | he
      · exact .inr rfl
      · obtain ⟨hes, hh⟩ := mem_filter.1 he
        simp [hall e.name (mem_map_of_mem hes)] at hh

end Listing

/-! ## Two layers -/

/-- The lower layer has the file `t`, and the directories `d` and `e` with one file each; the upper
one has `e` without entries. -/
def layeredHost : Host :=
  Host.ofList
    [([], ⟨0, 0o755, .dir⟩), (["srv"], ⟨1, 0o755, .dir⟩), (["srv", "root"], ⟨2, 0o755, .dir⟩),
      (["srv", "root", "t"], ⟨3, 0o644, .file "low"⟩), (["srv", "root", "d"], ⟨4, 0o755, .dir⟩),
      (["srv", "root", "d", "f"], ⟨5, 0o644, .file "data"⟩),
      (["srv", "root", "e"], ⟨6, 0o755, .dir⟩), (["srv", "root", "e", "g"], ⟨7, 0o644, .file []⟩),
      (["srv", "up"], ⟨8, 0o755, .dir⟩), (["srv", "up", "e"], ⟨9, 0o755, .dir⟩)] 10 (by decide)

def layeredMount : Mount := mountHost slash slash "/srv/root" "/srv/up" (by decide)

def layeredWorld (wh : Finset Str) : World where
  host := layeredHost
  mounts := [layeredMount]
  whiteouts := wh

theorem layered_overlay (wh : Finset Str) (abs : Str) :
    Overlay (layeredWorld wh).mounts abs layeredMount :=
  ⟨deepest_root rfl abs, rfl, by decide +kernel⟩

end Linuxity.Kernel

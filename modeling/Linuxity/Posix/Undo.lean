import Linuxity.Posix.Grow
import Linuxity.Posix.Move

/-!
# Posix.Undo — entries that are made and taken back

A tree is walked by its nodes alone, so a new file that is removed again leaves no trace, even if
it was given a second name in between.
-/

namespace Posix

namespace Host

variable {h h' h₁ : Host} {f : Bool} {n : Nat} {cur : Loc}

/-! ## Trees with the same nodes -/

theorem look_congr (hn : h'.node = h.node) : h'.look = h.look := by
  funext cur c
  unfold look
  rw [hn]

theorem walkWith_congr (hn : h'.node = h.node) {onLink : Loc → Str → List Str → Except Errno Place}
    (cs : List Str) (cur : Loc) : h'.walkWith f onLink cur cs = h.walkWith f onLink cur cs := by
  induction cs generalizing cur with
  | nil => rfl
  | cons c cs ih =>
    unfold walkWith
    rw [look_congr hn]
    simp only [ih]

theorem walk_congr (hn : h'.node = h.node) (f : Bool) (n : Nat) : h'.walk f n = h.walk f n := by
  induction n with
  | zero =>
    funext cur cs
    exact walkWith_congr hn cs cur
  | succ n ih =>
    funext cur cs
    unfold walk
    rw [ih]
    exact walkWith_congr hn cs cur

theorem resolve_congr (hn : h'.node = h.node) : h'.resolve = h.resolve := by
  funext p f
  unfold resolve resolveAt
  rw [walk_congr hn]

theorem nodeOf_congr (hn : h'.node = h.node) : h'.nodeOf = h.nodeOf := by
  funext p f
  unfold nodeOf
  rw [resolve_congr hn, hn]

theorem create_isOk {l : Loc} {c : Str} {m : Nat} {k : Kind} : (h.create l c m k).isOk ↔
    k ≠ .link [] ∧ (h.node l).any Node.isDir ∧ IsName c ∧ h.node (l ++ [c]) = none ∧
      (h.node l).any Node.writable := by
  unfold create isDirAt
  split_ifs <;> simp_all [Except.isOk, Except.toBool]

theorem create_isOk_congr (hn : h'.node = h.node) (l : Loc) (c : Str) (m m' : Nat) (k : Kind) :
    (h'.create l c m' k).isOk = (h.create l c m k).isOk := by
  rw [Bool.eq_iff_iff, create_isOk, create_isOk, hn]

theorem createWith_isOk {p : Str} {mode : Nat} {data : Str} : (h.createWith p mode data).isOk ↔
    ∃ d e, h.resolve p false = .ok (.free d e) ∧ (h.create d e 0 (.file data)).isOk := by
  unfold createWith
  rcases h.resolve p false with e | l | ⟨l, c⟩
  · simp [Except.isOk, Except.toBool]
  · simp [Except.isOk, Except.toBool]
  · simp [create_isOk]

theorem createWith_isOk_congr (hn : h'.node = h.node) (p : Str) (mode : Nat) (data : Str) :
    (h'.createWith p mode data).isOk = (h.createWith p mode data).isOk := by
  unfold createWith
  rw [resolve_congr hn]
  rcases h.resolve p false with e | l | ⟨l, c⟩
  · rfl
  · rfl
  · exact create_isOk_congr hn l c _ _ _

theorem createExcl_isOk_congr (hn : h'.node = h.node) (p : Str) (mode : Nat) :
    (h'.createExcl p mode).isOk = (h.createExcl p mode).isOk := createWith_isOk_congr hn p mode []

/-- A second name is made where a new file could be. -/
theorem linkTo_isOk {ls : Loc} {p : Str} :
    (h.linkTo ls p).isOk ↔ (h.node ls).any (!·.isDir) ∧ (h.createWith p 0 []).isOk := by
  unfold linkTo createWith
  split
  · rename_i hls
    simp [hls, Except.isOk, Except.toBool]
  · rename_i n hls
    have hany : (h.node ls).any (!·.isDir) = !n.isDir := by rw [hls, Option.any_some]
    rw [hany]
    by_cases hd : n.isDir
    · simp [hd, Except.isOk, Except.toBool]
    rw [if_neg hd]
    rcases h.resolve p false with e | l | ⟨l, c⟩
    · simp [Except.isOk, Except.toBool]
    · simp [Except.isOk, Except.toBool]
    · simp only [hd, create_isOk]
      unfold isDirAt
      split_ifs <;> simp_all [Except.isOk, Except.toBool]

theorem linkTo_isOk_congr (hn : h'.node = h.node) (ls : Loc) (p : Str) :
    (h'.linkTo ls p).isOk = (h.linkTo ls p).isOk := by
  rw [Bool.eq_iff_iff, linkTo_isOk, linkTo_isOk, hn, createWith_isOk_congr hn]

/-! ## Removing -/

/-- The entry is there, is no directory and may be taken out. -/
structure Unlinks (h : Host) (p : Str) (l : Loc) : Prop where
  found : h.resolve p false = .ok (.found l)
  plain : ∃ n, h.node l = some n ∧ n.kind ≠ .dir
  may : h.mayRemove l

variable {l d : Loc} {e s a b : Str} {mode : Nat}

theorem Unlinks.run {p : Str} (hu : h.Unlinks p l) :
    ∃ h', h.unlink p = .ok h' ∧ ∀ q, h'.node q = if q = l then none else h.node q := by
  obtain ⟨hf, ⟨n, hn, hk⟩, hm⟩ := hu
  unfold unlink
  rw [hf]
  dsimp only
  split
  · rename_i hnone
    rw [hn] at hnone
    cases hnone
  · rename_i n' hn'
    obtain rfl : n = n' := Option.some.inj (hn.symm.trans hn')
    rw [dif_neg hk, if_neg (by simp [hm])]
    exact ⟨_, rfl, fun _ => rfl⟩

theorem unlink_isOk {p : Str} : (h.unlink p).isOk ↔ ∃ l, h.Unlinks p l := by
  refine ⟨fun hok => ?_, fun ⟨l, hu⟩ => ?_⟩
  · unfold unlink at hok
    split at hok
    · cases hok
    · cases hok
    · rename_i l hf
      split at hok
      · cases hok
      · rename_i n hn
        split_ifs at hok with hk hm
        · cases hok
        · cases hok
        · exact ⟨l, hf, ⟨n, hn, hk⟩, by simpa using hm⟩
  · obtain ⟨h', hr, -⟩ := hu.run
    rw [hr]
    rfl

theorem unlinks_congr (hn : h'.node = h.node) (p : Str) (l : Loc) :
    h'.Unlinks p l ↔ h.Unlinks p l := by
  have hmay : h'.mayRemove l = h.mayRemove l := by
    unfold mayRemove
    rw [hn]
  constructor
  · rintro ⟨h1, h2, h3⟩
    exact ⟨by rwa [← resolve_congr hn], by rwa [← hn], by rwa [← hmay]⟩
  · rintro ⟨h1, h2, h3⟩
    exact ⟨by rwa [resolve_congr hn], by rwa [hn], by rwa [hmay]⟩

theorem unlink_isOk_congr (hn : h'.node = h.node) (p : Str) :
    (h'.unlink p).isOk = (h.unlink p).isOk := by
  rw [Bool.eq_iff_iff, unlink_isOk, unlink_isOk]
  exact exists_congr (unlinks_congr hn p)

theorem orSame_of_not_isOk {r : Except Errno Host} (hr : r.isOk = false) : h.orSame r = h := by
  rcases r with e | h₁
  · rfl
  · cases hr

/-- An unlink that is not told of takes out its entry, or nothing. -/
theorem orSame_unlink (h : Host) (p : Str) :
    (h.unlink p).isOk = false ∧ h.orSame (h.unlink p) = h ∨
      ∃ l, h.Unlinks p l ∧
        ∀ q, (h.orSame (h.unlink p)).node q = if q = l then none else h.node q := by
  rcases hok : (h.unlink p).isOk with _ | _
  · exact .inl ⟨rfl, orSame_of_not_isOk hok⟩
  · obtain ⟨l, hu⟩ := unlink_isOk.1 hok
    obtain ⟨h', hr, hnode⟩ := hu.run
    refine .inr ⟨l, hu, fun q => ?_⟩
    rw [hr]
    exact hnode q

/-- The tree after these unlinks, of which none is told of. -/
def unlinkAll (h : Host) (ps : List Str) : Host := ps.foldl (fun h p => h.orSame (h.unlink p)) h

variable {ps : List Str} {p : Str}

theorem unlinkAll_cons (h : Host) (p : Str) (ps : List Str) :
    h.unlinkAll (p :: ps) = (h.orSame (h.unlink p)).unlinkAll ps := rfl

theorem unlinkAll_append (h : Host) (ps qs : List Str) :
    h.unlinkAll (ps ++ qs) = (h.unlinkAll ps).unlinkAll qs := List.foldl_append

theorem unlinkAll_none (hl : h.node l = none) (ps : List Str) : (h.unlinkAll ps).node l = none := by
  induction ps generalizing h with
  | nil => exact hl
  | cons p ps ih =>
    rw [unlinkAll_cons]
    refine ih ?_
    rcases h.orSame_unlink p with ⟨-, he⟩ | ⟨l', -, hnode⟩
    · rwa [he]
    · rw [hnode, hl, ite_self]

/-- A directory is not taken out. -/
theorem unlinkAll_dir {m : Node} (hl : h.node l = some m) (hk : m.kind = .dir) (ps : List Str) :
    (h.unlinkAll ps).node l = some m := by
  induction ps generalizing h with
  | nil => exact hl
  | cons p ps ih =>
    rw [unlinkAll_cons]
    refine ih ?_
    rcases h.orSame_unlink p with ⟨-, he⟩ | ⟨l', hu, hnode⟩
    · rwa [he]
    · rw [hnode, if_neg, hl]
      rintro rfl
      obtain ⟨x, hx, hkx⟩ := hu.plain
      obtain rfl : m = x := Option.some.inj (hl.symm.trans hx)
      exact hkx hk

theorem unlinkAll_congr (hn : h'.node = h.node) (ps : List Str) :
    (h'.unlinkAll ps).node = (h.unlinkAll ps).node := by
  induction ps generalizing h h' with
  | nil => exact hn
  | cons p ps ih =>
    rw [unlinkAll_cons, unlinkAll_cons]
    refine ih ?_
    rcases h.orSame_unlink p with ⟨hf, he⟩ | ⟨l, hu, hnode⟩
    · rw [he, orSame_of_not_isOk (by rw [unlink_isOk_congr hn, hf]), hn]
    · obtain ⟨h₂, hr, hnode'⟩ := (unlinks_congr hn p l).2 hu |>.run
      funext q
      rw [hnode, hr]
      exact (hnode' q).trans (by rw [hn])

theorem unlinkAll_same :
    (h.unlinkAll ps).node = h.node ↔ ∀ p ∈ ps, (h.unlink p).isOk = false := by
  induction ps generalizing h with
  | nil => simp [unlinkAll]
  | cons p ps ih =>
    rw [unlinkAll_cons, List.forall_mem_cons]
    rcases h.orSame_unlink p with ⟨hf, he⟩ | ⟨l, hu, hnode⟩
    · rw [he, ih, and_iff_right hf]
    · refine iff_of_false (fun hs => ?_) fun hall => ?_
      · obtain ⟨m, hm, -⟩ := hu.plain
        rw [← hs, unlinkAll_none (by rw [hnode, if_pos rfl])] at hm
        cases hm
      · simpa [hall.1] using unlink_isOk.2 ⟨l, hu⟩

/-! ## New files -/

theorem resolve_mono (hle : h.Le h') (hf : h.resolve s f = .ok (.found l)) :
    h'.resolve s f = .ok (.found l) := by
  unfold resolve resolveAt at hf ⊢
  split_ifs at hf ⊢
  exact walk_mono hle hf

/-- A free name whose entry is now a file can be removed. -/
theorem unlinks_made (hg : h.Grows h') (hw : h.resolve s false = .ok (.free d e)) {m : Node}
    (hm : h'.node (d ++ [e]) = some m) (hk : m.kind ≠ .dir) (hwr : (h'.node d).any Node.writable) :
    h'.Unlinks s (d ++ [e]) :=
  ⟨resolve_made hg hw (by simp [hm]), ⟨m, hm, hk⟩, by simpa [mayRemove] using hwr⟩

section Adds

variable {c data : Str} (ha : h.Adds h' (l ++ [c]) (.file data))

include ha in
theorem node_of_adds (hcur : h.node cur ≠ none) : h'.node cur = h.node cur := by
  refine ha.same cur ?_
  rintro rfl
  exact hcur ha.fresh

include ha in
theorem look_of_adds {e : Str} {k : Look} (hcur : h.node cur ≠ none)
    (hne : cur ++ [e] ≠ l ++ [c]) (hl : h'.look cur e = .ok k) : h.look cur e = .ok k := by
  rw [← hl]
  unfold look
  rw [node_of_adds ha hcur, ha.same _ hne]

include ha in
theorem ne_of_look_link {e t : Str} (hl : h'.look cur e = .ok (.link t)) :
    cur ++ [e] ≠ l ++ [c] := by
  intro hne
  obtain ⟨m, hm, hk⟩ := ha.new
  obtain ⟨x, hx, hlink⟩ := look_link hl
  rw [hne, hm] at hx
  cases hx
  simp [Node.isLink, hk] at hlink

include ha in
/-- A walk meets the new file at its end or not at all. -/
theorem walk_of_adds {cs : List Str} {p : Place} (hcur : h.node cur ≠ none)
    (hw : h'.walk f n cur cs = .ok p) : h.walk f n cur cs = .ok p ∨
      p = .found (l ++ [c]) ∧ h.walk f n cur cs = .ok (.free l c) := by
  obtain ⟨m, hm, hk⟩ := ha.new
  simp only [walk_eq_ok] at hw ⊢
  induction hw with
  | done hp => exact .inl (.done hp)
  | @into n cur l' e cs hl hw ih =>
    by_cases hne : cur ++ [e] = l ++ [c]
    · obtain ⟨rfl, he⟩ := List.append_inj' hne rfl
      obtain rfl : e = c := by simpa using he
      have hname := h'.named hm
      obtain rfl := look_into_name hname hl
      -- a walk that has reached the file ends there or fails
      have hno : ∀ c' k, h'.look (cur ++ [e]) c' ≠ .ok k := by
        intro c' k
        simp [look, hm, Node.isDir, hk]
      cases hw with
      | done hp =>
        obtain ⟨x, hx, hdir⟩ := searchable_of_look hl
        rw [node_of_adds ha hcur] at hx
        refine .inr ⟨hp.symm, .free ?_ rfl⟩
        rw [look_of_name ⟨x, hx, hdir⟩ hname.2.2.1 hname.2.2.2, ha.fresh]
      | into hl' => exact absurd hl' (hno _ _)
      | free hl' => exact absurd hl' (hno _ _)
      | last hl' => exact absurd hl' (hno _ _)
      | follow hl' => exact absurd hl' (hno _ _)
    · have hl := look_of_adds ha hcur hne hl
      exact (ih (look_into_node hl)).imp (.into hl) (And.imp_right (.into hl))
  | free hl hp =>
    refine .inl (.free (look_of_adds ha hcur (fun hne => ?_) hl) hp)
    have hnone := (look_missing hl).2.2.2
    rw [hne, hm] at hnone
    cases hnone
  | last hl hf hp =>
    exact .inl (.last (look_of_adds ha hcur (ne_of_look_link ha hl) hl) hf hp)
  | follow hl hgo ht _ ih =>
    have hl := look_of_adds ha hcur (ne_of_look_link ha hl) hl
    refine (ih ?_).imp (.follow hl hgo ht) (And.imp_right (.follow hl hgo ht))
    unfold startOf
    split_ifs
    · obtain ⟨r, hr, -⟩ := h.rooted
      simp [hr]
    · exact hcur

include ha in
theorem resolve_of_adds {p : Place} (hw : h'.resolve s f = .ok p) : h.resolve s f = .ok p ∨
    p = .found (l ++ [c]) ∧ h.resolve s f = .ok (.free l c) := by
  unfold resolve resolveAt at hw ⊢
  split_ifs at hw ⊢
  refine walk_of_adds ha ?_ hw
  obtain ⟨r, hr, -⟩ := h.rooted
  simp [startOf, hr]

theorem Unlinks.not_free (hu : h.Unlinks p l) {d : Loc} {e : Str} :
    h.resolve p false ≠ .ok (.free d e) := by
  rw [hu.found]
  nofun

include ha in
theorem Adds.ne_of_node {q : Loc} {m : Node} (hq : h.node q = some m) : q ≠ l ++ [c] := by
  rintro rfl
  rw [ha.fresh] at hq
  cases hq

include ha in
/-- What can be removed with the new file there could be removed before, or it is that file. -/
theorem unlinks_adds (hw : (h.node l).any Node.writable) {q : Loc} : h'.Unlinks p q ↔
    h.Unlinks p q ∨ q = l ++ [c] ∧ h.resolve p false = .ok (.free l c) := by
  have hfile : ∀ t, Kind.file data ≠ .link t := nofun
  obtain ⟨m, hm, hk⟩ := ha.new
  have hmay : ∀ {q : Loc}, q ≠ [] → h'.node q ≠ none → h'.mayRemove q = h.mayRemove q := by
    intro q h0 hq
    obtain ⟨q, e, rfl⟩ := (List.eq_nil_or_concat q).resolve_left h0
    rw [List.concat_eq_append] at hq ⊢
    unfold mayRemove
    rw [List.dropLast_concat, ha.same]
    rintro rfl
    obtain ⟨x, hx⟩ := Option.ne_none_iff_exists'.1 hq
    obtain ⟨d, hd, hdk⟩ := h'.closed hx
    rw [hm] at hd
    cases hd
    rw [hk] at hdk
    cases hdk
  constructor
  · rintro ⟨hf, ⟨x, hx, hkx⟩, hr⟩
    rcases resolve_of_adds ha hf with h0 | ⟨hq, h0⟩
    · obtain ⟨y, hy⟩ := resolve_found_node h0
      have hsame := ha.same q (ha.ne_of_node hy)
      have hne : q ≠ [] := by
        rintro rfl
        obtain ⟨r, hr, hrk⟩ := h'.rooted
        rw [hx] at hr
        cases hr
        exact hkx hrk
      refine .inl ⟨h0, ⟨x, hsame ▸ hx, hkx⟩, ?_⟩
      rwa [hmay hne (by simp [hx])] at hr
    · exact .inr ⟨by simpa using hq, h0⟩
  · rintro (⟨hf, ⟨x, hx, hkx⟩, hr⟩ | ⟨rfl, hf⟩)
    · have hle := (ha.grows hfile).le
      refine ⟨resolve_mono hle hf, ⟨x, hle q x hx, hkx⟩, ?_⟩
      obtain ⟨d, hd, hdw⟩ := Option.any_eq_true _ _ |>.1 hr
      exact Option.any_eq_true _ _ |>.2 ⟨d, hle _ d hd, hdw⟩
    · exact unlinks_made (ha.grows hfile) hf hm (by simp [hk]) (by rwa [ha.same l (by simp)])

include ha in
/-- Unlinks take the new file back exactly if one of them names it and no other finds anything. -/
theorem unlinkAll_adds (hw : (h.node l).any Node.writable) : (h'.unlinkAll ps).node = h.node ↔
    (∀ p ∈ ps, (h.unlink p).isOk = false) ∧ ∃ p ∈ ps, h.resolve p false = .ok (.free l c) := by
  obtain ⟨m, hm, -⟩ := ha.new
  induction ps with
  | nil =>
    refine iff_of_false (fun hs => ?_) (by simp)
    have hl : h'.node (l ++ [c]) = h.node (l ++ [c]) := congrFun hs _
    rw [hm, ha.fresh] at hl
    cases hl
  | cons p ps ih =>
    rw [unlinkAll_cons, List.forall_mem_cons, List.exists_mem_cons_iff]
    rcases h'.orSame_unlink p with ⟨hf, he⟩ | ⟨q, hu, hnode⟩
    · have hnone : ∀ q, ¬h'.Unlinks p q := fun q hq => by simpa [hf] using unlink_isOk.2 ⟨q, hq⟩
      have h1 : (h.unlink p).isOk = false := by
        rw [Bool.eq_false_iff]
        intro hok
        obtain ⟨q, hq⟩ := unlink_isOk.1 hok
        exact hnone q ((unlinks_adds ha hw).2 (.inl hq))
      have h2 : h.resolve p false ≠ .ok (.free l c) := fun hr =>
        hnone _ ((unlinks_adds ha hw).2 (.inr ⟨rfl, hr⟩))
      rw [he, ih, and_iff_right h1, or_iff_right h2]
    · rcases (unlinks_adds ha hw).1 hu with hq | ⟨rfl, hr⟩
      · refine iff_of_false (fun hs => ?_) fun hall => ?_
        · obtain ⟨x, hx, -⟩ := hq.plain
          rw [← hs, unlinkAll_none (by rw [hnode, if_pos rfl])] at hx
          cases hx
        · simpa [hall.1.1] using unlink_isOk.2 ⟨q, hq⟩
      · have hback : (h'.orSame (h'.unlink p)).node = h.node := by
          funext q
          rw [hnode]
          split_ifs with hq
          · rw [hq, ha.fresh]
          · exact ha.same q hq
        have h1 : (h.unlink p).isOk = false := by
          rw [Bool.eq_false_iff]
          intro hok
          obtain ⟨q, hq⟩ := unlink_isOk.1 hok
          exact hq.not_free hr
        rw [unlinkAll_congr hback, unlinkAll_same, and_iff_right h1, and_iff_left (.inl hr)]

include ha in
/-- Other entries can be made as before. -/
theorem create_adds_iff {mode : Nat} {k : Kind} :
    (∃ d e, h'.resolve s false = .ok (.free d e) ∧ (h'.create d e mode k).isOk) ↔
      (∃ d e, h.resolve s false = .ok (.free d e) ∧ (h.create d e mode k).isOk) ∧
        h.resolve s false ≠ .ok (.free l c) := by
  have hfile : ∀ t, Kind.file data ≠ .link t := nofun
  obtain ⟨m, hm, hk⟩ := ha.new
  constructor
  · rintro ⟨d, e, hf, hok⟩
    obtain ⟨h1, h2, h3, h4, h5⟩ := create_isOk.1 hok
    have hd : d ≠ l ++ [c] := by
      rintro rfl
      simp [hm, Node.isDir, hk] at h2
    have hne : d ++ [e] ≠ l ++ [c] := by
      intro he
      rw [he, hm] at h4
      cases h4
    rw [ha.same d hd] at h2 h5
    rw [ha.same _ hne] at h4
    have h0 := (resolve_of_adds ha hf).resolve_right nofun
    refine ⟨⟨d, e, h0, create_isOk.2 ⟨h1, h2, h3, h4, h5⟩⟩, fun hr => hne ?_⟩
    rw [h0] at hr
    cases hr
    rfl
  · rintro ⟨⟨d, e, hf, hok⟩, hne⟩
    obtain ⟨h1, h2, h3, h4, h5⟩ := create_isOk.1 hok
    have hne : d ++ [e] ≠ l ++ [c] := by
      intro he
      obtain ⟨rfl, he⟩ := List.append_inj' he rfl
      obtain rfl : e = c := by simpa using he
      exact hne hf
    have hd : d ≠ l ++ [c] := by
      rintro rfl
      simp [ha.fresh] at h2
    rw [← ha.same d hd] at h2 h5
    rw [← ha.same _ hne] at h4
    refine ⟨d, e, ?_, create_isOk.2 ⟨h1, h2, h3, h4, h5⟩⟩
    obtain ⟨p', hp', hloc⟩ := resolve_grows (ha.grows hfile) hf
    rcases p' with q | ⟨d', e'⟩
    · obtain ⟨x, hx⟩ := resolve_found_node hp'
      obtain rfl : q = d ++ [e] := by simpa using hloc
      rw [h4] at hx
      cases hx
    · obtain ⟨rfl, he⟩ := List.append_inj' hloc rfl
      obtain rfl : e' = e := by simpa using he
      exact hp'

end Adds

/-- `link` gives a file one more name. -/
theorem link_ok {la : Loc} (ha : h.resolve a false = .ok (.found la)) (hr : h.link a b = .ok h') :
    ∃ n l c, h.node la = some n ∧ n.isDir = false ∧ h.resolve b false = .ok (.free l c) ∧
      h.isDirAt l ∧ h.node (l ++ [c]) = none ∧ (h.node l).any Node.writable ∧
      ∀ q, h'.node q = if q = l ++ [c] then some n else h.node q := by
  unfold link at hr
  rw [ha] at hr
  dsimp only [linkTo] at hr
  split at hr
  · cases hr
  · rename_i n hn
    by_cases hd : n.isDir
    · rw [if_pos hd] at hr
      cases hr
    rw [if_neg hd] at hr
    split at hr
    · cases hr
    · cases hr
    · rename_i l c hf
      split_ifs at hr with hdir hc hfree hwr
      cases hr
      exact ⟨n, l, c, hn, by simpa using hd, hf, hdir, hfree, hwr, fun q => rfl⟩

theorem createExcl_ok (hr : h.createExcl a mode = .ok h') :
    ∃ l c, h.resolve a false = .ok (.free l c) ∧ (h.node l).any Node.writable ∧
      h.Adds h' (l ++ [c]) (.file []) := by
  unfold createExcl at hr
  split at hr
  · cases hr
  · cases hr
  · rename_i l c hf
    unfold create at hr
    rw [dif_neg nofun] at hr
    split_ifs at hr with hd hc hn hw
    cases hr
    exact ⟨l, c, hf, hw, hn, ⟨_, by rw [add_node, if_pos rfl], rfl⟩,
      fun q hq => by rw [add_node, if_neg hq]⟩

/-- A new file can be linked to any other name that is free. -/
theorem link_made_isOk (hr : h.createExcl a mode = .ok h₁) : (h₁.link a b).isOk ↔
    (h.createWith b 0 []).isOk ∧ h.resolve b false ≠ h.resolve a false := by
  obtain ⟨l, c, hf, -, hadd⟩ := createExcl_ok hr
  obtain ⟨m, hm, hk⟩ := hadd.new
  have hfound : h₁.resolve a false = .ok (.found (l ++ [c])) := resolve_adds hadd nofun hf
  unfold link
  rw [hfound]
  dsimp only
  rw [linkTo_isOk, hm, createWith_isOk, createWith_isOk, create_adds_iff hadd, hf]
  exact and_iff_right (by simp [Node.isDir, hk])

/-- A new file that is removed again leaves the tree as it was, before `b` is removed. -/
theorem unlinkAll_made (hr : h.createExcl a mode = .ok h₁) :
    ∃ h₂ : Host, h₂.node = h.node ∧ h₁.unlinkAll [a, b] = h₂.unlinkAll [b] := by
  obtain ⟨l, c, hf, hwr, hadd⟩ := createExcl_ok hr
  obtain ⟨m, hm, hk⟩ := hadd.new
  have hl : h₁.node l = h.node l := hadd.same l (by simp)
  have hu := unlinks_made (hadd.grows nofun) hf hm (by simp [hk]) (by rw [hl]; exact hwr)
  obtain ⟨h₂, hr2, hn2⟩ := hu.run
  refine ⟨h₂, ?_, ?_⟩
  · funext q
    rw [hn2]
    split_ifs with hq
    · rw [hq, hadd.fresh]
    · exact hadd.same q hq
  · rw [unlinkAll_cons, hr2]
    rfl

/-- One that was linked to `b` in between leaves it as it was. -/
theorem unlinkAll_linked (hr : h.createExcl a mode = .ok h₁) (hl : h₁.link a b = .ok h') :
    (h'.unlinkAll [a, b]).node = h.node := by
  obtain ⟨l, c, hf, hwr, hadd⟩ := createExcl_ok hr
  have hfile : ∀ t : Str, Kind.file [] ≠ .link t := nofun
  have ha : h₁.resolve a false = .ok (.found (l ++ [c])) := resolve_adds hadd hfile hf
  obtain ⟨n, l', c', hn, hnd, hb, hdir', hfree', hwr', hnode⟩ := link_ok ha hl
  obtain ⟨m, hm, hk⟩ := hadd.new
  obtain rfl : m = n := Option.some.inj (hm.symm.trans hn)
  have hne : l ++ [c] ≠ l' ++ [c'] := by
    intro he
    rw [he, hfree'] at hn
    cases hn
  have hmk : m.kind ≠ .dir := by simp [hk]
  -- both names are there, and both directories take entries out
  have hla : h'.node (l ++ [c]) = some m := by rw [hnode, if_neg hne, hn]
  have hg : h.Grows h' := by
    refine (hadd.grows hfile).trans (Adds.grows ⟨hfree', ⟨m, ?_, hk⟩, fun q hq => ?_⟩ hfile)
    · rw [hnode, if_pos rfl]
    · rw [hnode, if_neg hq]
  have hdir : ∀ p : Loc, (h.node p).any Node.writable → (h'.node p).any Node.writable := by
    intro p hp
    obtain ⟨x, hx, hxw⟩ := Option.any_eq_true _ _ |>.1 hp
    rw [hg.le p x hx]
    exact hxw
  obtain ⟨h₂, hr2, hn2⟩ := (unlinks_made hg hf hla hmk (hdir l hwr)).run
  have hl' : l' ≠ l ++ [c] := by
    rintro rfl
    obtain ⟨x, hx, hxd⟩ := isDirAt_iff.1 hdir'
    obtain rfl : m = x := Option.some.inj (hn.symm.trans hx)
    exact hmk hxd
  have hadd2 : h.Adds h₂ (l' ++ [c']) (.file []) := by
    refine ⟨?_, ⟨m, ?_, hk⟩, fun q hq => ?_⟩
    · rw [← hadd.same _ hne.symm, hfree']
    · rw [hn2, if_neg hne.symm, hnode, if_pos rfl]
    · rw [hn2]
      split_ifs with hqa
      · rw [hqa, hadd.fresh]
      · rw [hnode, if_neg hq, hadd.same q hqa]
  have hwr2 : (h₂.node l').any Node.writable := by
    rw [hadd2.same l' (by simp), ← hadd.same l' hl']
    exact hwr'
  have hu :=
    unlinks_made (hadd2.grows hfile) ((resolve_of_adds hadd hb).resolve_right nofun)
    (hadd2.new.choose_spec.1)
    (by simp [hadd2.new.choose_spec.2]) hwr2
  obtain ⟨h₃, hr3, hn3⟩ := hu.run
  rw [unlinkAll_cons, hr2]
  change (h₂.orSame (h₂.unlink b)).node = h.node
  rw [hr3]
  change h₃.node = h.node
  funext q
  rw [hn3]
  split_ifs with hq
  · rw [hq, hadd2.fresh]
  · exact hadd2.same q hq

/-- The directory of a path that leads somewhere is there. -/
theorem resolve_dir {c : Str} {p : Place} (hc : IsName c) (hs : s ≠ [])
    (hr : h.resolve (s ++ '/' :: c) false = .ok p) :
    ∃ mid, h.resolve s true = .ok (.found mid) := by
  have hlast : (s ++ '/' :: c).getLast? ≠ some '/' := by
    rw [List.getLast?_append_of_ne_nil _ (List.cons_ne_nil _ _), List.getLast?_cons_of_ne_nil hc.1]
    exact fun hl => hc.2.1 (List.mem_of_getLast? hl)
  unfold resolve resolveAt at hr ⊢
  rw [if_neg hs]
  split_ifs at hr with h1 h2
  rw [List.length_append] at h2
  rw [if_neg (by omega)]
  rw [steps, comps_append_noSlash s hc.2.1 hc.1, if_neg fun h => hlast h.1, List.append_nil] at hr
  obtain ⟨mid, k, -, hmid, hw⟩ := walk_append (List.cons_ne_nil _ _) hr
  have hdir : h.Searchable mid := by
    cases walk_eq_ok.1 hw with
    | into hl => exact searchable_of_look hl
    | free hl => exact searchable_of_look hl
    | last hl => exact searchable_of_look hl
    | follow hl => exact searchable_of_look hl
  refine ⟨mid, ?_⟩
  have hstart : startOf [] s = startOf [] (s ++ '/' :: c) := by simp [startOf]
  rw [← hstart] at hmid
  unfold steps
  split_ifs
  · obtain ⟨k, hk⟩ := walk_append_eq hmid
    obtain ⟨x, hx, hxd, hxs⟩ := hdir
    rw [hk true [dot] (by simp), walk_cons]
    simp [look, hx, hxd, hxs]
  · rwa [List.append_nil]

end Host

end Posix

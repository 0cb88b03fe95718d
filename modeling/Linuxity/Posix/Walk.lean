import Linuxity.Posix.Host

/-!
# Posix.Walk — path resolution

`Host.walk` is the kernel's walk: every intermediate link is followed, the final one when
`follow` is set, a relative link from the directory that holds it and an absolute one from the
root, with at most 40 links altogether.  There is no chroot: the root is the host's own.
-/

namespace Posix

open List

/-- Where a walk ends: at an entry, or at a name its directory does not have. -/
inductive Place where
  | found (l : Loc)
  | free (dir : Loc) (c : Str)
  deriving DecidableEq

/-- The place an operation on the path acts at, whether or not it is occupied. -/
def Place.loc : Place → Loc
  | .found l => l
  | .free dir c => dir ++ [c]

@[simp] theorem Place.loc_found (l : Loc) : (Place.found l).loc = l := rfl

@[simp] theorem Place.loc_free (l : Loc) (c : Str) : (Place.free l c).loc = l ++ [c] := rfl

/-- The components to walk; a trailing slash asks for a directory, as a final `.` does. -/
def steps (p : Str) : List Str :=
  comps p ++ if p.getLast? = some '/' ∧ comps p ≠ [] then [dot] else []

inductive Look where
  | into (l : Loc)
  | link (target : Str)
  | missing
  deriving DecidableEq

def startOf (cur : Loc) (t : Str) : Loc := if isAbs t then [] else cur

def maxLinks : Nat := 40

def pathMax : Nat := 4096

namespace Host

def look (h : Host) (cur : Loc) (c : Str) : Except Errno Look :=
  match h.node cur with
  | none => .error .enoent
  | some d =>
    if d.isDir = false then .error .enotdir
    else if d.searchable = false then .error .eacces
    else if c = dot then .ok (.into cur)
    else if c = dotdot then .ok (.into cur.dropLast)
    else match h.node (cur ++ [c]) with
      | none => .ok .missing
      | some n =>
        match n.kind with
        | .link t => .ok (.link t)
        | _ => .ok (.into (cur ++ [c]))

/-- A walk that hands every link it must follow to `onLink`. -/
def walkWith (h : Host) (follow : Bool) (onLink : Loc → Str → List Str → Except Errno Place) :
    Loc → List Str → Except Errno Place
  | cur, [] => .ok (.found cur)
  | cur, c :: cs =>
    match h.look cur c with
    | .error e => .error e
    | .ok (.into l) => walkWith h follow onLink l cs
    | .ok .missing => if cs = [] then .ok (.free cur c) else .error .enoent
    | .ok (.link t) =>
      if cs = [] ∧ follow = false then .ok (.found (cur ++ [c])) else onLink cur t cs

def walk (h : Host) (follow : Bool) : Nat → Loc → List Str → Except Errno Place
  | 0 => h.walkWith follow fun _ _ _ => .error .eloop
  | n + 1 => h.walkWith follow fun cur t cs =>
      if t = [] then .error .enoent
      else h.walk follow n (startOf cur t) (steps t ++ cs)

/-- The continuation of `walk` at a link with text `t`. -/
def jump (h : Host) (follow : Bool) (n : Nat) (cur : Loc) (t : Str) (cs : List Str) :
    Except Errno Place :=
  match n with
  | 0 => .error .eloop
  | n + 1 =>
    if t = [] then .error .enoent
    else h.walk follow n (startOf cur t) (steps t ++ cs)

/-- Resolve a path from the directory `start` (the root for an absolute one). -/
def resolveAt (h : Host) (start : Loc) (p : Str) (follow : Bool) : Except Errno Place :=
  if p = [] then .error .enoent
  else if pathMax ≤ p.length then .error .enametoolong
  else h.walk follow maxLinks (startOf start p) (steps p)

def resolve (h : Host) (p : Str) (follow : Bool) : Except Errno Place := h.resolveAt [] p follow

variable {h h' : Host} {f : Bool} {n : Nat} {cur : Loc}

def Searchable (h : Host) (l : Loc) : Prop := ∃ d, h.node l = some d ∧ d.isDir ∧ d.searchable

variable {c e : Str} {cs : List Str} {p : Place} {d l : Loc}

theorem searchable_of_look {k : Look} (hl : h.look cur c = .ok k) : h.Searchable cur := by
  unfold look at hl
  cases hd : h.node cur with
  | none => simp [hd] at hl
  | some d =>
    rw [hd] at hl
    by_cases h1 : d.isDir
    · by_cases h2 : d.searchable
      · exact ⟨d, hd, h1, h2⟩
      · simp [h1, h2] at hl
    · simp [h1] at hl

theorem look_of_name (hs : h.Searchable cur) (h1 : c ≠ dot) (h2 : c ≠ dotdot) : h.look cur c =
      match h.node (cur ++ [c]) with
      | none => .ok .missing
      | some n => match n.kind with | .link t => .ok (.link t) | _ => .ok (.into (cur ++ [c])) := by
  obtain ⟨d, hd, hdir, hx⟩ := hs
  simp [look, hd, hdir, hx, h1, h2]

/-- What a component that can be looked up names. -/
inductive Looks (h : Host) (cur : Loc) (c : Str) : Look → Prop
  | here (hc : c = dot) : Looks h cur c (.into cur)
  | up (hc : c = dotdot) : Looks h cur c (.into cur.dropLast)
  | missing (h1 : c ≠ dot) (h2 : c ≠ dotdot) (hn : h.node (cur ++ [c]) = none) :
      Looks h cur c .missing
  | link {m : Node} {t : Str} (hn : h.node (cur ++ [c]) = some m) (hk : m.kind = .link t) :
      Looks h cur c (.link t)
  | entry {m : Node} (hn : h.node (cur ++ [c]) = some m) (hk : m.isLink = false) :
      Looks h cur c (.into (cur ++ [c]))

theorem looks_of_look {k : Look} (hl : h.look cur c = .ok k) : h.Looks cur c k := by
  obtain ⟨d, hd, hdir, hx⟩ := searchable_of_look hl
  by_cases h1 : c = dot
  · obtain rfl : .into cur = k := by simpa [look, hd, hdir, hx, h1] using hl
    exact .here h1
  by_cases h2 : c = dotdot
  · obtain rfl : .into cur.dropLast = k := by simpa [look, hd, hdir, hx, h2, dot, dotdot] using hl
    exact .up h2
  rw [look_of_name ⟨d, hd, hdir, hx⟩ h1 h2] at hl
  rcases hn : h.node (cur ++ [c]) with _ | m
  · obtain rfl : .missing = k := by simpa [hn] using hl
    exact .missing h1 h2 hn
  rw [hn] at hl
  rcases hk : m.kind with _ | _ | t | _ <;> simp only [hk] at hl <;> cases hl
  · exact .entry hn (by simp [Node.isLink, hk])
  · exact .entry hn (by simp [Node.isLink, hk])
  · exact .link hn hk
  · exact .entry hn (by simp [Node.isLink, hk])

theorem look_missing (hl : h.look cur c = .ok .missing) :
    h.Searchable cur ∧ c ≠ dot ∧ c ≠ dotdot ∧ h.node (cur ++ [c]) = none := by
  cases looks_of_look hl with
  | missing h1 h2 hn => exact ⟨searchable_of_look hl, h1, h2, hn⟩

theorem look_link {t : Str} (hl : h.look cur c = .ok (.link t)) :
    ∃ m, h.node (cur ++ [c]) = some m ∧ m.isLink := by
  cases looks_of_look hl with
  | link hn hk => exact ⟨_, hn, by simp [Node.isLink, hk]⟩

theorem look_into_name (hc : IsName c) (hl : h.look cur c = .ok (.into l)) : l = cur ++ [c] := by
  cases looks_of_look hl with
  | here hd => exact absurd hd hc.2.2.1
  | up hd => exact absurd hd hc.2.2.2
  | entry => rfl

theorem node_dropLast (hl : h.node l ≠ none) : h.node l.dropLast ≠ none := by
  obtain rfl | ⟨d, c, rfl⟩ := eq_nil_or_concat l
  · exact hl
  · rw [concat_eq_append] at hl ⊢
    obtain ⟨n, hn⟩ := Option.ne_none_iff_exists'.mp hl
    obtain ⟨d', hd', _⟩ := h.closed hn
    simp [hd']

theorem look_into_node (hl : h.look cur c = .ok (.into l)) : h.node l ≠ none := by
  obtain ⟨d, hd, -⟩ := searchable_of_look hl
  cases looks_of_look hl with
  | here => simp [hd]
  | up => exact node_dropLast (by simp [hd])
  | entry hn => simp [hn]

@[simp] theorem walk_nil : h.walk f n cur [] = .ok (.found cur) := by
  cases n <;> rfl

theorem walk_cons (c : Str) (cs : List Str) :
    h.walk f n cur (c :: cs) =
      match h.look cur c with
      | .error e => .error e
      | .ok (.into l) => h.walk f n l cs
      | .ok .missing => if cs = [] then .ok (.free cur c) else .error .enoent
      | .ok (.link t) =>
        if cs = [] ∧ f = false then .ok (.found (cur ++ [c])) else h.jump f n cur t cs := by
  cases n <;> rfl

/-- Induction along a walk: a component moves to the place it names, or a link puts its own
components in front. -/
theorem walk_induction {P : Nat → Loc → List Str → Prop} (h : Host)
    (nil : ∀ n cur, P n cur [])
    (cons : ∀ n cur c cs, (∀ l, h.look cur c = .ok (.into l) → P n l cs) →
      (∀ m t, n = m + 1 → h.look cur c = .ok (.link t) → P m (startOf cur t) (steps t ++ cs)) →
      P n cur (c :: cs))
    (n : Nat) (cur : Loc) (cs : List Str) : P n cur cs := by
  induction n generalizing cur cs with
  | zero =>
    induction cs generalizing cur with
    | nil => exact nil 0 cur
    | cons c cs ih => exact cons 0 cur c cs (fun l _ => ih l) (fun m t hm => by cases hm)
  | succ n ihn =>
    induction cs generalizing cur with
    | nil => exact nil (n + 1) cur
    | cons c cs ih =>
      refine cons (n + 1) cur c cs (fun l _ => ih l) (fun m t hm _ => ?_)
      cases hm
      exact ihn (startOf cur t) (steps t ++ cs)

/-- The ways in which a walk ends at `p`. -/
inductive Walks (h : Host) (f : Bool) (p : Place) : Nat → Loc → List Str → Prop
  | done {n : Nat} {cur : Loc} (hp : .found cur = p) : Walks h f p n cur []
  | into {n : Nat} {cur l : Loc} {c : Str} {cs : List Str} (hl : h.look cur c = .ok (.into l))
      (hw : Walks h f p n l cs) : Walks h f p n cur (c :: cs)
  | free {n : Nat} {cur : Loc} {c : Str} (hl : h.look cur c = .ok .missing) (hp : .free cur c = p) :
      Walks h f p n cur [c]
  | last {n : Nat} {cur : Loc} {c t : Str} (hl : h.look cur c = .ok (.link t)) (hf : f = false)
      (hp : .found (cur ++ [c]) = p) : Walks h f p n cur [c]
  | follow {n : Nat} {cur : Loc} {c t : Str} {cs : List Str} (hl : h.look cur c = .ok (.link t))
      (hgo : ¬(cs = [] ∧ f = false)) (ht : t ≠ [])
      (hw : Walks h f p n (startOf cur t) (steps t ++ cs)) : Walks h f p (n + 1) cur (c :: cs)

theorem walk_eq_ok : h.walk f n cur cs = .ok p ↔ h.Walks f p n cur cs := by
  constructor
  · intro hw
    induction n, cur, cs using walk_induction h with
    | nil n cur => exact .done (by simpa using hw)
    | cons n cur c cs ihinto ihlink =>
      rw [walk_cons] at hw
      rcases hl : h.look cur c with e | (l | t | _) <;> rw [hl] at hw <;> dsimp only at hw
      · cases hw
      · exact .into hl (ihinto l hl hw)
      · split_ifs at hw with hcs
        · obtain ⟨rfl, hf⟩ := hcs
          exact .last hl hf (Except.ok.inj hw)
        rcases n with _ | n
        · cases hw
        by_cases ht : t = []
        · simp [jump, ht] at hw
        simp only [jump, ht, if_false] at hw
        exact .follow hl hcs ht (ihlink n t rfl hl hw)
      · split_ifs at hw with hcs
        subst hcs
        exact .free hl (Except.ok.inj hw)
  · intro hw
    induction hw with
    | done hp => rw [walk_nil, hp]
    | into hl _ ih =>
      rw [walk_cons, hl]
      exact ih
    | free hl hp => simp [walk_cons, hl, hp]
    | last hl hf hp => simp [walk_cons, hl, hf, hp]
    | follow hl hgo ht _ ih =>
      rw [walk_cons, hl]
      simp only [hgo, jump, ht, if_false]
      exact ih

/-! ## Splitting a walk -/

/-- A walk that succeeds first reaches what its leading components name. -/
theorem walk_append {ds : List Str} (hds : ds ≠ []) (hw : h.walk f n cur (cs ++ ds) = .ok p) :
    ∃ mid k, k ≤ n ∧ h.walk true n cur cs = .ok (.found mid) ∧ h.walk f k mid ds = .ok p := by
  induction n, cur, cs using walk_induction h with
  | nil n cur => exact ⟨cur, n, le_rfl, by simp, by simpa using hw⟩
  | cons n cur c cs ihinto ihlink =>
    rw [cons_append, walk_cons] at hw
    rw [walk_cons]
    cases hl : h.look cur c with
    | error e => simp [hl] at hw
    | ok k =>
      rw [hl] at hw
      cases k with
      | into l => exact ihinto l hl hw
      | missing => simp [hds] at hw
      | link t =>
        simp only [append_eq_nil_iff, hds, and_false, false_and, if_false] at hw
        cases n with
        | zero => cases hw
        | succ n =>
          by_cases ht : t = []
          · simp [jump, ht] at hw
          simp only [jump, ht, if_false] at hw
          rw [← append_assoc] at hw
          obtain ⟨mid, k, hk, h1, h2⟩ := ihlink n t rfl hl hw
          exact ⟨mid, k, by omega, by simpa [jump, ht] using h1, h2⟩

/-- A walk whose leading components name an entry goes on from there. -/
theorem walk_append_eq {mid : Loc} (hw : h.walk true n cur cs = .ok (.found mid)) :
    ∃ k, ∀ f ds, ds ≠ [] → h.walk f n cur (cs ++ ds) = h.walk f k mid ds := by
  rw [walk_eq_ok] at hw
  induction hw with
  | @done n cur hp =>
    cases hp
    exact ⟨n, fun f ds _ => rfl⟩
  | into hl _ ih =>
    obtain ⟨k, hk⟩ := ih
    exact ⟨k, fun f ds hds => by rw [← hk f ds hds, cons_append, walk_cons, hl]⟩
  | free _ hp => cases hp
  | last _ hf => cases hf
  | follow hl _ ht _ ih =>
    obtain ⟨k, hk⟩ := ih
    refine ⟨k, fun f ds hds => ?_⟩
    rw [← hk f ds hds, cons_append, walk_cons, hl]
    simp [hds, jump, ht]

theorem look_ne_eloop (c : Str) : h.look cur c ≠ .error .eloop := by
  unfold look
  cases h.node cur with
  | none => simp
  | some d =>
    simp only
    split_ifs
    · simp
    · simp
    · simp
    · simp
    · split
      · simp
      · split <;> simp

/-- Only a link on the way can make a walk run out of links. -/
theorem walk_ne_eloop {ds : List Str}
    (hnl : ∀ as bs, ds = as ++ bs → bs ≠ [] → ∀ l m, h.walk false n cur as = .ok (.found l) →
      h.node l = some m → m.isLink = false) :
    h.walk false n cur ds ≠ .error .eloop := by
  induction ds generalizing cur with
  | nil => simp
  | cons c cs ih =>
    rw [walk_cons]
    cases hl : h.look cur c with
    | error e =>
      intro he
      simp only [Except.error.injEq] at he
      exact look_ne_eloop c (he ▸ hl)
    | ok j =>
      cases j with
      | missing => simp only; split_ifs <;> simp
      | into l =>
        refine ih fun as bs hds hbs l' m hw hm => hnl (c :: as) bs (by rw [hds]; rfl) hbs l' m ?_ hm
        simpa [walk_cons, hl] using hw
      | link t =>
        by_cases hcs : cs = []
        · simp [hcs]
        · obtain ⟨m, hm, hlink⟩ := look_link hl
          have := hnl [c] cs rfl hcs (cur ++ [c]) m (by simp [walk_cons, hl]) hm
          simp [hlink] at this

/-- The directory a missing final name was looked up in. -/
theorem walk_false_snoc_free (hw : h.walk false n cur (cs ++ [c]) = .ok (.free d e)) :
    h.walk true n cur cs = .ok (.found d) ∧ e = c ∧ h.look d c = .ok .missing := by
  obtain ⟨mid, k, _, h1, h2⟩ := walk_append (by simp) hw
  cases walk_eq_ok.1 h2 with
  | into _ hw => cases hw; contradiction
  | free hl hp =>
    cases hp
    exact ⟨h1, rfl, hl⟩
  | last _ _ hp => cases hp
  | follow _ hgo => simp at hgo

/-! ## Growing the tree -/

theorem look_mono (hle : h.Le h') {k : Look} (hk : k ≠ .missing)
    (hl : h.look cur c = .ok k) : h'.look cur c = .ok k := by
  unfold look at hl ⊢
  cases hd : h.node cur with
  | none => simp [hd] at hl
  | some d =>
    rw [hle _ _ hd]
    rw [hd] at hl
    simp only at hl ⊢
    split_ifs at hl ⊢
    · exact hl
    · exact hl
    · cases hn : h.node (cur ++ [c]) with
      | none => simp [hn] at hl; exact absurd hl.symm hk
      | some n => rw [hle _ _ hn]; rw [hn] at hl; exact hl

theorem walk_mono (hle : h.Le h') (hw : h.walk f n cur cs = .ok (.found l)) :
    h'.walk f n cur cs = .ok (.found l) := by
  rw [walk_eq_ok] at hw ⊢
  induction hw with
  | done hp => exact .done hp
  | into hl _ ih => exact .into (look_mono hle nofun hl) ih
  | free _ hp => cases hp
  | last hl hf hp => exact .last (look_mono hle nofun hl) hf hp
  | follow hl hgo ht _ ih => exact .follow (look_mono hle nofun hl) hgo ht ih

/-- A place that is not a link is reached with following as without. -/
theorem walk_true_of (hw : h.walk false n cur cs = .ok p)
    (hl : ∀ l m, p = .found l → h.node l = some m → m.isLink = false) :
    h.walk true n cur cs = .ok p := by
  rw [walk_eq_ok] at hw ⊢
  induction hw with
  | done hp => exact .done hp
  | into hk _ ih => exact .into hk ih
  | free hk hp => exact .free hk hp
  | last hk _ hp =>
    obtain ⟨m, hm, hlink⟩ := look_link hk
    exact absurd hlink (by simp [hl _ m hp.symm hm])
  | follow hk _ ht _ ih => exact .follow hk (by simp) ht ih

theorem walk_true_of_found (hw : h.walk false n cur cs = .ok (.found l))
    (hl : ∀ m, h.node l = some m → m.isLink = false) : h.walk true n cur cs = .ok (.found l) :=
  walk_true_of hw fun _ m hp hm => hl m (by cases hp; exact hm)

/-- Following matters only where the walk that does not follow ends at a link. -/
theorem walk_true_cases (hw : h.walk true n cur cs = .ok p) : h.walk false n cur cs = .ok p ∨
      ∃ l m, h.walk false n cur cs = .ok (.found l) ∧ h.node l = some m ∧ m.isLink := by
  simp only [walk_eq_ok] at hw ⊢
  induction hw with
  | done hp => exact .inl (.done hp)
  | into hl _ ih => exact ih.imp (.into hl) fun ⟨l, m, hw, hm⟩ => ⟨l, m, .into hl hw, hm⟩
  | free hl hp => exact .inl (.free hl hp)
  | last _ hf => cases hf
  | @follow n cur c t cs hl _ ht _ ih =>
    by_cases hcs : cs = []
    · obtain ⟨m, hm⟩ := look_link hl
      subst hcs
      exact .inr ⟨cur ++ [c], m, .last hl rfl rfl, hm⟩
    · have hgo : ¬(cs = [] ∧ false = false) := fun h => hcs h.1
      exact ih.imp (.follow hl hgo ht) fun ⟨l, m, hw, hm⟩ => ⟨l, m, .follow hl hgo ht hw, hm⟩

theorem walk_free_node (hw : h.walk f n cur cs = .ok (.free d e)) : h.node (d ++ [e]) = none := by
  rw [walk_eq_ok] at hw
  induction hw with
  | done hp => cases hp
  | into _ _ ih => exact ih
  | free hl hp =>
    cases hp
    exact (look_missing hl).2.2.2
  | last _ _ hp => cases hp
  | follow _ _ _ _ ih => exact ih

theorem walk_found_node (hcur : h.node cur ≠ none) (hw : h.walk f n cur cs = .ok (.found l)) :
    h.node l ≠ none := by
  rw [walk_eq_ok] at hw
  induction hw with
  | done hp =>
    cases hp
    exact hcur
  | into hl _ ih => exact ih (look_into_node hl)
  | free _ hp => cases hp
  | last hl _ hp =>
    cases hp
    obtain ⟨m, hm, _⟩ := look_link hl
    simp [hm]
  | follow _ _ _ _ ih =>
    refine ih ?_
    unfold startOf
    split_ifs
    · obtain ⟨r, hr, _⟩ := h.rooted
      simp [hr]
    · exact hcur

/-! ## Resolving a path -/

section Resolve

variable {s : Str} {p : Place} {d : Loc} {e : Str} {l : Loc}

theorem resolve_eq_walk (hr : h.resolve s f = .ok p) :
    ∀ g, h.resolve s g = h.walk g maxLinks (startOf [] s) (steps s) := by
  intro g
  unfold resolve resolveAt at hr ⊢
  split_ifs at hr ⊢
  rfl

theorem resolve_true_of_free (hr : h.resolve s false = .ok (.free d e)) :
    h.resolve s true = .ok (.free d e) := by
  rw [resolve_eq_walk hr true]
  rw [resolve_eq_walk hr false] at hr
  exact walk_true_of hr nofun

theorem resolve_true_of_found (hr : h.resolve s false = .ok (.found l))
    (hl : ∀ m, h.node l = some m → m.isLink = false) : h.resolve s true = .ok (.found l) := by
  rw [resolve_eq_walk hr true]
  rw [resolve_eq_walk hr false] at hr
  exact walk_true_of_found hr hl

theorem resolve_true_cases (hr : h.resolve s true = .ok p) : h.resolve s false = .ok p ∨
    ∃ l m, h.resolve s false = .ok (.found l) ∧ h.node l = some m ∧ m.isLink := by
  rw [resolve_eq_walk hr false]
  rw [resolve_eq_walk hr true] at hr
  exact walk_true_cases hr

theorem resolve_found_node (hr : h.resolve s f = .ok (.found l)) : ∃ m, h.node l = some m := by
  rw [resolve_eq_walk hr] at hr
  have hroot : h.node (startOf [] s) ≠ none := by
    obtain ⟨r, hr, _⟩ := h.rooted
    simp [startOf, hr]
  exact Option.ne_none_iff_exists'.mp (walk_found_node hroot hr)

end Resolve

/-! ## Normal paths -/

theorem steps_absPath (hcs : ∀ c ∈ cs, IsName c) : steps (absPath cs) = cs := by
  unfold steps
  rw [comps_absPath hcs, if_neg]
  · simp
  · rintro ⟨hl, hne⟩
    rw [absPath_of_ne_nil hne] at hl
    obtain ⟨ds, c, rfl⟩ := eq_nil_or_concat cs |>.resolve_left hne
    have hc := hcs c (by simp)
    rw [concat_eq_append, render_snoc, List.getLast?_append_of_ne_nil _ (by simp),
      List.getLast?_cons, Option.some.injEq] at hl
    have hcl : c.getLast? = some '/' := by
      rw [List.getLast?_eq_some_getLast hc.1] at hl ⊢
      simpa using hl
    exact hc.2.1 (mem_of_getLast? hcl)

theorem resolve_absPath (hcs : ∀ c ∈ cs, IsName c) (f : Bool) : h.resolve (absPath cs) f =
      if pathMax ≤ (absPath cs).length then .error .enametoolong else h.walk f maxLinks [] cs := by
  simp [resolve, resolveAt, absPath_ne_nil, startOf, isAbs_absPath, steps_absPath hcs]

theorem length_absPath_le {as : List Str} (h : as <+: cs) :
    (absPath as).length ≤ (absPath cs).length := by
  obtain ⟨bs, rfl⟩ := h
  cases as with
  | nil =>
    exact length_pos_of_ne_nil (absPath_ne_nil ([] ++ bs))
  | cons a as =>
    rw [absPath_of_ne_nil (by simp), absPath_of_ne_nil (by simp), render_append]
    simp

/-- The directories on the way to a place that resolves. -/
theorem resolve_parent {as bs : List Str} (hcs : ∀ c ∈ as ++ bs, IsName c) (hbs : bs ≠ [])
    (hr : h.resolve (absPath (as ++ bs)) f = .ok p) :
    ∃ mid k, h.resolve (absPath as) true = .ok (.found mid) ∧ h.walk f k mid bs = .ok p := by
  rw [resolve_absPath hcs] at hr
  split_ifs at hr with hlen
  obtain ⟨mid, k, _, h1, h2⟩ := walk_append hbs hr
  refine ⟨mid, k, ?_, h2⟩
  have := length_absPath_le (prefix_append as bs)
  rw [resolve_absPath fun c hc => hcs c (mem_append_left _ hc), if_neg (by omega), h1]

end Host

end Posix

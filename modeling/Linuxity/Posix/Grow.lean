import Linuxity.Posix.Calls
import Linuxity.Posix.Straight

/-!
# Posix.Grow — trees that gain entries but no links

Making directories and files only adds entries.  A walk that succeeds before still ends at the
same place afterwards, because no new link can divert it.
-/

namespace Posix

namespace Host

/-- `h'` is `h` with one more entry, of kind `k`, at `l`. -/
structure Adds (h h' : Host) (l : Loc) (k : Kind) : Prop where
  fresh : h.node l = none
  new : ∃ n, h'.node l = some n ∧ n.kind = k
  same : ∀ q, q ≠ l → h'.node q = h.node q

/-- `h'` has every entry of `h`, and no link that `h` has not. -/
structure Grows (h h' : Host) : Prop where
  le : h.Le h'
  noLink : ∀ l n, h'.node l = some n → n.isLink → h.node l = some n

variable {h h' h'' : Host} {f : Bool} {n : Nat} {cur : Loc}

theorem Grows.trans (h1 : h.Grows h') (h2 : h'.Grows h'') : h.Grows h'' :=
  ⟨h1.le.trans h2.le, fun l n hn hl => h1.noLink l n (h2.noLink l n hn hl) hl⟩

variable {k : Kind} {l : Loc} {c s : Str} {cs : List Str} {p : Place} {mode : Nat}

theorem Adds.grows (ha : h.Adds h' l k) (hk : ∀ t, k ≠ .link t) : h.Grows h' := by
  refine ⟨fun q n hn => ?_, fun q n hn hl => ?_⟩
  · rw [ha.same q, hn]
    rintro rfl
    rw [ha.fresh] at hn
    cases hn
  · by_cases hq : q = l
    · subst hq
      obtain ⟨n', hn', hk'⟩ := ha.new
      rw [hn] at hn'
      cases hn'
      unfold Node.isLink at hl
      split at hl
      · rename_i t ht
        exact absurd (hk'.symm.trans ht) (hk t)
      · cases hl
    · rwa [ha.same q hq] at hn

theorem look_grows (hg : h.Grows h') (hl : h.look cur c = .ok .missing) :
    h'.look cur c = .ok .missing ∨ h'.look cur c = .ok (.into (cur ++ [c])) := by
  obtain ⟨⟨d, hd, hdx⟩, h1, h2, hnone⟩ := look_missing hl
  rw [look_of_name ⟨d, hg.le _ _ hd, hdx⟩ h1 h2]
  cases hn : h'.node (cur ++ [c]) with
  | none => simp
  | some m =>
    cases hk : m.kind with
    | link t =>
      have := hg.noLink _ _ hn (by simp [Node.isLink, hk])
      rw [hnone] at this
      cases this
    | _ => simp [hk]

/-- A walk that succeeds ends at the same place in a grown tree. -/
theorem walk_grows (hg : h.Grows h') (hw : h.walk f n cur cs = .ok p) :
    ∃ p', h'.walk f n cur cs = .ok p' ∧ p'.loc = p.loc := by
  simp only [walk_eq_ok] at hw ⊢
  induction hw with
  | done hp => exact ⟨p, .done hp, rfl⟩
  | into hl _ ih =>
    obtain ⟨p', hw, hp⟩ := ih
    exact ⟨p', .into (look_mono hg.le nofun hl) hw, hp⟩
  | free hl hp =>
    cases hp
    rcases look_grows hg hl with hl' | hl'
    · exact ⟨_, .free hl' rfl, rfl⟩
    · exact ⟨_, .into hl' (.done rfl), rfl⟩
  | last hl hf hp => exact ⟨p, .last (look_mono hg.le nofun hl) hf hp, rfl⟩
  | follow hl hgo ht _ ih =>
    obtain ⟨p', hw, hp⟩ := ih
    exact ⟨p', .follow (look_mono hg.le nofun hl) hgo ht hw, hp⟩

theorem resolve_grows (hg : h.Grows h') (hw : h.resolve s f = .ok p) :
    ∃ p', h'.resolve s f = .ok p' ∧ p'.loc = p.loc := by
  unfold resolve resolveAt at hw ⊢
  split_ifs at hw ⊢
  exact walk_grows hg hw

/-- A free name whose entry has been made since is found. -/
theorem resolve_made {d : Loc} {e : Str} (hg : h.Grows h') (hw : h.resolve s f = .ok (.free d e))
    (hnew : h'.node (d ++ [e]) ≠ none) : h'.resolve s f = .ok (.found (d ++ [e])) := by
  obtain ⟨p', hp', hloc⟩ := resolve_grows hg hw
  rcases p' with l | ⟨d', e'⟩
  · rw [hp']
    simpa using hloc
  · have hnone : h'.node (d' ++ [e']) = none :=
      walk_free_node ((resolve_eq_walk hp' f).symm.trans hp')
    rw [Place.loc_free, Place.loc_free] at hloc
    rw [hloc] at hnone
    exact absurd hnone hnew

theorem resolve_adds {d : Loc} {e : Str} (ha : h.Adds h' (d ++ [e]) k) (hk : ∀ t, k ≠ .link t)
    (hw : h.resolve s f = .ok (.free d e)) : h'.resolve s f = .ok (.found (d ++ [e])) := by
  obtain ⟨m, hm, _⟩ := ha.new
  exact resolve_made (ha.grows hk) hw (by simp [hm])

/-- What is found literally in the larger tree and was there before was found before. -/
theorem walk_of_grows (hg : h.Grows h') (hcs : ∀ c ∈ cs, IsName c)
    (hw : h'.walk false n cur cs = .ok (.found (cur ++ cs))) (hold : h.node (cur ++ cs) ≠ none)
    (hs : h.Straight cur cs) : h.walk false n cur cs = .ok (.found (cur ++ cs)) := by
  induction cs generalizing cur with
  | nil => simp
  | cons c cs ih =>
    have hc := hcs c (by simp)
    have hthere : ∀ l, l <+: cur ++ c :: cs → ∃ m, h.node l = some m := by
      intro l hl
      by_contra hnone
      exact hold
        (h.node_eq_none_under hl (by simpa [Option.eq_none_iff_forall_ne_some] using hnone))
    obtain ⟨d, hd⟩ := hthere cur (List.prefix_append _ _)
    obtain ⟨m, hm⟩ := hthere (cur ++ [c]) ⟨cs, by simp⟩
    clear hthere
    -- the directory is an old one, so it is looked up alike in both trees
    have hsame : ∀ {k}, h'.look cur c = .ok k → h.look cur c = .ok k := by
      intro k hl
      obtain ⟨d', hd', hdx⟩ := searchable_of_look hl
      obtain rfl : d = d' := Option.some.inj ((hg.le _ _ hd).symm.trans hd')
      rw [← hl, look_of_name ⟨d, hd, hdx⟩ hc.2.2.1 hc.2.2.2,
        look_of_name ⟨d, hg.le _ _ hd, hdx⟩ hc.2.2.1 hc.2.2.2, hm, hg.le _ _ hm]
    rw [walk_eq_ok] at hw ⊢
    cases hw with
    | free _ hp => cases hp
    | last hl hf hp => exact .last (hsame hl) hf hp
    | follow hl hgo =>
      obtain ⟨x, hx, hlink⟩ := look_link (hsame hl)
      have := hs [c] cs rfl (by simpa using hgo) x hx
      simp [hlink] at this
    | into hl hw =>
      obtain rfl := look_into_name hc hl
      rw [List.append_cons] at hw hold ⊢
      exact .into (hsame hl)
        (walk_eq_ok.1 (ih (fun d hd => hcs d (.tail _ hd)) (walk_eq_ok.2 hw) hold hs.tail))

/-! ## The calls that make entries -/

theorem create_ok (hr : h.create l c mode k = .ok h') :
    ∃ hd hc hn hk, h' = h.add l c mode k hd hc hn hk := by
  unfold create at hr
  split_ifs at hr with hk hd hc hn hw
  exact ⟨hd, hc, hn, hk, (Except.ok.inj hr).symm⟩

theorem create_adds (hr : h.create l c mode k = .ok h') : h.Adds h' (l ++ [c]) k := by
  obtain ⟨hd, hc, hn, hk, rfl⟩ := create_ok hr
  exact ⟨hn, ⟨_, by rw [add_node, if_pos rfl], rfl⟩, fun q hq => by rw [add_node, if_neg hq]⟩

theorem create_chmod_adds {mode' : Nat} (hk : ∀ t, k ≠ .link t)
    (hs : h.resolve s true = .ok (.free l c)) (hr : h.create l c mode k = .ok h') :
    h.Adds (h'.orSame (h'.chmod s mode')) (l ++ [c]) k := by
  have hadds := create_adds hr
  obtain ⟨hd, hc, hn, hk', rfl⟩ := create_ok hr
  have hres := resolve_adds hadds hk hs
  have hst : (h.add l c mode k hd hc hn hk').stat s = .ok ⟨h.nextIno, mode, k⟩ := by
    simp only [stat, nodeOf, hres, add_node, if_pos]
  simp only [chmod, hst, orSame, Except.toOption, Option.getD_some]
  refine ⟨hn, ⟨⟨h.nextIno, mode', k⟩, ?_, rfl⟩, fun q hq => ?_⟩
  · simp [update_node, add_node]
  · rw [update_node, add_node, if_neg hq]
    cases hq' : h.node q with
    | none => rfl
    | some m =>
      have := h.ino_lt hq'
      rw [Option.map_some, if_neg (by omega)]

end Host

end Posix

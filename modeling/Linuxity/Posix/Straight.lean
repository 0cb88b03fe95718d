import Linuxity.Posix.Walk

/-!
# Posix.Straight — ways without links

Where no directory on the way is a link, a walk goes down name by name and ends where its names
say, or is blocked by the first name that cannot be looked up.
-/

namespace Posix

open List

namespace Host

variable {h : Host} {f : Bool} {n : Nat} {cur : Loc} {cs : List Str}

/-- Why going down the names `cs` from `cur` fails. -/
def blocked (h : Host) : Loc → List Str → Option Errno
  | _, [] => none
  | cur, c :: cs =>
    match h.look cur c with
    | .error e => some e
    | .ok .missing => some .enoent
    | .ok _ => blocked h (cur ++ [c]) cs

/-- No directory on the way down is a link. -/
def Straight (h : Host) (cur : Loc) (cs : List Str) : Prop :=
  ∀ as bs, cs = as ++ bs → bs ≠ [] → ∀ x, h.node (cur ++ as) = some x → x.isLink = false

theorem Straight.tail {c : Str} (hs : h.Straight cur (c :: cs)) : h.Straight (cur ++ [c]) cs := by
  intro as bs he hb x hx
  refine hs (c :: as) bs (by rw [he]; rfl) hb x ?_
  rw [← hx, append_assoc]
  rfl

theorem Straight.left {ds : List Str} (hs : h.Straight cur (cs ++ ds)) : h.Straight cur cs := by
  intro as bs he hb x hx
  exact hs as (bs ++ ds) (by rw [he, append_assoc]) (by simp [hb]) x hx

/-- Nothing on the way down to `cs` is a link, nor is what is there. -/
def Unlinked (h : Host) (cs : Loc) : Prop :=
  ∀ as, as <+: cs → ∀ x, h.node as = some x → x.isLink = false

instance (h : Host) (cs : Loc) : Decidable (h.Unlinked cs) :=
  decidable_of_iff (∀ as ∈ cs.inits, ∀ x ∈ h.node as, x.isLink = false) <| by
    simp only [Unlinked, mem_inits, Option.mem_def]

theorem Unlinked.straight (hu : h.Unlinked cs) (c : Str) : h.Straight [] (cs ++ [c]) := by
  intro as bs he hb x hx
  refine hu as ?_ x hx
  rcases eq_nil_or_concat bs with h0 | ⟨bs', b, rfl⟩
  · exact absurd h0 hb
  · rw [concat_eq_append, ← append_assoc] at he
    exact ⟨bs', (append_inj_left' he rfl).symm⟩

theorem blocked_append (as bs : List Str) :
    h.blocked cur (as ++ bs) = (h.blocked cur as).or (h.blocked (cur ++ as) bs) := by
  induction as generalizing cur with
  | nil => simp [blocked]
  | cons a as ih =>
    rw [cons_append, blocked, blocked]
    rw [show cur ++ a :: as = cur ++ [a] ++ as by simp]
    rcases h.look cur a with e | (l | t | _)
    · rfl
    · exact ih
    · exact ih
    · rfl

theorem blocked_single (c : Str) : h.blocked cur [c] =
    match h.look cur c with
    | .error e => some e
    | .ok .missing => some .enoent
    | .ok _ => none := rfl

theorem blocked_name {c : Str} (hc : IsName c) :
    h.blocked cur [c] = none ↔ h.Searchable cur ∧ h.node (cur ++ [c]) ≠ none := by
  rw [blocked_single]
  constructor
  · intro hb
    rcases hl : h.look cur c with e | k
    · simp [hl] at hb
    · have hs := searchable_of_look hl
      refine ⟨hs, fun hno => ?_⟩
      rw [look_of_name hs hc.2.2.1 hc.2.2.2, hno] at hb
      cases hb
  · rintro ⟨hs, hx⟩
    obtain ⟨x, hx⟩ := Option.ne_none_iff_exists'.1 hx
    rw [look_of_name hs hc.2.2.1 hc.2.2.2, hx]
    dsimp only
    rcases x.kind with _ | _ | _ | _ <;> rfl

theorem look_error {c : Str} {e : Errno} (hl : h.look cur c = .error e) :
    e = .enoent ∨ e = .eacces ∨ e = .enotdir ∧ ∃ x, h.node cur = some x ∧ x.isDir = false := by
  unfold look at hl
  rcases hx : h.node cur with _ | x
  · rw [hx] at hl
    exact .inl (Except.error.inj hl).symm
  · rw [hx] at hl
    dsimp only at hl
    by_cases hd : x.isDir = false
    · rw [if_pos hd] at hl
      exact .inr (.inr ⟨(Except.error.inj hl).symm, x, rfl, hd⟩)
    rw [if_neg hd] at hl
    by_cases hsr : x.searchable = false
    · rw [if_pos hsr] at hl
      exact .inr (.inl (Except.error.inj hl).symm)
    rw [if_neg hsr] at hl
    split_ifs at hl
    split at hl
    · cases hl
    · split at hl <;> cases hl

theorem blocked_ne_long : h.blocked cur cs ≠ some .enametoolong := by
  induction cs generalizing cur with
  | nil => nofun
  | cons c cs ih =>
    rw [blocked]
    rcases hl : h.look cur c with e | (l | t | _)
    · intro he
      cases he
      rcases look_error hl with he | he | ⟨he, -⟩ <;> cases he
    · exact ih
    · exact ih
    · nofun

theorem blocked_notdir {c : Str} (hb : h.blocked cur (cs ++ [c]) = some .enotdir) :
    h.blocked cur cs = some .enotdir ∨
      h.blocked cur cs = none ∧ ∃ x, h.node (cur ++ cs) = some x ∧ x.isDir = false := by
  rw [blocked_append] at hb
  rcases hd : h.blocked cur cs with _ | e
  · rw [hd, Option.none_or, blocked_single] at hb
    refine .inr ⟨rfl, ?_⟩
    rcases hl : h.look (cur ++ cs) c with e | k
    · rw [hl] at hb
      obtain rfl : e = .enotdir := Option.some.inj hb
      rcases look_error hl with he | he | ⟨-, hx⟩
      · cases he
      · cases he
      · exact hx
    · rw [hl] at hb
      rcases k with l | t | _ <;> cases hb
  · rw [hd] at hb
    exact .inl hb

/-- A walk that ends, ends where its names say. -/
theorem walk_literal {p : Place} (hcs : ∀ c ∈ cs, IsName c) (hs : h.Straight cur cs)
    (hf : f → ∀ x, h.node (cur ++ cs) = some x → x.isLink = false)
      (hw : h.walk f n cur cs = .ok p) :
    p.loc = cur ++ cs := by
  rw [walk_eq_ok] at hw
  induction hw with
  | done hp => simp [← hp]
  | @into n cur l c cs hl _ ih =>
    obtain rfl := look_into_name (hcs c (by simp)) hl
    have := ih (fun d hd => hcs d (.tail _ hd)) hs.tail fun hft x hx => hf hft x (by simpa using hx)
    simpa using this
  | free _ hp => simp [← hp]
  | last _ _ hp => simp [← hp]
  | @follow n cur c t cs hl hgo _ _ _ =>
    obtain ⟨x, hx, hlink⟩ := look_link hl
    by_cases h0 : cs = []
    · have := hf (by simpa [h0] using hgo) x (by simpa [h0] using hx)
      simp [hlink] at this
    · have := hs [c] cs rfl h0 x hx
      simp [hlink] at this

/-- A walk ends where its names say, or is blocked; a last name that is missing leaves its place
free. -/
theorem walk_straight (hcs : ∀ c ∈ cs, IsName c) (hs : h.Straight cur cs)
    (hf : f → ∀ x, h.node (cur ++ cs) = some x → x.isLink = false) :
    match h.blocked cur cs with
    | none => h.walk f n cur cs = .ok (.found (cur ++ cs))
    | some e =>
      h.walk f n cur cs = .error e ∨ e = .enoent ∧ ∃ d c, h.walk f n cur cs = .ok (.free d c) := by
  induction cs generalizing cur with
  | nil => simp [blocked]
  | cons c cs ih =>
    have hc := hcs c (by simp)
    rw [blocked, walk_cons]
    rcases hl : h.look cur c with e | k
    · exact .inl rfl
    · rcases k with l | t | _
      · obtain rfl := look_into_name hc hl
        have := @ih (cur ++ [c]) (fun d hd => hcs d (.tail _ hd)) hs.tail
          (fun hft x hx => hf hft x (by rw [← hx, append_assoc]; rfl))
        simpa using this
      · -- a link can only be the last name of a walk that does not follow it
        obtain ⟨x, hx, hlink⟩ := look_link hl
        rcases cs with _ | ⟨c', cs⟩
        · rcases f with _ | _
          · simp [blocked]
          · have := hf rfl x hx
            simp [hlink] at this
        · have := hs [c] (c' :: cs) rfl (by simp) x hx
          simp [hlink] at this
      · dsimp only
        split_ifs with h0
        · exact .inr ⟨rfl, cur, c, rfl⟩
        · exact .inl rfl

end Host

end Posix

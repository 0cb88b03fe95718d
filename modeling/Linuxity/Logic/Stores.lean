import Mathlib.Data.List.Induction
import Mathlib.Tactic.ByContra
import Mathlib.Tactic.SplitIfs

/-!
# Logic.Stores — two writers of the same memory

A cell is a part of a state that each store either sets or leaves alone.  Where one writer and
another store in turn, what the first one set survives iff the other does not store over it later.
-/

namespace Logic

open List

variable {σ ε α : Type}

/-- A part of a state, with the stores that set it. -/
structure Cell (apply : σ → ε → σ) (α : Type) where
  get : σ → α
  writes : ε → Option α
  get_apply : ∀ s e, get (apply s e) = (writes e).getD (get s)

/-- The last value that the stores have for a cell. -/
def lastWrite (f : ε → Option α) (es : List ε) : Option α := (es.filterMap f).getLast?

section Last

variable {f : ε → Option α}

theorem lastWrite_concat (es : List ε) (e : ε) :
    lastWrite f (es ++ [e]) = (f e).or (lastWrite f es) := by
  unfold lastWrite
  rcases he : f e with _ | v
  · simp [he]
  · simp [he]

theorem lastWrite_append (es fs : List ε) :
    lastWrite f (es ++ fs) = (lastWrite f fs).or (lastWrite f es) := by
  unfold lastWrite
  rw [filterMap_append, List.getLast?_append]

theorem lastWrite_cons (e : ε) (es : List ε) :
    lastWrite f (e :: es) = (lastWrite f es).or (f e) := by
  rw [← singleton_append, lastWrite_append, ← nil_append [e], lastWrite_concat]
  exact congrArg _ (Option.or_none ..)

theorem lastWrite_eq_none {es : List ε} : lastWrite f es = none ↔ ∀ e ∈ es, f e = none := by
  unfold lastWrite
  rw [List.getLast?_eq_none_iff, filterMap_eq_nil_iff]

theorem exists_of_lastWrite {es : List ε} {v : α} (h : lastWrite f es = some v) :
    ∃ e ∈ es, f e = some v :=
  mem_filterMap.1 (mem_of_getLast? h)

end Last

variable {apply : σ → ε → σ}

theorem Cell.get_step (c : Cell apply α) (f : α → α) (e : ε) {s : σ} {es : List ε} {v : α}
    (h : f (c.get s) = f ((lastWrite c.writes es).getD v)) :
    f (c.get (apply s e)) = f ((lastWrite c.writes (es ++ [e])).getD v) := by
  rw [c.get_apply, lastWrite_concat]
  cases c.writes e with
  | none => exact h
  | some _ => rfl

theorem Cell.get_foldl (c : Cell apply α) (s : σ) (es : List ε) :
    c.get (es.foldl apply s) = (lastWrite c.writes es).getD (c.get s) := by
  induction es using List.reverseRecOn with
  | nil => rfl
  | append_singleton es e ih =>
    rw [foldl_append]
    exact c.get_step id e ih

def of (own : Bool) (log : List (Bool × ε)) : List ε :=
  (log.filter fun x => x.1 == own).map Prod.snd

theorem mem_of {own : Bool} {log : List (Bool × ε)} {e : ε} : e ∈ of own log ↔ (own, e) ∈ log := by
  constructor
  · intro h
    obtain ⟨⟨b, e'⟩, hmem, rfl⟩ := mem_map.1 h
    obtain ⟨hlog, hb⟩ := mem_filter.1 hmem
    obtain rfl := beq_iff_eq.1 hb
    exact hlog
  · intro h
    exact mem_map.2 ⟨(own, e), mem_filter.2 ⟨h, beq_iff_eq.2 rfl⟩, rfl⟩

theorem of_append (own : Bool) (l m : List (Bool × ε)) :
    of own (l ++ m) = of own l ++ of own m := by
  unfold of
  rw [filter_append, map_append]

theorem of_cons (own b : Bool) (e : ε) (l : List (Bool × ε)) :
    of own ((b, e) :: l) = if b = own then e :: of own l else of own l := by
  unfold of
  rw [filter_cons]
  simp only [beq_iff_eq]
  split_ifs <;> rfl

/-- After its last store to a cell, the first writer finds nothing else stored there by the
other. -/
def Settled (f : ε → Option α) (log : List (Bool × ε)) : Prop :=
  ∀ t₁ t₂ e v, log = t₁ ++ (true, e) :: t₂ → f e = some v → (∀ e', (true, e') ∈ t₂ → f e' = none) →
    ∀ e' u, (false, e') ∈ t₂ → f e' = some u → u = v

section Settled

variable {f : ε → Option α} {log : List (Bool × ε)} {v : α}

/-- The last store of the first writer to a cell. -/
theorem exists_split (h : lastWrite f (of true log) = some v) :
    ∃ t₁ t₂ e, log = t₁ ++ (true, e) :: t₂ ∧ f e = some v ∧ ∀ e', (true, e') ∈ t₂ →
      f e' = none := by
  induction log using List.reverseRecOn with
  | nil => cases h
  | append_singleton l x ih =>
    obtain ⟨b, e⟩ := x
    by_cases hown : b ∧ f e ≠ none
    · obtain ⟨rfl, hne⟩ := hown
      obtain ⟨w, hw⟩ := Option.ne_none_iff_exists'.1 hne
      rw [of_append, of_cons, if_pos rfl, lastWrite_append, lastWrite_cons, hw] at h
      exact ⟨l, [], e, rfl, hw.trans h, nofun⟩
    · have hrest : lastWrite f (of true l) = some v := by
        rw [of_append, lastWrite_append] at h
        have hnone : lastWrite f (of true [(b, e)]) = none := by
          refine lastWrite_eq_none.2 fun e' he' => ?_
          cases mem_singleton.1 (mem_of.1 he')
          by_contra hne
          exact hown ⟨rfl, hne⟩
        rwa [hnone] at h
      obtain ⟨t₁, t₂, e', rfl, he', hnot⟩ := ih hrest
      refine ⟨t₁, t₂ ++ [(b, e)], e', by rw [append_assoc, cons_append], he', fun e'' hmem => ?_⟩
      obtain hmem | hmem := mem_append.1 hmem
      · exact hnot e'' hmem
      · cases mem_singleton.1 hmem
        by_contra hne
        exact hown ⟨rfl, hne⟩

/-- What both together leave after the last store of the first writer. -/
theorem lastWrite_split {t₁ t₂ : List (Bool × ε)} {e : ε} (he : f e = some v)
    (hnot : ∀ e', (true, e') ∈ t₂ → f e' = none) :
    lastWrite f ((t₁ ++ (true, e) :: t₂).map Prod.snd) =
      (lastWrite f (of false t₂)).or (some v) := by
  have htail : lastWrite f (t₂.map Prod.snd) = lastWrite f (of false t₂) := by
    clear he
    induction t₂ with
    | nil => rfl
    | cons x t₂ ih =>
      obtain ⟨b, e'⟩ := x
      have ih := ih fun e'' h => hnot e'' (.tail _ h)
      rw [map_cons, lastWrite_cons, ih, of_cons]
      cases b with
      | true => rw [hnot e' mem_cons_self, Option.or_none, if_neg nofun]
      | false => rw [if_pos rfl, lastWrite_cons]
  have hhead : lastWrite f ((t₁ ++ [(true, e)]).map Prod.snd) = some v := by
    rw [map_append, map_cons, map_nil, lastWrite_concat, he]
    rfl
  rw [← singleton_append, ← append_assoc, map_append, lastWrite_append, hhead, htail]

/-- If the other writer stores to a cell once at most, what the first one stored last is there in
the end iff it is settled. -/
theorem survives_iff (c : Cell apply α) (s : σ)
    (honce : ∀ e u e' u', (false, e) ∈ log → c.writes e = some u → (false, e') ∈ log →
        c.writes e' = some u' → u = u') :
    (∀ v, lastWrite c.writes (of true log) = some v →
        c.get ((log.map Prod.snd).foldl apply s) = v) ↔ Settled c.writes log := by
  constructor
  · rintro h t₁ t₂ e v rfl he hnot e' u he' hu
    have hown : lastWrite c.writes (of true (t₁ ++ (true, e) :: t₂)) = some v := by
      rw [of_append, of_cons, if_pos rfl, lastWrite_append, lastWrite_cons, he]
      rw [lastWrite_eq_none.2 fun e'' h => hnot e'' (mem_of.1 h)]
      rfl
    have hget := h v hown
    rw [c.get_foldl, lastWrite_split he hnot] at hget
    rcases hlast : lastWrite c.writes (of false t₂) with _ | w
    · exact absurd hu (by rw [lastWrite_eq_none.1 hlast e' (mem_of.2 he')]; exact nofun)
    · rw [hlast] at hget
      obtain ⟨e'', he'', hw⟩ := exists_of_lastWrite hlast
      have hin : ∀ {x}, x ∈ t₂ → x ∈ t₁ ++ (true, e) :: t₂ := fun hx =>
        mem_append_right _ (.tail _ hx)
      rw [honce e' u e'' w (hin he') hu (hin (mem_of.1 he'')) hw]
      exact hget
  · intro h v hv
    obtain ⟨t₁, t₂, e, rfl, he, hnot⟩ := exists_split hv
    rw [c.get_foldl, lastWrite_split he hnot]
    rcases hlast : lastWrite c.writes (of false t₂) with _ | w
    · rfl
    · obtain ⟨e', he', hw⟩ := exists_of_lastWrite hlast
      exact h t₁ t₂ e v rfl he hnot e' w (mem_of.1 he') hw

end Settled

end Logic

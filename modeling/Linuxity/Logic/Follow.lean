import Mathlib.Data.Nat.Notation
import Mathlib.Logic.Relation

/-!
# Logic.Follow — lookups along pointers

A key has an answer of its own or points to another key.  A change at one key is not seen through
the others if that key still leads to the same answer, or if no lookup comes past it.
-/

namespace Logic

variable {α β : Type}

/-- The answer that is reached over at most `n` keys. -/
def follow (next : α → α ⊕ β) : ℕ → α → Option β
  | 0, _ => none
  | n + 1, a =>
    match next a with
    | .inl b => follow next n b
    | .inr v => some v

/-- The lookup ends, with this answer. -/
def LeadsTo (next : α → α ⊕ β) (a : α) (v : β) : Prop := ∃ n, follow next n a = some v

/-- The lookup of `a` comes to the key `t`. -/
def Passes (next : α → α ⊕ β) : α → α → Prop := Relation.TransGen fun a b => next a = .inl b

variable {next next' : α → α ⊕ β} {a b t : α} {v w : β}

theorem leadsTo_inr (h : next a = .inr v) : LeadsTo next a v := ⟨1, by rw [follow, h]⟩

theorem leadsTo_inl (h : next a = .inl b) : LeadsTo next a v ↔ LeadsTo next b v := by
  constructor
  · rintro ⟨_ | n, hn⟩
    · cases hn
    · rw [follow, h] at hn
      exact ⟨n, hn⟩
  · rintro ⟨n, hn⟩
    exact ⟨n + 1, by rw [follow, h]; exact hn⟩

theorem LeadsTo.cases (h : LeadsTo next a v) : next a = .inr v ∨ ∃ b, next a = .inl b := by
  obtain ⟨_ | n, hn⟩ := h
  · cases hn
  · rw [follow] at hn
    rcases hnext : next a with b | u
    · exact .inr ⟨b, rfl⟩
    · rw [hnext] at hn
      cases hn
      exact .inl rfl

/-- Induction along a lookup. -/
theorem LeadsTo.rec {P : α → Prop} (h : LeadsTo next a v) (hend : ∀ a, next a = .inr v → P a)
    (hstep : ∀ a b, next a = .inl b → LeadsTo next b v → P b → P a) : P a := by
  obtain ⟨n, hn⟩ := h
  induction n generalizing a with
  | zero => cases hn
  | succ n ih =>
    rw [follow] at hn
    rcases hnext : next a with b | u
    · rw [hnext] at hn
      exact hstep a b hnext ⟨n, hn⟩ (ih hn)
    · rw [hnext] at hn
      cases hn
      exact hend a hnext

theorem LeadsTo.unique (h : LeadsTo next a v) (h' : LeadsTo next a w) : v = w := by
  refine h.rec (P := fun a => LeadsTo next a w → v = w) (fun a ha hw => ?_)
    (fun a b ha _ ih hw => ?_) h'
  · rcases hw.cases with hw | ⟨b, hb⟩
    · exact Sum.inr.inj (ha.symm.trans hw)
    · rw [ha] at hb
      cases hb
  · exact ih ((leadsTo_inl ha).1 hw)

theorem LeadsTo.replace (h : LeadsTo next a w) (hagree : ∀ x, x ≠ t → next' x = next x)
    (hold : LeadsTo next t v) (hnew : LeadsTo next' t v) : LeadsTo next' a w := by
  refine h.rec (P := fun a => LeadsTo next' a w) (fun a ha => ?_) (fun a b ha hb ih => ?_)
  · by_cases hat : a = t
    · obtain rfl := hat
      rw [(leadsTo_inr ha).unique hold]
      exact hnew
    · exact leadsTo_inr ((hagree a hat).trans ha)
  · by_cases hat : a = t
    · obtain rfl := hat
      rw [((leadsTo_inl ha).2 hb).unique hold]
      exact hnew
    · exact (leadsTo_inl ((hagree a hat).trans ha)).2 ih

/-- The lookup does not come past the key that changed. -/
theorem LeadsTo.keep (h : LeadsTo next a w) (hagree : ∀ x, x ≠ t → next' x = next x) (hne : a ≠ t)
    (hpass : ¬Passes next a t) : LeadsTo next' a w := by
  refine h.rec (P := fun a => a ≠ t → ¬Passes next a t → LeadsTo next' a w) (fun a ha hne _ => ?_)
    (fun a b ha _ ih hne hpass => ?_) hne hpass
  · exact leadsTo_inr ((hagree a hne).trans ha)
  · refine (leadsTo_inl ((hagree a hne).trans ha)).2 (ih ?_ fun hb => hpass (.head ha hb))
    rintro rfl
    exact hpass (.single ha)

/-- Some key points to one that a lookup comes past. -/
theorem Passes.pointed (h : Passes next a t) : ∃ b, next b = .inl t := by
  cases h with
  | single h => exact ⟨_, h⟩
  | tail _ h => exact ⟨_, h⟩

end Logic

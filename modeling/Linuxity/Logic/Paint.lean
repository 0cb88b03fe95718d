import Mathlib.Data.List.Basic

/-!
# Logic.Paint — layers painted one over another

Each layer touches some points and leaves a value at each of them.  After all layers a point has the
value of the last layer that touches it, and its old value if none does.
-/

namespace Logic

open List

variable {κ α β : Type}

structure Brush (κ α β : Type) where
  touches : κ → α → Bool
  leaves : κ → α → β

namespace Brush

variable (b : Brush κ α β)

def paint (m : α → β) (l : κ) : α → β := fun x => if b.touches l x then b.leaves l x else m x

def paintAll (m : α → β) (ls : List κ) : α → β := ls.foldl b.paint m

/-- `l` is the last of the layers to touch `x`. -/
def Last (ls : List κ) (x : α) (l : κ) : Prop :=
  ∃ ls₁ ls₂, ls = ls₁ ++ l :: ls₂ ∧ b.touches l x ∧ ∀ k ∈ ls₂, b.touches k x = false

variable {b} {m : α → β} {ls : List κ} {x : α} {l : κ}

theorem paintAll_cons : b.paintAll m (l :: ls) = b.paintAll (b.paint m l) ls := rfl

theorem paintAll_of_untouched (h : ∀ k ∈ ls, b.touches k x = false) : b.paintAll m ls x = m x := by
  induction ls generalizing m with
  | nil => rfl
  | cons k ls ih =>
    have hk := h k mem_cons_self
    rw [paintAll, foldl_cons]
    refine (ih fun k' hk' => h k' (.tail _ hk')).trans ?_
    rw [paint, hk, if_neg Bool.false_ne_true]

theorem paintAll_of_not_exists (h : ¬∃ k ∈ ls, b.touches k x) : b.paintAll m ls x = m x :=
  paintAll_of_untouched fun k hk => Bool.not_eq_true _ ▸ fun hkx => h ⟨k, hk, hkx⟩

theorem paintAll_congr {m' : α → β} (h : m x = m' x) : b.paintAll m ls x = b.paintAll m' ls x := by
  induction ls generalizing m m' with
  | nil => exact h
  | cons k ls ih =>
    refine ih ?_
    rw [paint, paint, h]

theorem paintAll_agree {b' : Brush κ α β}
    (h : ∀ k ∈ ls, b'.touches k x = b.touches k x ∧ b'.leaves k x = b.leaves k x) :
    b'.paintAll m ls x = b.paintAll m ls x := by
  induction ls generalizing m with
  | nil => rfl
  | cons k ls ih =>
    obtain ⟨h1, h2⟩ := h k mem_cons_self
    refine (ih fun k' hk' => h k' (.tail _ hk')).trans (paintAll_congr ?_)
    rw [paint, paint, h1, h2]

theorem Last.paintAll_eq (h : b.Last ls x l) : b.paintAll m ls x = b.leaves l x := by
  obtain ⟨ls₁, ls₂, rfl, hl, hrest⟩ := h
  rw [paintAll, foldl_append, foldl_cons]
  refine (paintAll_of_untouched hrest).trans ?_
  rw [paint, if_pos hl]

theorem exists_last (h : ∃ l ∈ ls, b.touches l x) : ∃ l, b.Last ls x l := by
  induction ls with
  | nil =>
    obtain ⟨l, hl, _⟩ := h
    cases hl
  | cons a ls ih =>
    by_cases hlater : ∃ l ∈ ls, b.touches l x
    · obtain ⟨l, ls₁, ls₂, hls, hl⟩ := ih hlater
      exact ⟨l, a :: ls₁, ls₂, by rw [hls, cons_append], hl⟩
    · have hnone : ∀ k ∈ ls, b.touches k x = false :=
        fun k hk => Bool.not_eq_true _ ▸ fun hkx => hlater ⟨k, hk, hkx⟩
      obtain ⟨l, hl, hlx⟩ := h
      obtain rfl | hl := mem_cons.1 hl
      · exact ⟨l, [], ls, rfl, hlx, hnone⟩
      · exact absurd ⟨l, hl, hlx⟩ hlater

theorem Last.mem (h : b.Last ls x l) : l ∈ ls ∧ b.touches l x := by
  obtain ⟨ls₁, ls₂, rfl, hl, _⟩ := h
  exact ⟨mem_append_right _ mem_cons_self, hl⟩

end Brush

end Logic

import Mathlib.Algebra.Group.Nat.Defs
import Mathlib.Data.List.Basic
import Mathlib.Tactic.SplitIfs

/-!
# Logic.Slots — a bounded table that gives out its lowest free place
-/

namespace Logic

open List

section Slots

variable {α : Type} {free : α → Bool} {max : ℕ} {t : List α} {x : α}

/-- The lowest free place, or a new one at the end. -/
def addSlot (free : α → Bool) (max : ℕ) (t : List α) (x : α) : Option (ℕ × List α) :=
  match t.findIdx? free with
  | some g => some (g, t.set g x)
  | none => if max ≤ t.length then none else some (t.length, t ++ [x])

def room (free : α → Bool) (max : ℕ) (t : List α) : ℕ := t.countP free + (max - t.length)

theorem addSlot_cases (free : α → Bool) (max : ℕ) (t : List α) (x : α) :
    (∃ g, t.findIdx? free = some g ∧ addSlot free max t x = some (g, t.set g x)) ∨
      t.findIdx? free = none ∧
      (max ≤ t.length ∧ addSlot free max t x = none ∨
        t.length < max ∧ addSlot free max t x = some (t.length, t ++ [x])) := by
  unfold addSlot
  cases t.findIdx? free with
  | some g => exact .inl ⟨g, rfl, rfl⟩
  | none =>
    by_cases hfull : max ≤ t.length
    · exact .inr ⟨rfl, .inl ⟨hfull, if_pos hfull⟩⟩
    · exact .inr ⟨rfl, .inr ⟨by omega, if_neg hfull⟩⟩

theorem countP_pos_of_findIdx? {g : ℕ} (h : t.findIdx? free = some g) :
    ∃ hg : g < t.length, free (t.get ⟨g, hg⟩) := by
  obtain ⟨hg, hfree, -⟩ := List.findIdx?_eq_some_iff_getElem.1 h
  exact ⟨hg, hfree⟩

theorem countP_eq_zero_of_findIdx? (h : t.findIdx? free = none) : t.countP free = 0 := by
  rw [countP_eq_zero]
  intro y hy
  rw [List.findIdx?_eq_none_iff.1 h y hy]
  exact Bool.false_ne_true

theorem addSlot_eq_none_iff : addSlot free max t x = none ↔ room free max t = 0 := by
  obtain ⟨g, hfind, hadd⟩ | ⟨hfind, ⟨hfull, hadd⟩ | ⟨hlt, hadd⟩⟩ := addSlot_cases free max t x
  · obtain ⟨hg, hfree⟩ := countP_pos_of_findIdx? hfind
    have hpos : 0 < t.countP free := countP_pos_iff.2 ⟨_, get_mem t ⟨g, hg⟩, hfree⟩
    rw [hadd, room]
    exact iff_of_false nofun (by omega)
  · rw [hadd, room, countP_eq_zero_of_findIdx? hfind]
    exact iff_of_true rfl (by omega)
  · rw [hadd, room]
    exact iff_of_false nofun (by omega)

theorem room_addSlot {g : ℕ} {t' : List α} (h : addSlot free max t x = some (g, t'))
    (hx : free x = false) : room free max t' + 1 = room free max t := by
  obtain ⟨g', hfind, hadd⟩ | ⟨hfind, ⟨hfull, hadd⟩ | ⟨hlt, hadd⟩⟩ := addSlot_cases free max t x
  · obtain ⟨hg, hfree⟩ := countP_pos_of_findIdx? hfind
    obtain ⟨rfl, rfl⟩ := Prod.mk.inj (Option.some.inj (h.symm.trans hadd))
    have hpos : 0 < t.countP free := countP_pos_iff.2 ⟨_, get_mem t ⟨g, hg⟩, hfree⟩
    have hcount := countP_set (p := free) (a := x) hg
    rw [get_eq_getElem] at hfree
    rw [hx, hfree] at hcount
    simp only [if_true, Bool.false_eq_true, if_false] at hcount
    rw [room, room, length_set, hcount]
    omega
  · rw [h] at hadd
    cases hadd
  · obtain ⟨rfl, rfl⟩ := Prod.mk.inj (Option.some.inj (h.symm.trans hadd))
    have hcount : (t ++ [x]).countP free = t.countP free := by
      rw [countP_append, countP_singleton, hx, if_neg Bool.false_ne_true, Nat.add_zero]
    rw [room, room, hcount, length_append, length_singleton]
    omega

theorem addSlot_spec {g : ℕ} {t' : List α} (h : addSlot free max t x = some (g, t')) :
    (∀ k, t'[k]? = if k = g then some x else t[k]?) ∧ ∀ y ∈ t[g]?, free y := by
  obtain ⟨g', hfind, hadd⟩ | ⟨hfind, ⟨hfull, hadd⟩ | ⟨hlt, hadd⟩⟩ := addSlot_cases free max t x
  · obtain ⟨hg, hfree⟩ := countP_pos_of_findIdx? hfind
    obtain ⟨rfl, rfl⟩ := Prod.mk.inj (Option.some.inj (h.symm.trans hadd))
    refine ⟨fun k => ?_, fun y hy => ?_⟩
    · split_ifs with hk
      · rw [hk, List.getElem?_set_self hg]
      · rw [List.getElem?_set_ne (Ne.symm hk)]
    · rw [List.getElem?_eq_getElem hg] at hy
      cases hy
      exact hfree
  · rw [h] at hadd
    cases hadd
  · obtain ⟨rfl, rfl⟩ := Prod.mk.inj (Option.some.inj (h.symm.trans hadd))
    refine ⟨fun k => ?_, fun y hy => ?_⟩
    · split_ifs with hk
      · rw [hk, List.getElem?_concat_length]
      · rw [List.getElem?_append]
        split_ifs with hlt'
        · rfl
        · have hlong : [x].length ≤ k - t.length := by
            rw [length_singleton]
            omega
          rw [List.getElem?_eq_none hlong, List.getElem?_eq_none (by omega)]
    · rw [List.getElem?_eq_none (Nat.le_refl _)] at hy
      cases hy

end Slots

end Logic

import Mathlib.Data.List.Induction
import Mathlib.Data.Option.Basic
import Mathlib.Order.Basic

/-!
# Logic.Trie — trees of nodes that live in a store

A node and an index lead to a child or to nothing.  `reach` goes down a path from a root.  The tree
is `Apart` down to a depth if no node is reached over two paths; then a change at one node is a
change below one path only.
-/

namespace Logic

variable {ν ι : Type} {child child' : ν → ι → Option ν} {root : ν} {d : ℕ}

def reach (child : ν → ι → Option ν) (root : ν) (p : List ι) : Option ν := p.foldlM child root

@[simp] theorem reach_nil : reach child root [] = some root := rfl

theorem reach_snoc (p : List ι) (i : ι) :
    reach child root (p ++ [i]) = (reach child root p).bind (child · i) := by
  rw [reach, reach, List.foldlM_append]
  cases p.foldlM child root with
  | none => rfl
  | some t =>
    rw [Option.bind_some]
    exact bind_pure (child t i)

/-- No two paths down to the depth lead to one node. -/
def Apart (child : ν → ι → Option ν) (root : ν) (d : ℕ) : Prop :=
  ∀ p q t, p.length ≤ d → q.length ≤ d → reach child root p = some t →
    reach child root q = some t → p = q

/-- Only the nodes above the end of a path matter to it. -/
theorem reach_congr {p : List ι}
    (h : ∀ q t i, q.length < p.length → reach child root q = some t → child' t i = child t i) :
    reach child' root p = reach child root p := by
  induction p using List.reverseRecOn with
  | nil => rfl
  | append_singleton p i ih =>
    rw [List.length_append, List.length_singleton] at h
    rw [reach_snoc, reach_snoc, ih fun q t j hq => h q t j (by omega)]
    cases hp : reach child root p with
    | none => rfl
    | some t => exact h p t i (by omega) hp

theorem Apart.congr (ha : Apart child root d)
    (h : ∀ q t i, q.length < d → reach child root q = some t → child' t i = child t i) :
    Apart child' root d := by
  have hreach : ∀ {p : List ι}, p.length ≤ d → reach child' root p = reach child root p :=
    fun hp => reach_congr fun q t i hq => h q t i (by omega)
  intro p q t hp hq h1 h2
  rw [hreach hp] at h1
  rw [hreach hq] at h2
  exact ha p q t hp hq h1 h2

section Link

variable {p : List ι} {s f : ν} {j : ι}

/-- A new node `f` becomes the child `j` of the node at the end of `p`. -/
structure Links (child child' : ν → ι → Option ν) (root : ν) (d : ℕ) (p : List ι) (s f : ν)
    (j : ι) : Prop where
  node : reach child root p = some s
  above : p.length < d
  free : child s j = none
  fresh : ∀ q, q.length ≤ d → reach child root q ≠ some f
  link : child' s j = some f
  bare : ∀ i, child' f i = none
  rest : ∀ q t i, q.length < d → reach child root q = some t → ¬(t = s ∧ i = j) →
    child' t i = child t i

open Classical in
/-- The new node is reached over its own path, and every other path leads where it did. -/
theorem Links.reach_eq (hl : Links child child' root d p s f j) (ha : Apart child root d)
    {q : List ι} (hq : q.length ≤ d) :
    reach child' root q = if q = p ++ [j] then some f else reach child root q := by
  induction q using List.reverseRecOn with
  | nil => rw [if_neg (by simp), reach_nil, reach_nil]
  | append_singleton q i ih =>
    rw [List.length_append, List.length_singleton] at hq
    rw [reach_snoc, reach_snoc, ih (by omega)]
    by_cases hpq : q = p ++ [j]
    · -- below the new node there is nothing, as there was nothing below its path
      rw [if_pos hpq, if_neg (by simp [hpq]), Option.bind_some, hl.bare, hpq, reach_snoc, hl.node,
        Option.bind_some, hl.free]
      rfl
    rw [if_neg hpq]
    by_cases hend : q ++ [i] = p ++ [j]
    · obtain ⟨rfl, hij⟩ := List.append_inj' hend rfl
      obtain rfl := List.singleton_inj.1 hij
      rw [if_pos rfl, hl.node, Option.bind_some, hl.link]
    rw [if_neg hend]
    cases ht : reach child root q with
    | none => rfl
    | some t =>
      refine hl.rest q t i (by omega) ht ?_
      rintro ⟨rfl, rfl⟩
      exact hend (by rw [ha q p t (by omega) (Nat.le_of_lt hl.above) ht hl.node])

theorem Links.apart (hl : Links child child' root d p s f j) (ha : Apart child root d) :
    Apart child' root d := by
  intro q q' t hq hq' h1 h2
  rw [hl.reach_eq ha hq] at h1
  rw [hl.reach_eq ha hq'] at h2
  split_ifs at h1 h2 with hp hp' hp'
  · rw [hp, hp']
  · cases h1
    exact absurd h2 (hl.fresh q' hq')
  · cases h2
    exact absurd h1 (hl.fresh q hq)
  · exact ha q q' t hq hq' h1 h2

end Link

end Logic

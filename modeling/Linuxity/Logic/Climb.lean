import Mathlib.Data.List.Basic
import Mathlib.Data.List.Infix
import Mathlib.Tactic.SplitIfs

/-!
# Logic.Climb — paths as lists of names, with a name for "here" and one for "up"

`collapse` walks a list of names from a list of directories and does not leave the first `floor`
of them.  `net` is where a list of names leads by itself: so many directories up, then these
names.
-/

namespace Logic

open List

section Runs

variable {α : Type} (p : α → Bool)

def runs (w : List α) : List (List α) := (w.splitOnP p).filter fun c => !c.isEmpty

@[simp] theorem runs_nil : runs p [] = [] := by
  simp [runs]

variable {c : α}

theorem runs_append_cons (a : List α) (hc : p c) (b : List α) :
    runs p (a ++ c :: b) = runs p a ++ runs p b := by
  unfold runs
  rw [splitOnP_append_cons a b hc, filter_append]

theorem runs_cons (hc : p c) (b : List α) : runs p (c :: b) = runs p b := by
  simpa using runs_append_cons p [] hc b

/-- What comes after a separator is split by itself. -/
theorem runs_append (a : List α) {b : List α} (hb : ∀ c ∈ b.head?, p c) :
    runs p (a ++ b) = runs p a ++ runs p b := by
  rcases b with _ | ⟨c, b⟩
  · rw [append_nil, runs_nil, append_nil]
  · have hc := hb c rfl
    rw [runs_append_cons p a hc, runs_cons p hc]

theorem runs_eq_nil {w : List α} (h : ∀ c ∈ w, p c) : runs p w = [] := by
  induction w with
  | nil => exact runs_nil p
  | cons c w ih =>
    rw [runs_cons p (h c (.head _))]
    exact ih fun d hd => h d (.tail _ hd)

theorem runs_ne_nil {w : List α} (hc : c ∈ w) (hp : p c = false) : runs p w ≠ [] := by
  induction w with
  | nil => cases hc
  | cons d w ih =>
    cases hd : p d with
    | true =>
      rw [runs_cons p hd]
      refine ih ((mem_cons.1 hc).resolve_left ?_)
      rintro rfl
      rw [hp] at hd
      exact Bool.noConfusion hd
    | false =>
      -- the first run holds `d`
      obtain ⟨r, rs, hs⟩ := exists_cons_of_ne_nil (splitOnP_ne_nil p w)
      rw [runs, splitOnP_cons_eq_if_modifyHead, hd, hs, if_neg Bool.false_ne_true, modifyHead_cons,
        filter_cons_of_pos rfl]
      exact cons_ne_nil _ _

end Runs

section Collapse

variable {α : Type} [DecidableEq α] (here up : α)

def collapseStep (floor : ℕ) (out : List α) (c : α) : List α :=
  if c = here then out
  else if c = up then (if floor < out.length then out.dropLast else out)
  else out ++ [c]

def collapse (floor : ℕ) (base ns : List α) : List α := ns.foldl (collapseStep here up floor) base

def netStep (out : ℕ × List α) (c : α) : ℕ × List α :=
  if c = here then out
  else if c = up then (if out.2 = [] then (out.1 + 1, []) else (out.1, out.2.dropLast))
  else (out.1, out.2 ++ [c])

def net (ns : List α) : ℕ × List α := ns.foldl (netStep here up) (0, [])

variable {here up}

variable {base : List α} {floor : ℕ}

/-- One name, on directories of the start and the names after them. -/
theorem collapseStep_eq (hf : floor ≤ base.length) (k : ℕ) (ds : List α) (c : α) :
    collapseStep here up floor (base.take (max floor (base.length - k)) ++ ds) c =
      base.take (max floor (base.length - (netStep here up (k, ds) c).1)) ++
      (netStep here up (k, ds) c).2 := by
  unfold collapseStep netStep
  by_cases hhere : c = here
  · rw [if_pos hhere, if_pos hhere]
  rw [if_neg hhere, if_neg hhere]
  by_cases hup : c = up
  · rw [if_pos hup, if_pos hup]
    rcases eq_nil_or_concat ds with rfl | ⟨ds, d, rfl⟩
    · rw [if_pos rfl, append_nil, append_nil, length_take]
      split_ifs with hlt
      · rw [dropLast_eq_take, length_take, take_take]
        congr 1
        omega
      · congr 1
        omega
    · rw [concat_eq_append] at *
      have hne : ds ++ [d] ≠ [] := append_ne_nil_of_right_ne_nil _ (cons_ne_nil _ _)
      have hlt : floor < (base.take (max floor (base.length - k)) ++ (ds ++ [d])).length := by
        rw [length_append, length_append, length_take, length_singleton]
        omega
      simp only [if_neg hne, if_pos hlt]
      rw [dropLast_append_of_ne_nil hne]
  · rw [if_neg hup, if_neg hup, append_assoc]

/-- A walk is its net: some directories up, as far as the floor allows, then the names. -/
theorem collapse_eq (hf : floor ≤ base.length) (ns : List α) : collapse here up floor base ns =
      base.take (max floor (base.length - (net here up ns).1)) ++ (net here up ns).2 := by
  have hgen : ∀ (ns : List α) (k : ℕ) (ds : List α),
      collapse here up floor (base.take (max floor (base.length - k)) ++ ds) ns =
        base.take (max floor (base.length - (ns.foldl (netStep here up) (k, ds)).1)) ++
          (ns.foldl (netStep here up) (k, ds)).2 := by
    intro ns
    induction ns with
    | nil => exact fun k ds => rfl
    | cons c ns ih =>
      intro k ds
      rw [collapse, foldl_cons, foldl_cons, collapseStep_eq hf]
      exact ih _ _
  have hstart := hgen ns 0 []
  rwa [Nat.sub_zero, Nat.max_eq_right hf, take_length, append_nil] at hstart

/-- A walk ends below where it began just if it names again what it climbs out of. -/
theorem isPrefix_collapse_iff (hf : floor ≤ base.length) (ns : List α) :
    base <+: collapse here up floor base ns ↔
      base.drop (max floor (base.length - (net here up ns).1)) <+: (net here up ns).2 := by
  rw [collapse_eq hf]
  have hsplit := take_append_drop (max floor (base.length - (net here up ns).1)) base
  conv_lhs =>
    lhs
    rw [← hsplit]
  exact prefix_append_right_inj _

/-- What lies on the floor or below stays. -/
theorem isPrefix_collapse {out : List α} (hlen : out.length ≤ floor) (h : out <+: base)
    (ns : List α) : out <+: collapse here up floor base ns := by
  induction ns generalizing base with
  | nil => exact h
  | cons c ns ih =>
    refine ih ?_
    unfold collapseStep
    split_ifs with hhere hup hlt
    · exact h
    · rw [dropLast_eq_take]
      exact prefix_take_iff.2 ⟨h, by omega⟩
    · exact h
    · exact h.trans (prefix_append _ _)

end Collapse

end Logic

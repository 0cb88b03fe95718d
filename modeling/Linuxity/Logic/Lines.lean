import Mathlib.Data.List.DropRight
import Mathlib.Data.Nat.Notation

/-!
# Logic.Lines — a text that is read line by line through a buffer

A reader like `fgets` gives at most `n` elements at a time, and stops after a separator.  Lines that
are shorter and hold no separator come out as they went in; one of just `n` elements comes without
its separator, which is then a line of its own.
-/

namespace Logic

open List

variable {α : Type} [DecidableEq α]

/-- Up to `n` elements, the last of them a separator if one is met, and the rest. -/
def getLine (sep : α) : ℕ → List α → List α × List α
  | 0, cs => ([], cs)
  | _ + 1, [] => ([], [])
  | n + 1, c :: cs =>
    if c = sep then ([c], cs) else ((c :: (getLine sep n cs).1), (getLine sep n cs).2)

/-- The lines of a text, as long as there are some and `fuel` lasts. -/
def linesFrom (sep : α) (n : ℕ) : ℕ → List α → List (List α)
  | 0, _ => []
  | fuel + 1, cs =>
    if (getLine sep n cs).1 = [] then []
    else (getLine sep n cs).1 :: linesFrom sep n fuel (getLine sep n cs).2

/-- Every line takes at least one element, so that the length of the text is enough. -/
def linesOf (sep : α) (n : ℕ) (cs : List α) : List (List α) := linesFrom sep n cs.length cs

/-- Lines, each followed by a separator. -/
def unlines (sep : α) (ls : List (List α)) : List α := ls.flatMap (· ++ [sep])

variable {sep : α} {n : ℕ} {l : List α}

theorem getLine_append (hsep : sep ∉ l) (hlen : l.length < n) (rest : List α) :
    getLine sep n (l ++ sep :: rest) = (l ++ [sep], rest) := by
  induction l generalizing n with
  | nil =>
    obtain ⟨n, rfl⟩ := Nat.exists_eq_succ_of_ne_zero (Nat.ne_of_gt hlen)
    exact if_pos rfl
  | cons c l ih =>
    obtain ⟨n, rfl⟩ := Nat.exists_eq_succ_of_ne_zero (Nat.ne_of_gt (Nat.zero_lt_of_lt hlen))
    have hc : c ≠ sep := fun h => hsep (h ▸ (.head _))
    rw [cons_append, getLine, if_neg hc,
      ih (fun h => hsep (.tail _ h)) (Nat.lt_of_succ_lt_succ hlen)]
    rfl

theorem getLine_full (hsep : sep ∉ l) (rest : List α) :
    getLine sep l.length (l ++ rest) = (l, rest) := by
  induction l with
  | nil => rfl
  | cons c l ih =>
    have hc : c ≠ sep := fun h => hsep (h ▸ (.head _))
    rw [length_cons, cons_append, getLine, if_neg hc, ih fun h => hsep (.tail _ h)]

omit [DecidableEq α] in
theorem unlines_cons (l : List α) (ls : List (List α)) :
    unlines sep (l :: ls) = l ++ sep :: unlines sep ls := by
  rw [unlines, flatMap_cons, append_assoc]
  rfl

omit [DecidableEq α] in
theorem unlines_append (ls ms : List (List α)) :
    unlines sep (ls ++ ms) = unlines sep ls ++ unlines sep ms :=
  flatMap_append ..

section Fold

variable {β : Type} {f : β → List α → β} {ls : List (List α)}

/-- A reader that takes a line without its separator for the line, and passes over an empty one,
gets the lines back if none is longer than the buffer. -/
theorem foldl_linesFrom (hn : 0 < n) (hempty : ∀ b, f b [sep] = b)
    (hls : ∀ l ∈ ls, sep ∉ l ∧ l.length ≤ n ∧ ∀ b, f b l = f b (l ++ [sep])) {fuel : ℕ}
    (hfuel : (unlines sep ls).length ≤ fuel) (b : β) :
    (linesFrom sep n fuel (unlines sep ls)).foldl f b = (ls.map (· ++ [sep])).foldl f b := by
  induction ls generalizing fuel b with
  | nil =>
    rcases fuel with _ | fuel
    · rfl
    · obtain ⟨n, rfl⟩ := Nat.exists_eq_succ_of_ne_zero (Nat.ne_of_gt hn)
      exact congrArg (foldl f b) (if_pos rfl)
  | cons l ls ih =>
    obtain ⟨hsep, hlen, hcut⟩ := hls l mem_cons_self
    rw [unlines_cons, length_append, length_cons] at hfuel
    have hrest {fuel : ℕ} := @ih (fun m h => hls m (.tail _ h)) fuel
    rw [unlines_cons, map_cons, foldl_cons]
    obtain ⟨fuel, rfl⟩ : ∃ k, fuel = k + 1 := ⟨fuel - 1, by omega⟩
    rcases Nat.lt_or_eq_of_le hlen with hlt | rfl
    · rw [linesFrom, getLine_append hsep hlt,
        if_neg (append_ne_nil_of_right_ne_nil _ (cons_ne_nil _ _)), foldl_cons, hrest (by omega)]
    · -- the separator is left for the next line
      obtain ⟨fuel, rfl⟩ : ∃ k, fuel = k + 1 := ⟨fuel - 1, by omega⟩
      have hnext : getLine sep l.length (sep :: unlines sep ls) = ([sep], unlines sep ls) :=
        getLine_append (l := []) not_mem_nil hn _
      rw [linesFrom, getLine_full hsep, if_neg (ne_nil_of_length_pos hn), linesFrom, hnext,
        if_neg (cons_ne_nil _ _), foldl_cons, foldl_cons, hempty, hcut, hrest (by omega)]

theorem foldl_linesOf (hn : 0 < n) (hempty : ∀ b, f b [sep] = b)
    (hls : ∀ l ∈ ls, sep ∉ l ∧ l.length ≤ n ∧ ∀ b, f b l = f b (l ++ [sep])) (b : β) :
    (linesOf sep n (unlines sep ls)).foldl f b = (ls.map (· ++ [sep])).foldl f b :=
  foldl_linesFrom hn hempty hls (Nat.le_refl _) b

end Fold

end Logic

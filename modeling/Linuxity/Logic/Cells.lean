import Mathlib.Data.Nat.Notation

/-!
# Logic.Cells — a memory of cells that are clear or hold a value

What is stored is never looked at by a store, so a run on one kind of value is carried to another
kind by a map; with a single value the run tells which cells have been stored to since they were
cleared.
-/

namespace Logic

variable {β γ : Type}

inductive Put (β : Type) where
  | clear (a n : ℕ)
  | put (a : ℕ) (bs : List β)
  | move (dst src n : ℕ)

namespace Put

def on (m : ℕ → Option β) : Put β → ℕ → Option β
  | .clear a n => fun x => if a ≤ x ∧ x < a + n then none else m x
  | .put a bs => fun x => if a ≤ x ∧ x < a + bs.length then bs[x - a]? else m x
  | .move dst src n => fun x => if dst ≤ x ∧ x < dst + n then m (src + (x - dst)) else m x

def map (f : β → γ) : Put β → Put γ
  | .clear a n => .clear a n
  | .put a bs => .put a (bs.map f)
  | .move dst src n => .move dst src n

theorem on_map (f : β → γ) (m : ℕ → Option β) (p : Put β) :
    (p.map f).on (fun x => (m x).map f) = fun x => (p.on m x).map f := by
  funext x
  cases p with
  | clear a n =>
    show (if a ≤ x ∧ x < a + n then none else (m x).map f) =
      (if a ≤ x ∧ x < a + n then none else m x).map f
    rw [apply_ite (Option.map f)]
    rfl
  | put a bs =>
    show (if a ≤ x ∧ x < a + (bs.map f).length then (bs.map f)[x - a]? else (m x).map f) =
      (if a ≤ x ∧ x < a + bs.length then bs[x - a]? else m x).map f
    rw [apply_ite (Option.map f), List.length_map, List.getElem?_map]
  | move dst src n =>
    show (if dst ≤ x ∧ x < dst + n then (m (src + (x - dst))).map f else (m x).map f) =
      (if dst ≤ x ∧ x < dst + n then m (src + (x - dst)) else m x).map f
    rw [apply_ite (Option.map f)]

def all (ps : List (Put β)) (m : ℕ → Option β) : ℕ → Option β := ps.foldl on m

theorem all_cons (p : Put β) (ps : List (Put β)) (m : ℕ → Option β) :
    all (p :: ps) m = all ps (p.on m) := rfl

theorem all_map (f : β → γ) (ps : List (Put β)) (m : ℕ → Option β) :
    all (ps.map (map f)) (fun x => (m x).map f) = fun x => (all ps m x).map f := by
  induction ps generalizing m with
  | nil => rfl
  | cons p ps ih =>
    rw [List.map_cons, all_cons, all_cons, on_map]
    exact ih _

variable {a n x : ℕ} {m : ℕ → Option β}

theorem clear_on (h : a ≤ x) (h' : x < a + n) : (Put.clear a n).on m x = none :=
  if_pos ⟨h, h'⟩

theorem clear_on_of_apart (h : x < a ∨ a + n ≤ x) : (Put.clear a n).on m x = m x :=
  if_neg (by omega)

theorem put_on_of_apart {bs : List β} (h : x < a ∨ a + bs.length ≤ x) :
    (Put.put a bs).on m x = m x :=
  if_neg (by omega)

theorem move_on {dst src : ℕ} (h : dst ≤ x) (h' : x < dst + n) :
    (Put.move dst src n).on m x = m (src + (x - dst)) :=
  if_pos ⟨h, h'⟩

end Put

end Logic

import Mathlib.Order.Defs.Unbundled
import Mathlib.Tactic.SplitIfs

/-!
# Logic.Act — programs that pass a state along

`Runs x s Q` says that `x`, started in `s`, ends with a value and a state that satisfy `Q`.  The
rules follow the forms a program is written in, so a proof about a program has its shape.
`Keeps R x` says that `R` relates every state to the one `x` leaves, and `Respects E x` that `x`
cannot tell states apart that `E` relates.
-/

namespace Logic

/-- A program that reads and changes a state of type `σ` and returns an `α`. -/
def Act (σ α : Type) := σ → α × σ

namespace Act

variable {σ α β : Type}

instance : Monad (Act σ) where
  pure a := fun s => (a, s)
  bind x f := fun s => f (x s).1 (x s).2

def read (f : σ → α) : Act σ α := fun s => (f s, s)

def modify (f : σ → σ) : Act σ Unit := fun s => ((), f s)

theorem pure_apply (a : α) (s : σ) : (pure a : Act σ α) s = (a, s) := rfl

theorem bind_apply (x : Act σ α) (f : α → Act σ β) (s : σ) : (x >>= f) s = f (x s).1 (x s).2 := rfl

theorem read_apply (f : σ → α) (s : σ) : read f s = (f s, s) := (rfl)

theorem read_bind (f : σ → α) (g : α → Act σ β) (s : σ) : (read f >>= g) s = g (f s) s := rfl

theorem modify_bind (f : σ → σ) (g : Unit → Act σ β) (s : σ) : (modify f >>= g) s = g () (f s) :=
  rfl

end Act

variable {σ α β : Type} {s : σ}

/-- `x` run from `s` ends with a value and a state that satisfy `Q`. -/
def Runs (x : Act σ α) (s : σ) (Q : α → σ → Prop) : Prop := Q (x s).1 (x s).2

variable {Q : α → σ → Prop} {x : Act σ α}

theorem runs_iff : Runs x s Q ↔ Q (x s).1 (x s).2 := Iff.rfl

theorem runs_pure {a : α} (h : Q a s) : Runs (pure a) s Q := h

theorem Runs.mono {Q' : α → σ → Prop} (h : Runs x s Q) (hQ : ∀ a s', Q a s' → Q' a s') :
    Runs x s Q' := hQ _ _ h

theorem runs_bind {f : α → Act σ β} {R : α → σ → Prop} {Q : β → σ → Prop} (hx : Runs x s R)
    (hf : ∀ a s', R a s' → Runs (f a) s' Q) : Runs (x >>= f) s Q := hf _ _ hx

theorem runs_read_bind {g : σ → α} {f : α → Act σ β} {Q : β → σ → Prop} (h : Runs (f (g s)) s Q) :
    Runs (Act.read g >>= f) s Q := h

theorem runs_modify_bind {g : σ → σ} {f : Unit → Act σ β} {Q : β → σ → Prop}
    (h : Runs (f ()) (g s) Q) : Runs (Act.modify g >>= f) s Q := h

theorem runs_ite {c : Prop} [Decidable c] {y : Act σ α} (hx : c → Runs x s Q)
    (hy : ¬c → Runs y s Q) : Runs (if c then x else y) s Q := by
  split_ifs with h
  · exact hx h
  · exact hy h

/-! ## Programs that keep a relation -/

def Keeps (R : σ → σ → Prop) (x : Act σ α) : Prop := ∀ s, R s (x s).2

namespace Keeps

variable {R : σ → σ → Prop}

variable {x : Act σ α}

theorem mono {R' : σ → σ → Prop} (h : ∀ s s', R s s' → R' s s') (hx : Keeps R x) : Keeps R' x :=
  fun s => h _ _ (hx s)

theorem modify {f : σ → σ} (h : ∀ s, R s (f s)) : Keeps R (Act.modify f) := h

theorem ite {c : Prop} [Decidable c] {y : Act σ α} (hx : Keeps R x) (hy : Keeps R y) :
    Keeps R (if c then x else y) := by
  split_ifs
  · exact hx
  · exact hy

variable [IsPreorder σ R]

theorem pure (a : α) : Keeps R (Pure.pure a : Act σ α) := fun s => refl_of R s

theorem read (f : σ → α) : Keeps R (Act.read f) := fun s => refl_of R s

theorem bind {f : α → Act σ β} (hx : Keeps R x) (hf : ∀ a, Keeps R (f a)) : Keeps R (x >>= f) :=
  fun s => trans_of R (hx s) (hf _ _)

end Keeps

/-! ## Programs that cannot tell states apart -/

/-- Started in two states that `E` relates, `x` gives the same value, and `E` relates where it
ends. -/
def Respects (E : σ → σ → Prop) (x : Act σ α) : Prop :=
  ∀ s s', E s s' → (x s').1 = (x s).1 ∧ E (x s).2 (x s').2

namespace Respects

variable {E : σ → σ → Prop}

theorem pure (a : α) : Respects E (Pure.pure a : Act σ α) := fun _ _ h => ⟨rfl, h⟩

theorem read {f : σ → α} (hf : ∀ s s', E s s' → f s' = f s) : Respects E (Act.read f) :=
  fun _ _ h => ⟨hf _ _ h, h⟩

theorem bind {x : Act σ α} {f : α → Act σ β} (hx : Respects E x) (hf : ∀ a, Respects E (f a)) :
    Respects E (x >>= f) := by
  intro s s' h
  obtain ⟨hv, hs⟩ := hx s s' h
  simp only [Act.bind_apply, hv]
  exact hf _ _ _ hs

theorem ite {c : Prop} [Decidable c] {x y : Act σ α} (hx : Respects E x) (hy : Respects E y) :
    Respects E (if c then x else y) := by
  split_ifs
  · exact hx
  · exact hy

end Respects

end Logic

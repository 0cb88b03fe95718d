import Mathlib.Logic.ExistsUnique

/-!
# Logic.Run — runs over events, and loops without a bound
-/

namespace Logic

variable {σ ε : Type}

/-- `P` holds at every event, in the state the events before it have led to. -/
def Along (step : σ → ε → σ) (P : σ → ε → Prop) : σ → List ε → Prop
  | _, [] => True
  | s, e :: es => P s e ∧ Along step P (step s e) es

variable {C : σ → ε → Prop} {es : List ε} {s : σ} {step : σ → ε → σ}

/-- An invariant that every event keeps as long as `C` holds gives `P` at every event. -/
theorem Along.of_invariant {I : σ → Prop} {P : σ → ε → Prop}
    (hstep : ∀ s e, I s → C s e → P s e ∧ I (step s e)) (hs : I s) (hC : Along step C s es) :
    Along step P s es := by
  induction es generalizing s with
  | nil => trivial
  | cons e es ih =>
    obtain ⟨hP, hI⟩ := hstep s e hs hC.1
    exact ⟨hP, ih hI hC.2⟩

/-- What every event keeps is there after the run. -/
theorem Along.keeps {I : σ → Prop} (hC : Along step C s es)
    (hstep : ∀ s e, I s → C s e → I (step s e)) (hs : I s) : I (es.foldl step s) := by
  induction es generalizing s with
  | nil => exact hs
  | cons e es ih => exact ih hC.2 (hstep s e hs hC.1)

theorem Along.and {D : σ → ε → Prop} (hC : Along step C s es)
    (hD : Along step D s es) : Along step (fun s e => C s e ∧ D s e) s es := by
  induction es generalizing s with
  | nil => trivial
  | cons e es ih => exact ⟨⟨hC.1, hD.1⟩, ih hC.2 hD.2⟩

theorem Along.congr {D : σ → ε → Prop} (h : ∀ s, ∀ e ∈ es, C s e ↔ D s e) (s : σ) :
    Along step C s es ↔ Along step D s es := by
  induction es generalizing s with
  | nil => exact Iff.rfl
  | cons e es ih => exact and_congr (h s e (.head _)) (ih (fun s e' he' => h s e' (.tail _ he')) _)

/-- Where an event keeps the invariant exactly if it meets `C`, so do the events of a run. -/
theorem along_iff {I : σ → Prop} (hstep : ∀ s e, I s → (I (step s e) ↔ C s e)) (hs : I s)
    (es : List ε) : Along step (fun s e => I (step s e)) s es ↔ Along step C s es := by
  induction es generalizing s with
  | nil => exact Iff.rfl
  | cons e es ih =>
    constructor
    · rintro ⟨h1, h2⟩
      exact ⟨(hstep s e hs).1 h1, (ih h1).1 h2⟩
    · rintro ⟨h1, h2⟩
      have hI := (hstep s e hs).2 h1
      exact ⟨hI, (ih hI).2 h2⟩

theorem along_append {P : σ → ε → Prop} {fs : List ε} :
    Along step P s (es ++ fs) ↔ Along step P s es ∧ Along step P (es.foldl step s) fs := by
  induction es generalizing s with
  | nil => exact ⟨fun h => ⟨trivial, h⟩, And.right⟩
  | cons e es ih => exact (and_congr_right fun _ => ih).trans and_assoc.symm

section Loop

variable {σ ρ : Type} {step : σ → σ ⊕ ρ}

/-- The loop that takes `step` over and over comes to an end with this answer; one that runs for
ever has none. -/
inductive Halts (step : σ → σ ⊕ ρ) : σ → ρ → Prop
  | stop {s : σ} {r : ρ} : step s = .inr r → Halts step s r
  | turn {s s' : σ} {r : ρ} : step s = .inl s' → Halts step s' r → Halts step s r

theorem Halts.deterministic {s : σ} {r r' : ρ} (h : Halts step s r)
    (h' : Halts step s r') : r = r' := by
  induction h with
  | stop hs =>
    cases h' with
    | stop hs' => exact Sum.inr.inj (hs.symm.trans hs')
    | turn hs' _ => cases hs.symm.trans hs'
  | turn hs _ ih =>
    cases h' with
    | stop hs' => cases hs.symm.trans hs'
    | turn hs' hrest =>
      cases Sum.inl.inj (hs.symm.trans hs')
      exact ih hrest

end Loop

end Logic

import Linuxity.Logic.Run
import Mathlib.Data.List.Forall2
import Mathlib.Tactic.Ring

/-!
# Hvf.Timers — firing the timers that are due (`runtime/darwin/timer.hpp`)

Times are nanoseconds in 64 bits.  The ticks that were missed are counted in an `int`.
-/

namespace Linuxity.Hvf.TimerSet

open List Logic

structure Entry where
  /-- Zero while the timer is disarmed. -/
  deadline : ℤ := 0
  /-- Zero for a timer that fires once. -/
  interval : ℤ := 0
  signal : ℤ := 0
  overrun : ℤ := 0
  notify : Option ℕ := none

def Entry.due (now : ℤ) (e : Entry) : Bool := e.deadline ≠ 0 ∧ e.deadline ≤ now

/-- One turn of the loop over the missed ticks. -/
def catchUp (now : ℤ) (e : Entry) : Entry ⊕ Entry :=
  let deadline := (e.deadline + e.interval).bmod (2 ^ 64)
  if deadline ≤ now then
    .inl { e with deadline := deadline, overrun := (e.overrun + 1).bmod (2 ^ 32) }
  else .inr { e with deadline := deadline }

/-- What becomes of a timer, when `P` says where a periodic one goes on. -/
def Turned (P : Entry → Entry → Prop) (now : ℤ) (e e' : Entry) : Prop :=
  if e.due now then if e.interval = 0 then e' = { e with deadline := 0 } else P e e' else e' = e

structure Fired where
  entries : List Entry := []
  signals : List ℤ := []
  notifies : List ℕ := []
  /-- When to wake up next. -/
  next : Option ℤ := none

/-- A visit to `e`, which becomes `e'`.  A timer that is disarmed, or is now, is not waited for. -/
def visit (now : ℤ) (a : Fired) : Entry × Entry → Fired
  | (e, e') =>
    { entries := a.entries ++ [e']
      signals := if e.due now ∧ e.signal ≠ 0 then a.signals ++ [e.signal] else a.signals
      notifies := if e.due now then a.notifies ++ e.notify.toList else a.notifies
      next := if e.deadline = 0 ∨ e.due now ∧ e.interval = 0 then a.next
        else if a.next.all (e'.deadline < ·) then some e'.deadline else a.next }

/-- `fire_due` on the three interval timers and then the others. -/
def FiresDue (now : ℤ) (es : List Entry) (a : Fired) : Prop :=
  ∃ es', Forall₂ (Turned (Halts (catchUp now)) now) es es' ∧ a = (es.zip es').foldl (visit now) {}

/-- The first point of the grid after `now`, with the points before it counted. -/
def OnGrid (now : ℤ) (e e' : Entry) : Prop :=
  ∃ k : ℕ, e' = { e with deadline := e.deadline + k * e.interval, overrun := e.overrun + (k - 1) } ∧
    now < e'.deadline ∧ ∀ j : ℕ, now < e.deadline + j * e.interval → k ≤ j

/-- Each timer that is due is delivered once, and no other. -/
structure Served (now : ℤ) (es : List Entry) (a : Fired) : Prop where
  entries : Forall₂ (Turned (OnGrid now) now) es a.entries
  signals : a.signals = ((es.filter (·.due now)).map (·.signal)).filter (· ≠ 0)
  notifies : a.notifies = (es.filter (·.due now)).filterMap (·.notify)

/-- The fields are in the range of their types, and no interval is negative. -/
structure Entry.InRange (e : Entry) : Prop where
  deadline : -2 ^ 63 ≤ e.deadline
  interval : 0 ≤ e.interval
  overrun : -2 ^ 31 ≤ e.overrun ∧ e.overrun < 2 ^ 31

/-- At each tick up to `now`, the next deadline and the count of missed ticks fit in their types. -/
def Entry.Fits (now : ℤ) (e : Entry) : Prop :=
  ∀ k : ℕ, e.deadline + k * e.interval ≤ now →
    e.deadline + k * e.interval + e.interval < 2 ^ 63 ∧ e.overrun + k < 2 ^ 31

variable {now : ℤ} {e e' : Entry} {es es' : List Entry} {a : Fired}

/-- The sums of a turn fit in their types.  C++ gives no meaning to a turn in which one does not. -/
structure Entry.InTypes (now : ℤ) (e : Entry) : Prop where
  deadline : -2 ^ 63 ≤ e.deadline + e.interval ∧ e.deadline + e.interval < 2 ^ 63
  overrun : e.deadline + e.interval ≤ now → -2 ^ 31 ≤ e.overrun + 1 ∧ e.overrun + 1 < 2 ^ 31

/-- The loop over the missed ticks comes to its end, without a signed overflow on the way. -/
inductive CaughtUp (now : ℤ) : Entry → Entry → Prop where
  | stop {e e' : Entry} : e.InTypes now → catchUp now e = .inr e' → CaughtUp now e e'
  | turn {e e₁ e' : Entry} :
    e.InTypes now → catchUp now e = .inl e₁ → CaughtUp now e₁ e' → CaughtUp now e e'

theorem CaughtUp.halts (h : CaughtUp now e e') : Halts (catchUp now) e e' := by
  induction h with
  | stop _ hs => exact .stop hs
  | turn _ hs _ ih => exact .turn hs ih

/-- A turn in which nothing overflows. -/
theorem catchUp_eq (h : e.InTypes now) : catchUp now e =
    if e.deadline + e.interval ≤ now
    then .inl { e with deadline := e.deadline + e.interval, overrun := e.overrun + 1 }
    else .inr { e with deadline := e.deadline + e.interval } := by
  obtain ⟨hd, ho⟩ := h
  dsimp only [catchUp]
  rw [Int.bmod_eq_of_le (by omega) (by omega)]
  split_ifs with hle
  · rw [Int.bmod_eq_of_le (by have := ho hle; omega) (by have := ho hle; omega)]
  · rfl

theorem catchUp_done {k : ℕ} (he : e.InRange) (hle : e.deadline + k * e.interval ≤ now)
    (hlt : now < e.deadline + k * e.interval + e.interval)
    (hfit : e.deadline + k * e.interval + e.interval < 2 ^ 63 ∧ e.overrun + k < 2 ^ 31) :
    CaughtUp now e { e with
      deadline := e.deadline + k * e.interval + e.interval, overrun := e.overrun + k } := by
  obtain ⟨hd, hi, ho, -⟩ := he
  induction k generalizing e with
  | zero =>
    simp only [Nat.cast_zero, zero_mul, add_zero] at hlt hfit ⊢
    have hin : e.InTypes now := ⟨by omega, by omega⟩
    exact .stop hin ((catchUp_eq hin).trans (if_neg (by omega)))
  | succ k ih =>
    have hk : 0 ≤ k * e.interval := Int.mul_nonneg (by omega) hi
    rw [Nat.cast_succ, add_mul, one_mul] at hle hlt hfit ⊢
    have hrest := @ih { e with deadline := e.deadline + e.interval, overrun := e.overrun + 1 }
    dsimp only at hrest
    rw [show e.deadline + (k * e.interval + e.interval) = e.deadline + e.interval + k * e.interval
        by ring,
      show e.overrun + ((k : ℤ) + 1) = e.overrun + 1 + k by ring] at *
    have hin : e.InTypes now := ⟨by omega, by omega⟩
    refine .turn hin ((catchUp_eq hin).trans (if_pos (by omega))) ?_
    exact hrest hle hlt hfit (by omega) hi (by omega)

theorem catchUp_range (h : Halts (catchUp now) e e') (ho : e.overrun < 2 ^ 31) :
    e'.deadline < 2 ^ 63 ∧ e'.overrun < 2 ^ 31 := by
  induction h with
  | stop hs =>
    dsimp only [catchUp] at hs
    split_ifs at hs
    cases hs
    exact ⟨Int.bmod_lt (by decide), ho⟩
  | turn hs _ ih =>
    dsimp only [catchUp] at hs
    split_ifs at hs
    cases hs
    exact ih (Int.bmod_lt (by decide))

theorem first_tick {d i : ℤ} (hi : 0 < i) (hd : d ≤ now) :
    ∃ k : ℕ, d + k * i ≤ now ∧ now < d + k * i + i := by
  obtain ⟨k, hk⟩ :=
    Int.eq_ofNat_of_zero_le (Int.ediv_nonneg (by omega : 0 ≤ now - d) (by omega : 0 ≤ i))
  have hle := Int.ediv_mul_le (now - d) (by omega : i ≠ 0)
  have hlt := Int.lt_ediv_add_one_mul_self (now - d) hi
  rw [hk] at hle hlt
  rw [add_mul, one_mul] at hlt
  exact ⟨k, by omega, by omega⟩

theorem tick_lt {d i : ℤ} {j k : ℕ} (hi : 0 ≤ i) (h : d + j * i < d + k * i) : j < k := by
  by_contra hle
  have := Int.mul_le_mul_of_nonneg_right (by omega : (k : ℤ) ≤ j) hi
  omega

/-- **One timer** goes where it should if its fields stay in range on the way. -/
theorem turned_iff (he : e.InRange) :
    (∃ e', Turned (Halts (catchUp now)) now e e' ∧ Turned (OnGrid now) now e e') ↔
      (e.due now → e.interval ≠ 0 → e.Fits now) := by
  unfold Turned
  by_cases hdue : e.due now
  · by_cases hi : e.interval = 0
    · simp [hdue, hi]
    · simp only [hdue, hi, if_true, if_false]
      have hpos := he.interval
      constructor
      · rintro ⟨_, hr, k, rfl, hlt, -⟩ - - j hj
        obtain ⟨hd, ho⟩ := catchUp_range hr he.overrun.2
        dsimp only at hd ho hlt
        have hjk := tick_lt hpos (hj.trans_lt hlt)
        have := Int.mul_le_mul_of_nonneg_right (by omega : ((j + 1 : ℕ) : ℤ) ≤ k) hpos
        rw [Nat.cast_succ, add_mul, one_mul] at this
        omega
      · intro hfit
        obtain ⟨k, hle, hlt⟩ := first_tick (i := e.interval) (by omega) (of_decide_eq_true hdue).2
        refine ⟨_, (catchUp_done he hle hlt (hfit trivial hi k hle)).halts, k + 1, ?_, hlt, ?_⟩
        · rw [Nat.cast_succ, add_mul, one_mul, add_assoc, add_sub_cancel_right]
        · exact fun j hj => tick_lt hpos (hle.trans_lt hj)
  · simp [hdue]

theorem foldl_visit {R : Entry → Entry → Prop} (h : Forall₂ R es es') (a : Fired) :
    ((es.zip es').foldl (visit now) a).entries = a.entries ++ es' ∧
      ((es.zip es').foldl (visit now) a).signals =
        a.signals ++ ((es.filter (·.due now)).map (·.signal)).filter (· ≠ 0) ∧
      ((es.zip es').foldl (visit now) a).notifies =
        a.notifies ++ (es.filter (·.due now)).filterMap (·.notify) := by
  induction h generalizing a with
  | nil => simp
  | @cons e e' _ _ _ _ ih =>
    obtain ⟨h1, h2, h3⟩ := ih (visit now a (e, e'))
    rw [zip_cons_cons, foldl_cons, h1, h2, h3]
    refine ⟨append_cons .. |>.symm, ?_, ?_⟩
    · by_cases hdue : e.due now
      · by_cases hs : e.signal = 0
        · simp [visit, hdue, hs]
        · simp [visit, hdue, hs]
      · simp [visit, hdue]
    · by_cases hdue : e.due now
      · cases hn : e.notify with
        | none => simp [visit, hdue, hn]
        | some x => simp [visit, hdue, hn]
      · simp [visit, hdue]

/-- What is left of the timers, one by one. -/
theorem exists_firesDue_iff {P : Entry → Entry → Prop} :
    (∃ a, FiresDue now es a ∧ Forall₂ P es a.entries) ↔
      ∀ e ∈ es, ∃ e', Turned (Halts (catchUp now)) now e e' ∧ P e e' := by
  constructor
  · rintro ⟨a, ⟨es', hr, rfl⟩, hP⟩ e he
    rw [(foldl_visit hr _).1] at hP
    obtain ⟨i, hi, rfl⟩ := mem_iff_getElem.1 he
    exact ⟨_, hr.get hi (hr.length_eq ▸ hi), hP.get hi (hr.length_eq ▸ hi)⟩
  · intro h
    choose! f hf using h
    have hall :
        Forall₂ (fun e e' => Turned (Halts (catchUp now)) now e e' ∧ P e e') es (es.map f) :=
      forall₂_map_right_iff.2 (forall₂_same.2 hf)
    refine ⟨_, ⟨_, hall.imp fun _ _ h => h.1, rfl⟩, ?_⟩
    rw [(foldl_visit hall {}).1]
    exact hall.imp fun _ _ h => h.2

theorem fits_of_served (hes : ∀ e ∈ es, e.InRange) (h : FiresDue now es a) (hs : Served now es a)
    (he : e ∈ es) : e.due now → e.interval ≠ 0 → e.Fits now :=
  (turned_iff (hes e he)).1 (exists_firesDue_iff.1 ⟨a, h, hs.entries⟩ e he)

theorem fire_due_keeps_grid_iff (now : ℤ) (es : List Entry) (hes : ∀ e ∈ es, e.InRange) :
    (∃ a, FiresDue now es a ∧ Served now es a) ↔
      ∀ e ∈ es, e.due now → e.interval ≠ 0 → e.Fits now := by
  refine ⟨fun ⟨_, h, hs⟩ _ he => fits_of_served hes h hs he, fun hfit => ?_⟩
  obtain ⟨_, ⟨es', hr, rfl⟩, hgrid⟩ :=
    exists_firesDue_iff.2 fun e he => (turned_iff (hes e he)).2 (hfit e he)
  obtain ⟨-, h2, h3⟩ := @foldl_visit now es es' _ hr {}
  exact ⟨_, ⟨es', hr, rfl⟩, hgrid, h2, h3⟩

theorem fire_due_keeps_grid_iff_late :
    ∃ a, FiresDue 10 [⟨3, 2, 14, 0, none⟩] a ∧ Served 10 [⟨3, 2, 14, 0, none⟩] a := by
  refine (fire_due_keeps_grid_iff _ _ ?_).2 ?_
  · simpa using ⟨by decide, by decide, by decide⟩
  · rw [forall_mem_singleton]
    intro _ _ k hk
    dsimp only at *
    omega

/-- A timer of one nanosecond that is looked at after two seconds. -/
theorem overrun_wraps : ¬∃ a, FiresDue (2 ^ 31 + 1) [⟨1, 1, 14, 0, none⟩] a ∧
    Served (2 ^ 31 + 1) [⟨1, 1, 14, 0, none⟩] a := by
  rintro ⟨a, h, hs⟩
  have hes : ∀ e ∈ [(⟨1, 1, 14, 0, none⟩ : Entry)], e.InRange := by
    simpa using ⟨by decide, by decide, by decide⟩
  exact absurd
    (fits_of_served hes h hs (mem_singleton_self _) rfl (by decide) (2 ^ 31) (by decide)).2
    (by decide)

/-! ## Servicing comes to an end -/

/-- The timers that are due are serviced, without an overflow, and none is left that is due. -/
def Settles (now : ℤ) (es : List Entry) : Prop :=
  ∃ a, FiresDue now es a ∧
    Forall₂ (fun e e' => Turned (CaughtUp now) now e e' ∧ ¬e'.due now) es a.entries

/-- The deadline and the count are values of their types. -/
structure Entry.Stored (e : Entry) : Prop where
  deadline : -2 ^ 63 ≤ e.deadline
  overrun : -2 ^ 31 ≤ e.overrun ∧ e.overrun < 2 ^ 31

/-- Going on in steps of the interval leads past `now`, and every step up to there fits. -/
structure Entry.Leaves (now : ℤ) (e : Entry) : Prop where
  forward : 0 < e.interval
  fits : e.Fits now

theorem caughtUp_leaves (h : CaughtUp now e e') (ho : e.overrun < 2 ^ 31) (hle : e.deadline ≤ now) :
    e.Leaves now ∧ now < e'.deadline := by
  induction h with
  | @stop e _ hin hs =>
    rw [catchUp_eq hin] at hs
    split_ifs at hs with hpast
    cases hs
    obtain ⟨hd, -⟩ := hin
    refine ⟨⟨by omega, fun k hk => ?_⟩, not_le.1 hpast⟩
    -- the loop ends at its first turn, so no later tick is in the past
    have hk0 : k = 0 := by
      have hlt :=
        tick_lt (d := e.deadline) (i := e.interval) (j := k) (k := 1) (by omega) (by omega)
      omega
    subst hk0
    omega
  | @turn e e₁ _ hin hs _ ih =>
    rw [catchUp_eq hin] at hs
    split_ifs at hs with hpast
    cases hs
    obtain ⟨hd, hover⟩ := hin
    obtain ⟨⟨hpos, hfits⟩, hend⟩ := ih (hover hpast).2 hpast
    refine ⟨⟨hpos, fun k hk => ?_⟩, hend⟩
    cases k with
    | zero =>
      rw [Nat.cast_zero, zero_mul]
      omega
    | succ k =>
      have hstep := hfits k
      dsimp only at hstep
      push_cast at hk ⊢
      rw [add_mul, one_mul] at hk ⊢
      have := hstep (by omega)
      omega

/-- **One timer** is serviced as it should exactly if it can leave the past. -/
theorem turned_leaves_iff (he : e.Stored) :
    (∃ e', Turned (Halts (catchUp now)) now e e' ∧ Turned (CaughtUp now) now e e' ∧ ¬e'.due now) ↔
      (e.due now → e.interval ≠ 0 → e.Leaves now) := by
  unfold Turned
  by_cases hdue : e.due now
  · have hle : e.deadline ≤ now := (of_decide_eq_true hdue).2
    by_cases hi : e.interval = 0
    · simp only [hdue, hi, if_true]
      exact iff_of_true ⟨_, rfl, rfl, by simp [Entry.due]⟩ fun _ h => absurd rfl h
    · simp only [hdue, hi, if_true, if_false]
      constructor
      · rintro ⟨e', -, h, -⟩ - -
        exact (caughtUp_leaves h he.overrun.2 hle).1
      · intro h
        obtain ⟨hpos, hfit⟩ := h trivial hi
        obtain ⟨k, hk, hlt⟩ := first_tick hpos hle
        have hdone := catchUp_done ⟨he.deadline, hpos.le, he.overrun⟩ hk hlt (hfit k hk)
        refine ⟨_, hdone.halts, hdone, fun h => ?_⟩
        exact (caughtUp_leaves hdone he.overrun.2 hle).2.not_ge (of_decide_eq_true h).2
  · simp [hdue]

/-- **Servicing comes to an end** and leaves no timer due exactly if every periodic timer that is
due has a positive interval and fits in its types until it is past `now`. -/
theorem servicing_ends_iff (now : ℤ) (es : List Entry) (hes : ∀ e ∈ es, e.Stored) :
    Settles now es ↔ ∀ e ∈ es, e.due now → e.interval ≠ 0 → e.Leaves now :=
  exists_firesDue_iff.trans (forall₂_congr fun e he => turned_leaves_iff (hes e he))

/-- A periodic timer that is late, and one with a negative interval that is not due yet. -/
theorem servicing_ends_iff_late : Settles 10 [⟨3, 2, 14, 0, none⟩, ⟨12, -1, 14, 0, none⟩] := by
  refine (servicing_ends_iff _ _ ?_).2 ?_
  · simpa using ⟨⟨by decide, by decide⟩, ⟨by decide, by decide⟩⟩
  · simp only [forall_mem_cons, not_mem_nil, false_imp_iff, implies_true, and_true]
    refine ⟨fun _ _ => ⟨by decide, fun k hk => ?_⟩, fun h => absurd h (by decide)⟩
    dsimp only at *
    omega

/-- With an interval of −2⁶³ ns the deadline only ever goes back. -/
theorem endless_catch_up : ¬Settles (2 ^ 40) [⟨1, -2 ^ 63, 14, 0, none⟩] := by
  intro h
  have hleaves := (turned_leaves_iff ⟨by decide, by decide⟩).1
    (exists_firesDue_iff.1 h _ (mem_singleton_self _)) rfl (by decide)
  exact absurd hleaves.forward (by decide)

end Linuxity.Hvf.TimerSet

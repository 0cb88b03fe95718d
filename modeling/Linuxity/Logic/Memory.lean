import Mathlib.Algebra.Order.Group.Nat
import Mathlib.Data.List.Induction
import Mathlib.Data.Nat.Bitwise
import Mathlib.Tactic.Ring

/-!
# Logic.Memory — words in a byte memory

A memory gives a byte for every address.  A word is eight bytes, the lowest first.
-/

namespace Logic

open List

abbrev Memory := ℕ → UInt8

def numAt (m : Memory) : ℕ → ℕ → ℕ
  | _, 0 => 0
  | a, k + 1 => (m a).toNat + 256 * numAt m (a + 1) k

def word (m : Memory) (a : ℕ) : ℕ := numAt m a 8

def putWord (m : Memory) (a v : ℕ) : Memory :=
  fun b => if a ≤ b ∧ b < a + 8 then UInt8.ofNat (v / 256 ^ (b - a)) else m b

def zeroed (m : Memory) (a n : ℕ) : Memory := fun b => if a ≤ b ∧ b < a + n then 0 else m b

def putBytes (m : Memory) (a : ℕ) (bs : List UInt8) : Memory :=
  fun b => if a ≤ b then (bs[b - a]?).getD (m b) else m b

variable {m m' : Memory} {a b k n v : ℕ}

theorem numAt_congr (h : ∀ b, a ≤ b → b < a + k → m' b = m b) : numAt m' a k = numAt m a k := by
  induction k generalizing a with
  | zero => rfl
  | succ k ih =>
    rw [numAt, numAt, h a le_rfl (by omega), ih fun b h1 h2 => h b (by omega) (by omega)]

theorem word_congr (h : ∀ b, a ≤ b → b < a + 8 → m' b = m b) : word m' a = word m a := numAt_congr h

theorem numAt_eq_mod (h : ∀ i < k, m (a + i) = UInt8.ofNat (v / 256 ^ i)) :
    numAt m a k = v % 256 ^ k := by
  induction k generalizing a v with
  | zero => rw [numAt, pow_zero, Nat.mod_one]
  | succ k ih =>
    have htail : ∀ i < k, m (a + 1 + i) = UInt8.ofNat (v / 256 / 256 ^ i) := by
      intro i hi
      rw [show a + 1 + i = a + (i + 1) by omega, h (i + 1) (by omega), Nat.div_div_eq_div_mul,
        pow_succ']
    have hhead : (m a).toNat = v % 256 := by
      have := h 0 (by omega)
      rw [pow_zero, Nat.div_one] at this
      rw [← Nat.add_zero a, this]
      exact UInt8.toNat_ofNat'
    rw [numAt, ih htail, hhead, pow_succ', Nat.mod_mul]

theorem word_lt (m : Memory) (a : ℕ) : word m a < 2 ^ 64 := by
  have hlt : ∀ k a, numAt m a k < 256 ^ k := by
    intro k
    induction k with
    | zero => exact fun _ => Nat.one_pos
    | succ k ih =>
      intro a
      have := (m a).toNat_lt
      have := ih (a + 1)
      rw [numAt, pow_succ']
      omega
  exact hlt 8 a

theorem word_putWord (hv : v < 2 ^ 64) : word (putWord m a v) a = v := by
  have h : numAt (putWord m a v) a 8 = v % 256 ^ 8 := by
    refine numAt_eq_mod fun i hi => ?_
    rw [putWord, if_pos ⟨by omega, by omega⟩, Nat.add_sub_cancel_left]
  exact h.trans (Nat.mod_eq_of_lt hv)

theorem putWord_of_apart (h : b < a ∨ a + 8 ≤ b) : putWord m a v b = m b := if_neg (by omega)

theorem word_putWord_of_apart (h : a + 8 ≤ b ∨ b + 8 ≤ a) : word (putWord m a v) b = word m b :=
  word_congr fun _ h1 h2 => putWord_of_apart (by omega)

theorem zeroed_of_mem (h : a ≤ b) (h' : b < a + n) : zeroed m a n b = 0 := if_pos ⟨h, h'⟩

theorem zeroed_of_apart (h : b < a ∨ a + n ≤ b) : zeroed m a n b = m b := if_neg (by omega)

theorem word_zeroed (h : a ≤ b) (h' : b + 8 ≤ a + n) : word (zeroed m a n) b = 0 := by
  have hz : numAt (zeroed m a n) b 8 = 0 % 256 ^ 8 := by
    refine numAt_eq_mod fun i hi => ?_
    rw [zeroed_of_mem (by omega) (by omega), Nat.zero_div]
    rfl
  exact hz

theorem putBytes_of_mem {bs : List UInt8} (h : a ≤ b) (h' : b < a + bs.length) :
    some (putBytes m a bs b) = bs[b - a]? := by
  rw [putBytes, if_pos h, List.getElem?_eq_getElem (by omega), Option.getD_some]

theorem putBytes_of_apart {bs : List UInt8} (h : b < a ∨ a + bs.length ≤ b) :
    putBytes m a bs b = m b := by
  rw [putBytes]
  split_ifs with hle
  · rw [List.getElem?_eq_none (by omega), Option.getD_none]
  · rfl

/-! ## Words in tables -/

theorem or_low {a b : ℕ} (ha : a % 4096 = 0) (hb : b < 4096) : a ||| b = a + b := by
  have := Nat.two_pow_add_eq_or_of_lt (i := 12) hb (a / 2 ^ 12)
  rw [show 2 ^ 12 * (a / 2 ^ 12) = a by omega] at this
  exact this.symm

/-- Words that are stored at their own places, one after the other. -/
def putWords (m : Memory) (ws : List (ℕ × ℕ)) : Memory := ws.foldl (fun m w => putWord m w.1 w.2) m

theorem putWords_append (m : Memory) (ws ws' : List (ℕ × ℕ)) :
    putWords m (ws ++ ws') = putWords (putWords m ws) ws' :=
  foldl_append ..

theorem word_putWords_of_apart {ws : List (ℕ × ℕ)} (h : ∀ w ∈ ws, w.1 + 8 ≤ a ∨ a + 8 ≤ w.1) :
    word (putWords m ws) a = word m a := by
  induction ws generalizing m with
  | nil => rfl
  | cons w ws ih =>
    obtain ⟨hw, hws⟩ := forall_mem_cons.1 h
    exact (ih hws).trans (word_putWord_of_apart hw)

/-- A word that has one value only among those stored. -/
theorem word_putWords {ws : List (ℕ × ℕ)} (hws : ∀ w ∈ ws, w.1 % 8 = 0 ∧ w.2 < 2 ^ 64)
    (hmem : (a, v) ∈ ws) (hone : ∀ u, (a, u) ∈ ws → u = v) : word (putWords m ws) a = v := by
  induction ws using List.reverseRecOn with
  | nil => cases hmem
  | append_singleton ws w ih =>
    have hw := hws w (mem_append_right _ mem_cons_self)
    rw [putWords_append]
    show word (putWord _ w.1 w.2) a = v
    by_cases haw : w.1 = a
    · have hv : w.2 = v := hone w.2 (mem_append_right _ (mem_singleton.2 (by rw [← haw])))
      rw [haw, hv]
      exact word_putWord (hv ▸ hw.2)
    · have hold : (a, v) ∈ ws := by
        obtain h | h := mem_append.1 hmem
        · exact h
        · exact absurd (congrArg Prod.fst (mem_singleton.1 h)).symm haw
      have ha := (hws _ (mem_append_left _ hold)).1
      rw [word_putWord_of_apart (by dsimp only at ha; omega)]
      exact ih (fun w' h => hws w' (mem_append_left _ h)) hold
        fun u h => hone u (mem_append_left _ h)

end Logic

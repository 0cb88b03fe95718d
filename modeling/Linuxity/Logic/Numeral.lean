import Mathlib.Algebra.Group.Nat.Defs
import Mathlib.Tactic.SplitIfs

/-!
# Logic.Numeral — numbers printed and scanned in a base up to ten
-/

namespace Logic

open List

def digitChar (d : ℕ) : Char := Char.ofNat (48 + d)

def isDigitOf (b : ℕ) (c : Char) : Bool := 48 ≤ c.toNat && c.toNat < 48 + b

/-- The digits of `n` in front of `acc`; `fuel` is more than there are of them. -/
def printOn (b : ℕ) : ℕ → ℕ → List Char → List Char
  | 0, _, acc => acc
  | fuel + 1, n, acc =>
    if n / b = 0 then digitChar (n % b) :: acc
    else printOn b fuel (n / b) (digitChar (n % b) :: acc)

def printNum (b n : ℕ) : List Char := printOn b (n + 1) n []

/-- The number that digits stand for, after the number `v`. -/
def valueFrom (b v : ℕ) (cs : List Char) : ℕ := cs.foldl (fun v c => v * b + (c.toNat - 48)) v

section Print

variable {b : ℕ}

theorem toNat_digitChar {d : ℕ} (h : d < 10) : (digitChar d).toNat = 48 + d := by
  have hall : ∀ d < 10, (digitChar d).toNat = 48 + d := by decide
  exact hall d h

/-- What is printed is a number of digits, and they stand for the number. -/
theorem printOn_spec (h2 : 2 ≤ b) (h10 : b ≤ 10) {fuel n : ℕ} (hfuel : n < fuel) (acc : List Char) :
    ∃ ds, printOn b fuel n acc = ds ++ acc ∧ ds ≠ [] ∧ (∀ c ∈ ds, isDigitOf b c) ∧
      valueFrom b 0 ds = n := by
  induction fuel generalizing n acc with
  | zero => exact absurd hfuel (Nat.not_lt_zero n)
  | succ fuel ih =>
    have hmod : n % b < b := Nat.mod_lt _ (by omega)
    have hchar := toNat_digitChar (show n % b < 10 by omega)
    have hdigit : isDigitOf b (digitChar (n % b)) := by
      rw [isDigitOf, hchar, Bool.and_eq_true, decide_eq_true_eq, decide_eq_true_eq]
      omega
    have hdiv := Nat.div_add_mod n b
    rw [printOn]
    split_ifs with h0
    · refine ⟨[digitChar (n % b)], rfl, cons_ne_nil _ _, fun c hc => mem_singleton.1 hc ▸ hdigit,
        ?_⟩
      rw [valueFrom, foldl_cons, foldl_nil, hchar]
      rw [h0] at hdiv
      omega
    · have hless : n / b < n :=
        Nat.div_lt_self (Nat.pos_of_ne_zero fun hn => h0 (by rw [hn, Nat.zero_div])) (by omega)
      obtain ⟨ds, hds, -, hall, hval⟩ := ih (n := n / b) (by omega) (digitChar (n % b) :: acc)
      refine ⟨ds ++ [digitChar (n % b)], ?_, append_ne_nil_of_right_ne_nil _ (cons_ne_nil _ _),
        fun c hc => ?_, ?_⟩
      · rw [hds, append_assoc]
        rfl
      · obtain hc | hc := mem_append.1 hc
        · exact hall c hc
        · exact mem_singleton.1 hc ▸ hdigit
      · rw [valueFrom] at hval ⊢
        rw [foldl_append, hval, foldl_cons, foldl_nil, hchar, Nat.mul_comm]
        omega

theorem printNum_spec (h2 : 2 ≤ b) (h10 : b ≤ 10) (n : ℕ) :
    printNum b n ≠ [] ∧ (∀ c ∈ printNum b n, isDigitOf b c) ∧ valueFrom b 0 (printNum b n) = n := by
  obtain ⟨ds, hds, hne, hall, hval⟩ := printOn_spec h2 h10 (Nat.lt_succ_self n) []
  rw [printNum, hds, append_nil]
  exact ⟨hne, hall, hval⟩

end Print

/-! ## Scanning as `sscanf` does -/

def isSpace (c : Char) : Bool := c == ' ' || (9 ≤ c.toNat && c.toNat ≤ 13)

def skipSpace (cs : List Char) : List Char := cs.dropWhile isSpace

def scanSign : List Char → Bool × List Char
  | '-' :: cs => (true, cs)
  | '+' :: cs => (false, cs)
  | cs => (false, cs)

/-- A number that is too large counts as the largest `unsigned long`, and is cut to 32 bits. -/
def toUnsigned (negative : Bool) (v : ℕ) : ℕ :=
  let v := if 2 ^ 64 ≤ v then 2 ^ 64 - 1 else v
  (if negative then 2 ^ 64 - v else v) % 2 ^ 32

def scanUnsigned (b : ℕ) (cs : List Char) : Option (ℕ × List Char) :=
  let (negative, cs) := scanSign (skipSpace cs)
  if cs.takeWhile (isDigitOf b) = [] then none
  else some (toUnsigned negative (valueFrom b 0 (cs.takeWhile (isDigitOf b))),
    cs.dropWhile (isDigitOf b))

section Scan

variable {b : ℕ} {cs rest : List Char}

theorem not_isSpace_of_digit {c : Char} (h : isDigitOf b c) :
    isSpace c = false ∧ c ≠ '-' ∧ c ≠ '+' := by
  rw [isDigitOf, Bool.and_eq_true, decide_eq_true_eq] at h
  refine ⟨?_, ?_, ?_⟩
  · rw [isSpace, Bool.or_eq_false_iff, beq_eq_false_iff_ne, Bool.and_eq_false_iff]
    refine ⟨?_, .inr (decide_eq_false (by omega))⟩
    rintro rfl
    exact absurd h.1 (by decide)
  · rintro rfl
    exact absurd h.1 (by decide)
  · rintro rfl
    exact absurd h.1 (by decide)

theorem scanSign_of_digit {c : Char} (h : isDigitOf b c) (cs : List Char) :
    scanSign (skipSpace (c :: cs)) = (false, c :: cs) := by
  obtain ⟨hspace, hminus, hplus⟩ := not_isSpace_of_digit h
  rw [skipSpace, dropWhile_cons_of_neg (by rw [hspace]; exact Bool.false_ne_true)]
  unfold scanSign
  split
  · rename_i heq
    exact absurd (List.cons.inj heq).1 hminus
  · rename_i heq
    exact absurd (List.cons.inj heq).1 hplus
  · rfl

/-- A printed number is scanned back, up to what is no digit. -/
theorem scanUnsigned_print (h2 : 2 ≤ b) (h10 : b ≤ 10) {n : ℕ} (hn : n < 2 ^ 32)
    (hrest : ∀ c ∈ rest.head?, isDigitOf b c = false) :
    scanUnsigned b (printNum b n ++ rest) = some (n, rest) := by
  obtain ⟨hne, hall, hval⟩ := printNum_spec h2 h10 n
  have hstop : rest.takeWhile (isDigitOf b) = [] ∧ rest.dropWhile (isDigitOf b) = rest := by
    rcases rest with _ | ⟨c, rest⟩
    · exact ⟨rfl, rfl⟩
    · have hc := hrest c rfl
      exact ⟨takeWhile_cons_of_neg (by rw [hc]; exact Bool.false_ne_true),
        dropWhile_cons_of_neg (by rw [hc]; exact Bool.false_ne_true)⟩
  have htake : (printNum b n ++ rest).takeWhile (isDigitOf b) = printNum b n := by
    rw [takeWhile_append_of_pos hall, hstop.1, append_nil]
  have hdrop : (printNum b n ++ rest).dropWhile (isDigitOf b) = rest := by
    rw [dropWhile_append_of_pos hall, hstop.2]
  have hsign : scanSign (skipSpace (printNum b n ++ rest)) = (false, printNum b n ++ rest) := by
    rcases hp : printNum b n with _ | ⟨c, ds⟩
    · exact absurd hp hne
    · exact scanSign_of_digit (hall c (hp ▸ mem_cons_self)) _
  rw [scanUnsigned, hsign]
  dsimp only
  have hsmall : ¬2 ^ 64 ≤ n := by omega
  rw [htake, if_neg hne, hdrop, hval, toUnsigned, if_neg hsmall, if_neg Bool.false_ne_true,
    Nat.mod_eq_of_lt hn]

end Scan

end Logic

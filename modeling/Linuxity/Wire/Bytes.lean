import Linuxity.Posix.Path
import Mathlib.Tactic.Ring

/-!
# Wire.Bytes — numbers as little-endian bytes

A byte is a character below 256, as in `Posix.Str`.
-/

namespace Linuxity.Wire

open Posix

/-- The low `k` bytes of `n`, the lowest first. -/
def le : Nat → Nat → Str
  | 0, _ => []
  | k + 1, n => Char.ofNat (n % 256) :: le k (n / 256)

/-- The number that bytes stand for, the lowest first. -/
def unle : Str → Nat
  | [] => 0
  | c :: s => c.toNat % 256 + 256 * unle s

@[simp] theorem length_le (k n : Nat) : (le k n).length = k := by
  induction k generalizing n with
  | zero => rfl
  | succ k ih => rw [le, List.length_cons, ih]

theorem toNat_ofNat_byte {n : Nat} (h : n < 256) : (Char.ofNat n).toNat = n := by
  have hv : n.isValidChar := .inl (by omega)
  rw [Char.ofNat, dif_pos hv]
  rfl

/-- What is read back is the number, up to the bytes that were written. -/
theorem unle_le (k n : Nat) : unle (le k n) = n % 256 ^ k := by
  induction k generalizing n with
  | zero => simp [le, unle, Nat.mod_one]
  | succ k ih =>
    rw [le, unle, ih, toNat_ofNat_byte (Nat.mod_lt _ (by decide)), Nat.mod_mod, pow_succ',
      Nat.mod_mul]

theorem unle_lt (s : Str) : unle s < 256 ^ s.length := by
  induction s with
  | nil => simp [unle]
  | cons c s ih =>
    rw [unle, List.length_cons, pow_succ']
    omega

theorem unle_le_of_lt {k n : Nat} (h : n < 256 ^ k) : unle (le k n) = n := by
  rw [unle_le, Nat.mod_eq_of_lt h]

end Linuxity.Wire

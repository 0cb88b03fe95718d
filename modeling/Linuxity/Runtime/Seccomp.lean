import Linuxity.Logic.Bpf
import Mathlib.Tactic.SplitIfs

/-!
# Runtime.Seccomp — the filter that stops the guest at its trapped calls (`seccomp_filter.hpp`)
-/

namespace Linuxity.Runtime.Seccomp

open Logic.Bpf List

/-- `offsetof(seccomp_data, nr)`. -/
def nrOffset : ℕ := 0

/-- `offsetof(seccomp_data, arch)`. -/
def archOffset : ℕ := 4

def retErrno : UInt32 := 0x00050000

def retTrace : UInt32 := 0x7ff00000

def retAllow : UInt32 := 0x7fff0000

def kEnosys : UInt32 := retErrno ||| 38

def kX32Bit : UInt32 := 0x40000000

/-- What the filter takes from the host: its audit arch, whether it has the x32 personality, and the
numbers from `io_uring_setup` to `io_uring_register` if it has those. -/
structure Host where
  arch : UInt32
  x32 : Bool
  uring : Option (UInt32 × UInt32)

variable (h : Host) (trapped : List UInt32)

def Host.nGates : ℕ := (if h.x32 then 1 else 0) + (if h.uring.isSome then 2 else 0)

def Host.firstJeq : ℕ := 4 + h.nGates

/-- The distance from an instruction to the last leaf, before it is cut to 8 bits. -/
def Host.toEnosys (n idx : ℕ) : ℕ := h.firstJeq + n + 2 - idx - 1

/-- The distance from the `i`th comparison to the TRACE leaf. -/
def toTrace (n i : ℕ) : ℕ := (n - 1 - i) + 1

def loads : List Insn := [.ldAbs archOffset, .jmp .jeq h.arch 1 0, .ret kEnosys, .ldAbs nrOffset]

def x32Gate (n : ℕ) : List Insn :=
  if h.x32 then [.jmp .jge kX32Bit (.ofNat (h.toEnosys n (loads h).length)) 0] else []

def uringGate (n : ℕ) : List Insn :=
  match h.uring with
  | none => []
  | some (setup, register) =>
    [.jmp .jge setup 0 1,
      .jmp .jgt register 0 (.ofNat (h.toEnosys n ((loads h ++ x32Gate h n).length + 1)))]

def compares : List Insn :=
  trapped.zipIdx.map fun (nr, i) => .jmp .jeq nr (.ofNat (toTrace trapped.length i)) 0

def leaves : List Insn := [.ret retAllow, .ret retTrace, .ret kEnosys]

/-- The program that `install_trap_filter` emits. -/
def trapFilter : List Insn :=
  loads h ++ x32Gate h trapped.length ++ uringGate h trapped.length ++ compares trapped ++ leaves

/-- The two words of the data that the filter reads. -/
def seccompData (arch nr : UInt32) (off : ℕ) : UInt32 := if off = archOffset then arch else nr

/-- What is to be done with a call. -/
def decision (arch nr : UInt32) : UInt32 :=
  if arch ≠ h.arch then kEnosys
  else if h.x32 ∧ kX32Bit ≤ nr then kEnosys
  else if ∃ r ∈ h.uring, r.1 ≤ nr ∧ nr ≤ r.2 then kEnosys
  else if nr ∈ trapped then retTrace
  else retAllow

theorem toNat_ofNat {d : ℕ} (h : d < 256) : (UInt8.ofNat d).toNat = d := UInt8.toNat_ofNat_of_lt' h

section Filter

variable {data : ℕ → UInt32} {h : Host} {trapped : List UInt32} {a : UInt32}

theorem run_compares (trapped : List UInt32) (n i : ℕ) (hn : n = i + trapped.length)
    (hfit : n < 256) :
    run data ((trapped.zipIdx i).map (fun (nr, i) => Insn.jmp .jeq nr (.ofNat (toTrace n i)) 0) ++
        leaves) a = some (if a ∈ trapped then retTrace else retAllow) := by
  induction trapped generalizing i with
  | nil => exact run_ret
  | cons nr trapped ih =>
    rw [zipIdx_cons, map_cons, cons_append]
    rw [length_cons] at hn
    by_cases ha : a = nr
    · -- over the rest of the chain and the ALLOW leaf
      have hlen :
          ((trapped.zipIdx (i + 1)).map (fun (nr, i) =>
            Insn.jmp .jeq nr (.ofNat (toTrace n i)) 0) ++ [Insn.ret retAllow]).length =
          toTrace n i := by
        rw [length_append, length_map, length_zipIdx, toTrace]
        simp only [length_cons, length_nil]
        omega
      have hsplit : leaves = [Insn.ret retAllow] ++ [.ret retTrace, .ret kEnosys] := rfl
      rw [hsplit, ← append_assoc, run_jmp_over, run_ret, if_pos (ha ▸ mem_cons_self)]
      rw [ha, show Test.holds .jeq nr nr from beq_self_eq_true nr, if_pos rfl, hlen]
      exact toNat_ofNat (by rw [toTrace]; omega)
    · rw [run_jmp_next, ih (i + 1) (by omega)]
      · simp only [mem_cons, ha, false_or]
      · rw [show Test.holds .jeq a nr = false from beq_false_of_ne ha]
        rfl

theorem run_loads (arch nr : UInt32) (rest : List Insn) :
    run (seccompData arch nr) (loads h ++ rest) a =
      if arch = h.arch then run (seccompData arch nr) rest nr else some kEnosys := by
  have harch : seccompData arch nr archOffset = arch := rfl
  have hnr : seccompData arch nr nrOffset = nr := rfl
  rw [loads, cons_append, run_ldAbs, harch, cons_append, run_jmp]
  by_cases heq : arch = h.arch
  · rw [if_pos heq, heq, show Test.holds .jeq h.arch h.arch from beq_self_eq_true _, if_pos rfl,
      ← heq]
    exact run_ldAbs.trans (by rw [hnr]; rfl)
  · rw [if_neg heq, show Test.holds .jeq arch h.arch = false from beq_false_of_ne heq]
    exact run_ret

theorem length_x32Gate (n : ℕ) : (x32Gate h n).length = if h.x32 then 1 else 0 := by
  unfold x32Gate
  split_ifs <;> rfl

theorem length_uringGate (n : ℕ) : (uringGate h n).length = if h.uring.isSome then 2 else 0 := by
  unfold uringGate
  rcases h.uring with _ | r <;> rfl

theorem length_compares : (compares trapped).length = trapped.length := by
  rw [compares, length_map, length_zipIdx]

/-- What lies between a gate and the last leaf. -/
def beforeLast (trapped : List UInt32) : List Insn :=
  compares trapped ++ [.ret retAllow, .ret retTrace]

theorem length_beforeLast : (beforeLast trapped).length = trapped.length + 2 := by
  rw [beforeLast, length_append, length_compares]
  rfl

theorem compares_leaves : compares trapped ++ leaves = beforeLast trapped ++ [.ret kEnosys] := by
  rw [beforeLast, append_assoc]
  rfl

/-- The distances that the gates have, before they are cut to 8 bits. -/
theorem toEnosys_x32 (hx : h.x32) (n : ℕ) :
    h.toEnosys n (loads h).length = (uringGate h n).length + (n + 2) := by
  rw [Host.toEnosys, Host.firstJeq, Host.nGates, if_pos hx, length_uringGate,
    show (loads h).length = 4 from rfl]
  omega

theorem toEnosys_uring (hu : h.uring.isSome) (n : ℕ) :
    h.toEnosys n ((loads h ++ x32Gate h n).length + 1) = n + 2 := by
  rw [Host.toEnosys, Host.firstJeq, Host.nGates, if_pos hu, length_append, length_x32Gate,
    show (loads h).length = 4 from rfl]
  omega

theorem length_uringGate_le (n : ℕ) : (uringGate h n).length ≤ 2 := by
  rw [length_uringGate]
  split_ifs <;> omega

theorem run_x32Gate (hfit : trapped.length + 4 ≤ 255) :
    run data (x32Gate h trapped.length ++
        (uringGate h trapped.length ++ (beforeLast trapped ++ [.ret kEnosys]))) a =
      if h.x32 ∧ kX32Bit ≤ a then some kEnosys
      else run data (uringGate h trapped.length ++ (beforeLast trapped ++ [.ret kEnosys])) a := by
  by_cases hx : h.x32
  · have hgate := length_uringGate_le (h := h) trapped.length
    have hto : (UInt8.ofNat (h.toEnosys trapped.length (loads h).length)).toNat =
        (uringGate h trapped.length ++ beforeLast trapped).length := by
      rw [toEnosys_x32 hx, toNat_ofNat (by omega), length_append, length_beforeLast]
    rw [x32Gate, if_pos hx, singleton_append]
    by_cases ha : kX32Bit ≤ a
    · rw [if_pos ⟨hx, ha⟩, ← append_assoc, run_jmp_over, run_ret]
      rw [show Test.holds .jge a kX32Bit from decide_eq_true ha, if_pos rfl, hto]
    · rw [if_neg fun hand => ha hand.2, run_jmp_next]
      rw [show Test.holds .jge a kX32Bit = false from decide_eq_false ha]
      rfl
  · rw [x32Gate, if_neg hx, if_neg fun hand => hx hand.1]
    rfl

theorem run_uringGate (hfit : trapped.length + 4 ≤ 255) :
    run data (uringGate h trapped.length ++ (beforeLast trapped ++ [.ret kEnosys])) a =
      if ∃ r ∈ h.uring, r.1 ≤ a ∧ a ≤ r.2 then some kEnosys
      else run data (beforeLast trapped ++ [.ret kEnosys]) a := by
  unfold uringGate
  rcases hu : h.uring with _ | ⟨setup, register⟩
  · rw [if_neg nofun]
    rfl
  · have hto :
        (UInt8.ofNat
          (h.toEnosys trapped.length ((loads h ++ x32Gate h trapped.length).length + 1))).toNat =
        (beforeLast trapped).length := by
      rw [toEnosys_uring (hu ▸ rfl), toNat_ofNat (by omega), length_beforeLast]
    rw [cons_append, singleton_append]
    simp only [Option.mem_def, Option.some.injEq, exists_eq_left']
    by_cases hlo : setup ≤ a
    · rw [run_jmp_next]
      · by_cases hhi : a ≤ register
        · rw [if_pos ⟨hlo, hhi⟩, run_jmp_over, run_ret]
          rw [show Test.holds .jgt a register = false from decide_eq_false (UInt32.not_lt.2 hhi)]
          exact hto
        · rw [if_neg fun hand => hhi hand.2, run_jmp_next]
          rw [show Test.holds .jgt a register from decide_eq_true (UInt32.not_le.1 hhi)]
          rfl
      · rw [show Test.holds .jge a setup from decide_eq_true hlo]
        rfl
    · rw [if_neg fun hand => hlo hand.1, run_jmp,
        show Test.holds .jge a setup = false from decide_eq_false hlo]
      rfl

/-! ## Where the jumps go -/

theorem lands_compares (n i : ℕ) (hn : n = i + trapped.length) (hfit : n < 256) :
    Lands ((trapped.zipIdx i).map (fun (nr, i) => Insn.jmp .jeq nr (.ofNat (toTrace n i)) 0) ++
        leaves) := by
  induction trapped generalizing i with
  | nil => exact lands_nil.ret.ret.ret
  | cons nr trapped ih =>
    rw [length_cons] at hn
    have hlen :
        ((trapped.zipIdx (i + 1)).map (fun (nr, i) => Insn.jmp .jeq nr (.ofNat (toTrace n i)) 0) ++
          leaves).length = trapped.length + 3 := by
      rw [length_append, length_map, length_zipIdx]
      rfl
    rw [zipIdx_cons, map_cons, cons_append]
    refine (ih (i + 1) (by omega)).jmp ?_ ?_
    · rw [toNat_ofNat (by rw [toTrace]; omega), toTrace, hlen]
      omega
    · rw [hlen]
      exact Nat.succ_pos _

theorem lands_uringGate (hfit : trapped.length + 4 ≤ 255) :
    Lands (uringGate h trapped.length ++ (compares trapped ++ leaves)) := by
  have hrest := lands_compares trapped.length 0 (Nat.zero_add _).symm (by omega)
  have hlen : (compares trapped ++ leaves).length = trapped.length + 3 := by
    rw [length_append, length_compares]
    rfl
  unfold uringGate
  rcases hu : h.uring with _ | ⟨setup, register⟩
  · exact hrest
  · rw [cons_append, singleton_append, toEnosys_uring (hu ▸ rfl)]
    refine Lands.jmp (Lands.jmp hrest ?_ ?_) ?_ ?_
    · rw [hlen]
      exact Nat.succ_pos _
    · rw [hlen, toNat_ofNat (by omega)]
      omega
    · exact Nat.succ_pos _
    · rw [length_cons, hlen]
      exact Nat.succ_lt_succ (Nat.succ_pos _)

theorem lands_trapFilter (hfit : trapped.length + 4 ≤ 255) : Lands (trapFilter h trapped) := by
  have huring := lands_uringGate (h := h) hfit
  have hlen : (uringGate h trapped.length ++ (compares trapped ++ leaves)).length =
      (uringGate h trapped.length).length + (trapped.length + 3) := by
    rw [length_append, length_append, length_compares]
    rfl
  have hgate := length_uringGate_le (h := h) trapped.length
  have hx32 :
      Lands (x32Gate h trapped.length ++
        (uringGate h trapped.length ++ (compares trapped ++ leaves))) := by
    unfold x32Gate
    split_ifs with hx
    · rw [singleton_append, toEnosys_x32 hx]
      refine huring.jmp ?_ ?_
      · rw [hlen, toNat_ofNat (by omega)]
        omega
      · rw [hlen]
        exact Nat.succ_pos _
    · exact huring
  rw [trapFilter, append_assoc, append_assoc, append_assoc]
  refine (Lands.jmp hx32.ldAbs.ret ?_ ?_).ldAbs
  · exact Nat.succ_lt_succ (Nat.succ_pos _)
  · exact Nat.succ_pos _

/-- **The filter decides as it should, and its jumps stay inside it**: the distances are not changed
by the cut to 8 bits, and every jump lands on an instruction. -/
theorem trapFilter_decides (h : Host) (trapped : List UInt32) (hfit : trapped.length + 4 ≤ 255)
    (arch nr a : UInt32) :
    run (seccompData arch nr) (trapFilter h trapped) a = some (decision h trapped arch nr) ∧
      Lands (trapFilter h trapped) ∧
      (∀ idx, (loads h).length ≤ idx → h.toEnosys trapped.length idx < 256) ∧
      ∀ i, toTrace trapped.length i < 256 := by
  refine ⟨?_, lands_trapFilter hfit, fun idx hidx => ?_, fun i => ?_⟩
  · rw [trapFilter, append_assoc, append_assoc, append_assoc, compares_leaves, run_loads,
      run_x32Gate hfit, run_uringGate hfit, ← compares_leaves, compares,
      run_compares trapped trapped.length 0 (Nat.zero_add _).symm (by omega), decision]
    by_cases harch : arch = h.arch
    · have hsame : ¬arch ≠ h.arch := fun hne => hne harch
      split_ifs <;> rfl
    · rw [if_neg harch, if_pos harch]
  · have hgates : h.nGates ≤ 3 := by
      rw [Host.nGates]
      split_ifs <;> omega
    rw [show (loads h).length = 4 from rfl] at hidx
    rw [Host.toEnosys, Host.firstJeq]
    omega
  · rw [toTrace]
    omega

/-- The numbers of x86-64, with `open` and `openat` trapped. -/
theorem trapFilter_decides_x86 :
    run (seccompData 0xc000003e 257) (trapFilter ⟨0xc000003e, true, some (425, 427)⟩ [2, 257]) 0 =
        some (decision ⟨0xc000003e, true, some (425, 427)⟩ [2, 257] 0xc000003e 257) ∧
      decision ⟨0xc000003e, true, some (425, 427)⟩ [2, 257] 0xc000003e 257 = retTrace :=
  ⟨(trapFilter_decides ⟨0xc000003e, true, some (425, 427)⟩ [2, 257] (by decide) 0xc000003e 257
      0).1, by decide⟩

end Filter

end Linuxity.Runtime.Seccomp

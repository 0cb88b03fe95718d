import Mathlib.Data.Nat.Notation

/-!
# Logic.Bpf — classic BPF programs

A filter reads words of a packet, here of the data of a system call, compares them and returns.
Jumps go forward, so a program is what is left of it.
-/

namespace Logic.Bpf

inductive Test where
  | jeq | jge | jgt
  deriving DecidableEq

/-- An instruction; a jump has a distance of 8 bits for either outcome of its test. -/
inductive Insn where
  | ldAbs (off : ℕ)
  | jmp (test : Test) (k : UInt32) (jt jf : UInt8)
  | ret (k : UInt32)
  deriving DecidableEq

def Test.holds : Test → UInt32 → UInt32 → Bool
  | .jeq, a, k => a == k
  | .jge, a, k => k ≤ a
  | .jgt, a, k => k < a

/-- What a program returns; it has no value if it runs off its end. -/
def run (data : ℕ → UInt32) : List Insn → UInt32 → Option UInt32
  | [], _ => none
  | .ldAbs off :: rest, _ => run data rest (data off)
  | .jmp test k jt jf :: rest, a => run data (rest.drop (if test.holds a k then jt else jf).toNat) a
  | .ret k :: _, _ => some k
termination_by p => p.length
decreasing_by
  · exact Nat.lt_succ_self _
  · exact Nat.lt_succ_of_le (List.length_drop ▸ Nat.sub_le ..)

/-- Every jump lands on an instruction. -/
def Lands (p : List Insn) : Prop :=
  ∀ i test k jt jf, p[i]? = some (.jmp test k jt jf) →
    i + 1 + jt.toNat < p.length ∧ i + 1 + jf.toNat < p.length

section Run

variable {data : ℕ → UInt32} {p q : List Insn} {a k : UInt32} {test : Test} {jt jf : UInt8}
  {off : ℕ}

theorem run_ldAbs : run data (.ldAbs off :: p) a = run data p (data off) := by rw [run]

theorem run_ret : run data (.ret k :: p) a = some k := by rw [run]

theorem run_jmp : run data (.jmp test k jt jf :: p) a =
    run data (p.drop (if test.holds a k then jt else jf).toNat) a := by rw [run]

theorem run_jmp_over (h : (if test.holds a k then jt else jf).toNat = p.length) :
    run data (.jmp test k jt jf :: (p ++ q)) a = run data q a := by
  rw [run_jmp, h, List.drop_left]

theorem run_jmp_next (h : (if test.holds a k then jt else jf).toNat = 0) :
    run data (.jmp test k jt jf :: p) a = run data p a := by
  rw [run_jmp, h, List.drop_zero]

end Run

section Lands

variable {p : List Insn} {i : Insn} {test : Test} {k : UInt32} {jt jf : UInt8} {off : ℕ}

theorem lands_nil : Lands [] := nofun

theorem Lands.cons (hp : Lands p)
    (hi : ∀ test k jt jf, i = .jmp test k jt jf → jt.toNat < p.length ∧ jf.toNat < p.length) :
      Lands (i :: p) := by
  rintro (_ | n) test k jt jf h
  · obtain ⟨h1, h2⟩ := hi test k jt jf (Option.some.inj h)
    rw [List.length_cons]
    omega
  · obtain ⟨h1, h2⟩ := hp n test k jt jf h
    rw [List.length_cons]
    omega

theorem Lands.jmp (hp : Lands p) (h1 : jt.toNat < p.length) (h2 : jf.toNat < p.length) :
    Lands (.jmp test k jt jf :: p) := by
  refine hp.cons fun _ _ _ _ heq => ?_
  obtain ⟨-, -, rfl, rfl⟩ := Insn.jmp.inj heq
  exact ⟨h1, h2⟩

theorem Lands.ret (hp : Lands p) : Lands (.ret k :: p) := hp.cons nofun

theorem Lands.ldAbs (hp : Lands p) : Lands (.ldAbs off :: p) := hp.cons nofun

end Lands

end Logic.Bpf

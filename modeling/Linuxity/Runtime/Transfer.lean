import Linuxity.Runtime.Ptrace

/-!
# Runtime.Transfer — what the tracer reads and writes in a stopped task (`ptrace_trap.hpp`)

A transfer is one cross-process call, or a loop of words.  A loop that must keep what is behind its
bytes reads each word, lays the bytes over it and writes the whole word back.
-/

namespace Linuxity.Runtime.Transfer

open List Logic

/-- The kernel's answers to one transfer. A word that is moved lies below some end of the task's
part of the address range. -/
structure Answers where
  peek : ℕ → Bool
  poke : ℕ → Bool
  /-- The number of bytes `process_vm_writev` takes and `process_vm_readv` gives. -/
  vmWrite : ℕ → ℕ → ℕ
  vmRead : ℕ → ℕ → ℕ
  top : ℕ
  top_lt : top < addrMax
  peek_user : ∀ a, peek a → a + 8 ≤ top
  poke_user : ∀ a, poke a → a + 8 ≤ top

variable (k : Answers) (start : ℕ) (bs : List UInt8) (mem : Mem)

/-- One turn of the loops of `copy_out` and `poke_bytes`. -/
def overlayWord (acc : Bool × Mem) (i : ℕ) : Bool × Mem :=
  let a := (start + 8 * i) % addrMax
  let c := chunk false bs i
  if acc.1 && (k.peek a && k.poke a) then
    (true, writeAt acc.2 a (c ++ (bytesAt acc.2 a 8).drop c.length))
  else (false, acc.2)

def overlayWords : Bool × Mem :=
  (List.range (words bs.length)).foldl (overlayWord k start bs) (true, mem)

def copyOut : Bool × Mem :=
  let n := k.vmWrite start bs.length
  let mem := writeAt mem start (bs.take n)
  if n = bs.length then (true, mem) else overlayWords k start bs mem

/-- `poke_bytes`; the string goes with its NUL. -/
def pokeBytes : Bool × Mem := overlayWords k start (bs ++ [0]) mem

/-- `poke_scratch`. -/
def pokeScratch : Bool × Mem := pokeWords k.poke true start (bs ++ [0]) mem

/-- One turn of `peek_in`, which reads `n` bytes into the buffer `acc.2`. -/
def peekWord (n : ℕ) (acc : Bool × Mem) (i : ℕ) : Bool × Mem :=
  let a := (start + 8 * i) % addrMax
  if acc.1 && k.peek a then (true, writeAt acc.2 (8 * i) (bytesAt mem a (min 8 (n - 8 * i))))
  else (false, acc.2)

def peekIn (n : ℕ) (dst : Mem) : Bool × Mem :=
  (List.range (words n)).foldl (peekWord k start mem n) (true, dst)

def copyIn (n : ℕ) (dst : Mem) : Bool × Mem :=
  let m := k.vmRead start n
  let dst := writeAt dst 0 (bytesAt mem start m)
  if m = n then (true, dst) else peekIn k start mem n dst

section Exact

variable {k : Answers} {start n : ℕ} {bs : List UInt8} {mem dst : Mem}

/-- Laying bytes over a word writes the bytes alone. -/
theorem writeAt_overlay (mem : Mem) (a : ℕ) (c : List UInt8) :
    writeAt mem a (c ++ (bytesAt mem a 8).drop c.length) = writeAt mem a c := by
  have hlen : (bytesAt mem a 8).length = 8 := by rw [bytesAt, length_map, length_range]
  funext x
  unfold writeAt
  rw [length_append, length_drop, hlen]
  by_cases hx : a ≤ x ∧ x < a + c.length
  · rw [if_pos hx, if_pos (by omega), getD_append _ _ _ _ (by omega)]
  · rw [if_neg hx]
    split_ifs with h8
    · rw [getD_append_right _ _ _ _ (by omega), getD_eq_getElem?_getD, List.getElem?_drop, bytesAt,
        List.getElem?_map, List.getElem?_range (by omega), Option.map_some, Option.getD_some]
      exact congrArg mem (by omega)
    · rfl

/-- A word loop that goes through has written all its bytes. -/
theorem pokeWords_done {ok : ℕ → Bool} {pad : Bool} (hok : ∀ a, ok a → a + 8 ≤ k.top)
    (hstart : start < addrMax) (h : (pokeWords ok pad start bs mem).1) :
    (pokeWords ok pad start bs mem).2 = writeAt mem start (filled pad bs) := by
  rw [pokeWords_eq k.top_lt hok hstart] at h ⊢
  rw [of_decide_eq_true h, writeAt_eq, filled_take_words]

theorem overlayWords_done (hstart : start < addrMax) (h : (overlayWords k start bs mem).1) :
    (overlayWords k start bs mem).2 = writeAt mem start bs := by
  have hturn :
      overlayWord k start bs = pokeWord (fun a => k.peek a && k.poke a) false start bs := by
    funext acc i
    rw [overlayWord, pokeWord, writeAt_overlay]
  rw [overlayWords, hturn] at h ⊢
  exact pokeWords_done (fun a ha => k.peek_user a (Bool.and_eq_true_iff.1 ha).1) hstart h

theorem writeAt_bytesAt (dst mem : Mem) (o a n x : ℕ) :
    writeAt dst o (bytesAt mem a n) x = if o ≤ x ∧ x < o + n then mem (a + (x - o)) else dst x := by
  rw [writeAt, bytesAt, length_map, length_range]
  split_ifs with hx
  · rw [getD_eq_getElem?_getD, List.getElem?_map, List.getElem?_range (by omega), Option.map_some,
      Option.getD_some]
  · rfl

/-- `peek_in` after `j` words that could be read. -/
theorem peekIn_stage (hstart : start < addrMax) {j : ℕ}
    (h : ((List.range j).foldl (peekWord k start mem n) (true, dst)).1) :
    (0 < j → start + 8 * j ≤ k.top) ∧ ∀ x < min (8 * j) n,
      ((List.range j).foldl (peekWord k start mem n) (true, dst)).2 x = mem (start + x) := by
  induction j with
  | zero => exact ⟨nofun, fun x hx => by omega⟩
  | succ j ih =>
    rw [range_succ, foldl_append, foldl_cons, foldl_nil] at h ⊢
    rw [peekWord] at h ⊢
    split_ifs at h ⊢ with hgo
    obtain ⟨hacc, hpeek⟩ := Bool.and_eq_true_iff.1 hgo
    obtain ⟨huser, hmem⟩ := ih hacc
    -- nothing wrapped so far, so this word is right behind the others
    have hend := k.peek_user _ hpeek
    have htop := k.top_lt
    have haddr : (start + 8 * j) % addrMax = start + 8 * j := Nat.mod_eq_of_lt (by omega)
    rw [haddr] at hend
    refine ⟨fun _ => by omega, fun x hx => ?_⟩
    rw [haddr]
    dsimp only
    rw [writeAt_bytesAt]
    split_ifs
    · exact congrArg mem (by omega)
    · exact hmem x (by omega)

end Exact

/-- **Transfers are exact.** A write that reports success puts its bytes at the address and changes
no other byte; `poke_scratch` changes besides at most the seven that fill its last word. A read that
reports success gives the task's bytes. -/
theorem transfers_exact (start : UInt64) (n : ℕ) (dst : Mem) :
    ((copyOut k start.toNat bs mem).1 →
        (copyOut k start.toNat bs mem).2 = writeAt mem start.toNat bs) ∧
      ((pokeBytes k start.toNat bs mem).1 →
        (pokeBytes k start.toNat bs mem).2 = writeAt mem start.toNat (bs ++ [0])) ∧
      ((pokeScratch k start.toNat bs mem).1 →
        ∃ zs : List UInt8, zs.length ≤ 7 ∧
        (pokeScratch k start.toNat bs mem).2 = writeAt mem start.toNat (bs ++ [0] ++ zs)) ∧
      ((copyIn k start.toNat mem n dst).1 →
        ∀ x < n, (copyIn k start.toNat mem n dst).2 x = mem (start.toNat + x)) := by
  have hstart : start.toNat < addrMax := start.toNat_lt
  refine ⟨fun h => ?_, fun h => ?_, fun h => ?_, fun h => ?_⟩
  · unfold copyOut at h ⊢
    dsimp only at h ⊢
    split_ifs at h ⊢ with hn
    · dsimp only
      rw [hn, take_length]
    · rw [overlayWords_done hstart h, writeAt_eq, writeAt_eq, writeAt_eq, putBytes_again]
  · exact overlayWords_done hstart h
  · refine ⟨_, ?_, pokeWords_done k.poke_user hstart h⟩
    rw [length_replicate]
    unfold words
    omega
  · intro x hx
    unfold copyIn at h ⊢
    dsimp only at h ⊢
    split_ifs at h ⊢ with hn
    · dsimp only
      rw [hn, writeAt_bytesAt, if_pos (by omega), Nat.sub_zero]
    · refine (peekIn_stage hstart h).2 x ?_
      unfold words
      omega

/-- The bulk calls move three bytes and no more; words can be moved below address 64. -/
def shortBulk : Answers where
  peek a := a + 8 ≤ 64
  poke a := a + 8 ≤ 64
  vmWrite _ _ := 3
  vmRead _ _ := 3
  top := 64
  top_lt := by decide
  peek_user _ h := of_decide_eq_true h
  poke_user _ h := of_decide_eq_true h

/-- Ten bytes over a memory of ones: every transfer falls back to the words, and goes through. -/
theorem transfers_exact_shortBulk :
    copyOut shortBulk 5 (replicate 10 7) (fun _ => 1)
        = (true, writeAt (fun _ => 1) 5 (replicate 10 7)) ∧
      pokeBytes shortBulk 5 (replicate 10 7) (fun _ => 1)
        = (true, writeAt (fun _ => 1) 5 (replicate 10 7 ++ [0])) ∧
      (∃ zs : List UInt8, zs.length ≤ 7 ∧
        pokeScratch shortBulk 5 (replicate 10 7) (fun _ => 1)
          = (true, writeAt (fun _ => 1) 5 (replicate 10 7 ++ [0] ++ zs))) ∧
      ∀ x < 10, (copyIn shortBulk 5 (fun a => a.toUInt8) 10 fun _ => 0).2 x = (5 + x).toUInt8 := by
  have hones := transfers_exact shortBulk (replicate 10 7) (fun _ => 1) 5 10 fun _ => 0
  have hread := transfers_exact shortBulk [] (fun a => a.toUInt8) 5 10 fun _ => 0
  obtain ⟨zs, hzs, hscratch⟩ := hones.2.2.1 (by decide)
  exact ⟨Prod.ext (by decide) (hones.1 (by decide)), Prod.ext (by decide) (hones.2.1 (by decide)),
    ⟨zs, hzs, Prod.ext (show _ = true by decide) hscratch⟩, hread.2.2.2 (by decide)⟩

end Linuxity.Runtime.Transfer

import Linuxity.Abi.Outcome
import Linuxity.Logic.Push

/-!
# Runtime.Ptrace — splicing a translated path into a stopped task (`runtime/linux/ptrace_trap.hpp`)

The task is stopped at the entry of its call.  `redirect` writes the host path below the task's
stack pointer, word by word or with one cross-process write, points the argument register at it
and lets the call run.  Every request to the kernel may fail; `Faults` says which ones do.
-/

namespace Linuxity.Runtime

open Posix Abi List Logic

abbrev Mem := Nat → UInt8

/-- The range of addresses, and a bound on the part a task can have mapped: it ends at 2⁵⁶ or below
on x86-64, and at 2⁵² or below on aarch64. -/
def addrMax : Nat := 2 ^ 64

def userMax : Nat := 2 ^ 56

theorem userMax_lt : userMax < addrMax := by decide

/-- A task at the entry stop of a call. -/
structure Tracee where
  sp : Nat
  arg : Nat → Nat
  mem : Mem

/-- What the kernel answers to the tracer's requests during one redirect.  No request on an
address outside the task's part succeeds. -/
structure Faults where
  /-- `PTRACE_POKEDATA` in `poke_scratch`. -/
  poke : Nat → Bool
  /-- The number of bytes `process_vm_writev` takes. -/
  vmWrite : Nat → Nat → Nat
  /-- `PTRACE_PEEKDATA` and `PTRACE_POKEDATA` in `copy_out`. -/
  peek : Nat → Bool
  repoke : Nat → Bool
  /-- `PTRACE_SETREGS`. -/
  store : Bool
  poke_user : ∀ a, poke a → a + 8 ≤ userMax
  repoke_user : ∀ a, repoke a → a + 8 ≤ userMax
  vm_user : ∀ a n, 0 < n → vmWrite a n = n → a + n ≤ userMax

/-- A path as bytes, without the final NUL. -/
def bytesOf (p : Str) : List UInt8 := p.map fun c => c.toNat.toUInt8

def writeAt (mem : Mem) (a : Nat) (bs : List UInt8) : Mem := fun x =>
  if a ≤ x ∧ x < a + bs.length then bs.getD (x - a) 0 else mem x

/-- Word `i` of the bytes; `pad` fills the last one with zeros, where nothing live is kept. -/
def chunk (pad : Bool) (bs : List UInt8) (i : Nat) : List UInt8 :=
  let c := (bs.drop (8 * i)).take 8
  if pad then c ++ List.replicate (8 - c.length) 0 else c

/-- One turn of a word loop, which stops at the first word that is refused. -/
def pokeWord (ok : Nat → Bool) (pad : Bool) (start : Nat) (bs : List UInt8) (acc : Bool × Mem)
    (i : Nat) : Bool × Mem :=
  let a := (start + 8 * i) % addrMax
  if acc.1 && ok a then (true, writeAt acc.2 a (chunk pad bs i)) else (false, acc.2)

def words (n : Nat) : Nat := (n + 7) / 8

def pokeWords (ok : Nat → Bool) (pad : Bool) (start : Nat) (bs : List UInt8)
    (mem : Mem) : Bool × Mem :=
  (List.range (words bs.length)).foldl (pokeWord ok pad start bs) (true, mem)

variable (f : Faults)

def pokeScratch (start : Nat) (bs : List UInt8) (mem : Mem) : Bool × Mem :=
  pokeWords f.poke true start bs mem

/-- One cross-process write, and the words again where it falls short. -/
def copyOut (start : Nat) (bs : List UInt8) (mem : Mem) : Bool × Mem :=
  let n := f.vmWrite start bs.length
  let mem := writeAt mem start (bs.take n)
  if n = bs.length then (true, mem)
  else pokeWords (fun a => f.peek a && f.repoke a) false start bs mem

/-- `poke_path` into dead scratch: the string with its NUL. -/
def pokePath (start : Nat) (s : Str) (mem : Mem) : Bool × Mem :=
  let bs := bytesOf s ++ [0]
  match pokeScratch f start bs mem with
  | (true, mem) => (true, mem)
  | (false, mem) => copyOut f start bs mem

/-- The slot below `top` for a string of `need` bytes: past the red zone, aligned, wrapping like
the 64-bit register it is computed in. -/
def scratchBelow (top need : Nat) : Nat :=
  (top + addrMax - (256 + need) % addrMax) % addrMax / 16 * 16

def setArg (arg : Nat → Nat) (i : Int) (v : Nat) : Nat → Nat :=
  if 0 ≤ i ∧ i < 6 then Function.update arg i.toNat v else arg

/-- What is to be spliced in: one path, or two. -/
structure Order where
  arg : Int
  path : Str
  arg2 : Int := -1
  path2 : Str := []
  arg_lt : arg < 6
  arg2_lt : arg2 < 6
  arg_ne : 0 ≤ arg → arg ≠ arg2

inductive Ran where
  /-- The call runs with these registers and this memory. -/
  | executes (arg : Nat → Nat) (mem : Mem)
  /-- The loop gives the guest this error, and the call does not run. -/
  | refused (e : Errno)

def Order.slot (o : Order) (t : Tracee) : Nat := scratchBelow t.sp ((bytesOf o.path).length + 1)

def Order.slot2 (o : Order) (t : Tracee) : Nat :=
  scratchBelow (o.slot t) ((bytesOf o.path2).length + 1)

def redirect (t : Tracee) (o : Order) : Ran :=
  match pokePath f (o.slot t) o.path t.mem with
  | (false, mem) => .executes t.arg mem -- runs unmodified on the guest's own path
  | (true, mem) =>
    let arg := setArg t.arg o.arg (o.slot t)
    if 0 ≤ o.arg2 ∧ o.path2 ≠ [] then
      match pokePath f (o.slot2 t) o.path2 mem with
      | (false, _) => .refused .efault
      | (true, mem) => .executes (if f.store then setArg arg o.arg2 (o.slot2 t) else t.arg) mem
    else .executes (if f.store then arg else t.arg) mem

/-- For a call that may wait for another task; there is never a second path. -/
def redirectDeferred (t : Tracee) (o : Order) : Ran :=
  match pokePath f (o.slot t) o.path t.mem with
  | (false, mem) => .executes t.arg mem
  | (true, mem) => .executes (if f.store then setArg t.arg o.arg (o.slot t) else t.arg) mem

/-! ## What a write leaves in memory, also where it falls short

A word loop stops at the first word that is refused and keeps what it has written.  So every write
of the tracer leaves some first part of its bytes in memory, and the kernel's answers alone say how
much of them and whether the write counts as done.
-/

/-- The words of the first `k` that a loop writes. -/
def okUpto (ok : ℕ → Bool) (start : ℕ) : ℕ → ℕ
  | 0 => 0
  | k + 1 =>
    if okUpto ok start k = k ∧ ok ((start + 8 * k) % addrMax) then k + 1 else okUpto ok start k

/-- The bytes in whole words, the last one with zeros behind; or as they are. -/
def filled (pad : Bool) (bs : List UInt8) : List UInt8 :=
  if pad then bs ++ List.replicate (8 * words bs.length - bs.length) 0 else bs

/-- `copy_out` goes through. -/
def CanCopy (start n : ℕ) : Prop :=
  f.vmWrite start n = n ∨ okUpto (fun a => f.peek a && f.repoke a) start (words n) = words n

instance (f : Faults) (start n : ℕ) : Decidable (CanCopy f start n) :=
  inferInstanceAs (Decidable (_ ∨ _))

/-- How far `copy_out` comes. -/
def copyReach (start n : ℕ) : ℕ :=
  if f.vmWrite start n = n then n
  else max (f.vmWrite start n) (8 * okUpto (fun a => f.peek a && f.repoke a) start (words n))

/-- A word loop, and `copy_out` where it is refused. -/
def pokeOr (ok : ℕ → Bool) (pad : Bool) (f : Faults) (start : ℕ) (bs : List UInt8)
    (mem : Mem) : Bool × Mem :=
  match pokeWords ok pad start bs mem with
  | (true, mem) => (true, mem)
  | (false, mem) => copyOut f start bs mem

def CanSplice (ok : ℕ → Bool) (f : Faults) (start n : ℕ) : Prop :=
  okUpto ok start (words n) = words n ∨ CanCopy f start n

instance (ok : ℕ → Bool) (f : Faults) (start n : ℕ) : Decidable (CanSplice ok f start n) :=
  inferInstanceAs (Decidable (_ ∨ _))

/-- The bytes that are in memory afterwards. -/
def spliced (ok : ℕ → Bool) (pad : Bool) (f : Faults) (start : ℕ) (bs : List UInt8) : List UInt8 :=
  if okUpto ok start (words bs.length) = words bs.length then filled pad bs
  else bs.take (max (8 * okUpto ok start (words bs.length)) (copyReach f start bs.length))

/-- Memory after some writes, each of its bytes at its address. -/
def laid (ws : List (ℕ × List UInt8)) (mem : Mem) : Mem :=
  ws.foldl (fun m w => putBytes m w.1 w.2) mem

section Loop

variable {ok : ℕ → Bool} {pad : Bool} {f : Faults} {start top k n : ℕ} {bs : List UInt8} {mem : Mem}

theorem writeAt_eq (mem : Mem) (a : ℕ) (bs : List UInt8) :
    writeAt mem a bs = putBytes mem a bs := by
  funext x
  by_cases hx : a ≤ x ∧ x < a + bs.length
  · have hlt : x - a < bs.length := by omega
    rw [writeAt, if_pos hx, putBytes, if_pos hx.1, List.getElem?_eq_getElem hlt,
      getD_eq_getElem?_getD, List.getElem?_eq_getElem hlt]
    rfl
  · rw [writeAt, if_neg hx, putBytes_of_apart (by omega)]

theorem putBytes_again (mem : Mem) (a n : ℕ) :
    putBytes (putBytes mem a (bs.take n)) a bs = putBytes mem a bs := by
  funext x
  by_cases hx : a ≤ x ∧ x < a + bs.length
  · refine Option.some.inj ?_
    rw [putBytes_of_mem hx.1 hx.2, putBytes_of_mem hx.1 hx.2]
  · have hout : x < a ∨ a + bs.length ≤ x := by omega
    have hlen : (bs.take n).length ≤ bs.length := length_take_le' n bs
    rw [putBytes_of_apart hout, putBytes_of_apart hout, putBytes_of_apart (by omega)]

theorem okUpto_le (ok : ℕ → Bool) (start k : ℕ) : okUpto ok start k ≤ k := by
  induction k with
  | zero => exact le_rfl
  | succ k ih =>
    rw [okUpto]
    split_ifs <;> omega

theorem length_filled (bs : List UInt8) : (filled true bs).length = 8 * words bs.length := by
  rw [filled, if_pos rfl, length_append, length_replicate, words]
  omega

theorem filled_take (h : n ≤ bs.length) : (filled pad bs).take n = bs.take n := by
  cases pad with
  | false => rfl
  | true => rw [filled, if_pos rfl, take_append_of_le_length h]

theorem filled_take_words : (filled pad bs).take (8 * words bs.length) = filled pad bs := by
  refine take_of_length_le ?_
  cases pad with
  | false =>
    show bs.length ≤ _
    unfold words
    omega
  | true => exact (length_filled bs).le

theorem length_spliced_le : (spliced ok true f start bs).length ≤ 8 * words bs.length := by
  unfold spliced
  split_ifs
  · exact (length_filled bs).le
  · rw [length_take, words]
    omega

theorem chunk_eq (hk : k < words bs.length) :
    chunk pad bs k = ((filled pad bs).drop (8 * k)).take 8 := by
  cases pad with
  | false => rfl
  | true =>
    have hlt : 8 * k < bs.length := by
      unfold words at hk
      omega
    rw [chunk, filled, if_pos rfl, if_pos rfl, drop_append_of_le_length (by omega), take_append,
      take_replicate, length_take, length_drop]
    congr 2
    omega

theorem putBytes_nil (m : Mem) (a : ℕ) : putBytes m a [] = m :=
  funext fun x => putBytes_of_apart (by simp; omega)

/-- A word loop after `k` words, whether all were taken or not. -/
theorem pokeWords_stage (htop : top < addrMax) (hok : ∀ a, ok a → a + 8 ≤ top)
    (hstart : start < addrMax) (hk : k ≤ words bs.length) :
    (0 < okUpto ok start k → start + 8 * okUpto ok start k ≤ top) ∧
      (List.range k).foldl (pokeWord ok pad start bs) (true, mem) =
        (decide (okUpto ok start k = k),
      putBytes mem start ((filled pad bs).take (8 * okUpto ok start k))) := by
  induction k with
  | zero =>
    refine ⟨nofun, ?_⟩
    rw [okUpto, Nat.mul_zero, take_zero, putBytes_nil]
    rfl
  | succ k ih =>
    obtain ⟨huser, hfold⟩ := ih (by omega)
    rw [range_succ, foldl_append, hfold, foldl_cons, foldl_nil, pokeWord, okUpto]
    by_cases hgo : okUpto ok start k = k ∧ ok ((start + 8 * k) % addrMax)
    · -- nothing wrapped so far, so this word goes right behind the others
      have haddr : (start + 8 * k) % addrMax = start + 8 * k := by
        refine Nat.mod_eq_of_lt ?_
        rw [hgo.1] at huser
        omega
      have hend := hok _ hgo.2
      rw [haddr] at hend
      have hlen : ((filled pad bs).take (8 * k)).length = 8 * k := by
        rw [filled_take (by unfold words at hk; omega), length_take]
        unfold words at hk
        omega
      rw [if_pos hgo, if_pos (by simp [hgo]), hgo.1, haddr, writeAt_eq, chunk_eq (by omega),
        show 8 * (k + 1) = 8 * k + 8 by omega, take_add, putBytes_append, hlen]
      exact ⟨fun _ => by omega, by simp⟩
    · have hne : okUpto ok start k ≠ k + 1 := by
        have := okUpto_le ok start k
        omega
      rw [if_neg hgo, if_neg (by simpa using hgo)]
      exact ⟨huser, by simp [hne]⟩

theorem pokeWords_eq (htop : top < addrMax) (hok : ∀ a, ok a → a + 8 ≤ top)
    (hstart : start < addrMax) :
    pokeWords ok pad start bs mem =
      (decide (okUpto ok start (words bs.length) = words bs.length),
      putBytes mem start ((filled pad bs).take (8 * okUpto ok start (words bs.length)))) :=
  (pokeWords_stage htop hok hstart le_rfl).2

theorem okUpto_user (hok : ∀ a, ok a → a + 8 ≤ userMax) (h : okUpto ok start (words n) = words n)
    (hstart : start < addrMax) (hn : 0 < n) : start + n ≤ userMax := by
  obtain ⟨huser, -⟩ :=
    @pokeWords_stage ok false start _ (words n) (List.replicate n 0) (fun _ => 0) userMax_lt hok
    hstart
    (by rw [length_replicate])
  rw [h] at huser
  unfold words at huser
  omega

theorem putBytes_take_take (m n : ℕ) :
    putBytes (putBytes mem start (bs.take m)) start (bs.take n) =
      putBytes mem start (bs.take (max m n)) := by
  rcases Nat.le_total m n with h | h
  · rw [Nat.max_eq_right h, ← @putBytes_again (bs.take n) mem start m, take_take, Nat.min_eq_left h]
  · rw [Nat.max_eq_left h]
    funext x
    by_cases hx : start ≤ x ∧ x < start + (bs.take n).length
    · refine Option.some.inj ?_
      have hx' : x < start + (bs.take m).length := by
        rw [length_take] at hx ⊢
        omega
      rw [putBytes_of_mem hx.1 hx.2, putBytes_of_mem hx.1 hx', List.getElem?_take_of_lt,
        List.getElem?_take_of_lt]
      all_goals
        rw [length_take] at hx
        omega
    · exact putBytes_of_apart (by omega)

theorem repoke_user_and (f : Faults) (a : ℕ) (h : (f.peek a && f.repoke a)) : a + 8 ≤ userMax :=
  f.repoke_user a (Bool.and_eq_true_iff.1 h).2

theorem CanCopy.take_copyReach (h : CanCopy f start bs.length) :
    bs.take (copyReach f start bs.length) = bs := by
  refine take_of_length_le ?_
  unfold copyReach
  split_ifs with hn
  · exact le_rfl
  · rw [h.resolve_left hn]
    unfold words
    omega

theorem CanCopy.user (h : CanCopy f start n) (hstart : start < addrMax) (hn : 0 < n) :
    start + n ≤ userMax := by
  rcases h with h | h
  · exact f.vm_user _ _ hn h
  · exact okUpto_user (repoke_user_and f) h hstart hn

theorem copyOut_eq (hstart : start < addrMax) :
    copyOut f start bs mem =
      (decide (CanCopy f start bs.length),
      putBytes mem start (bs.take (copyReach f start bs.length))) := by
  rw [copyOut, copyReach, writeAt_eq]
  by_cases hn : f.vmWrite start bs.length = bs.length
  · rw [if_pos hn, if_pos hn, decide_eq_true (show CanCopy f start bs.length from .inl hn), hn]
  · have hcan : CanCopy f start bs.length ↔
        okUpto (fun a => f.peek a && f.repoke a) start (words bs.length) = words bs.length :=
      or_iff_right hn
    rw [if_neg hn, if_neg hn, pokeWords_eq userMax_lt (repoke_user_and f) hstart,
      decide_eq_decide.2 hcan]
    exact congrArg _ (putBytes_take_take _ _)

/-- What a write answers and leaves that `copy_out` stands in for. -/
theorem pokeOr_eq (hok : ∀ a, ok a → a + 8 ≤ userMax) (hstart : start < addrMax) :
    pokeOr ok pad f start bs mem =
      (decide (CanSplice ok f start bs.length),
      putBytes mem start (spliced ok pad f start bs)) := by
  rw [pokeOr, pokeWords_eq userMax_lt hok hstart, spliced]
  by_cases hall : okUpto ok start (words bs.length) = words bs.length
  · rw [decide_eq_true hall, decide_eq_true (show CanSplice ok f start bs.length from .inl hall),
      if_pos hall, hall, filled_take_words]
  · have hlt : 8 * okUpto ok start (words bs.length) ≤ bs.length := by
      have := okUpto_le ok start (words bs.length)
      unfold words at *
      omega
    have hcan : CanSplice ok f start bs.length ↔ CanCopy f start bs.length := or_iff_right hall
    rw [decide_eq_false hall, if_neg hall]
    dsimp only
    rw [copyOut_eq hstart, filled_take hlt, putBytes_take_take, decide_eq_decide.2 hcan]

theorem pokePath_eq (hstart : start < addrMax) (s : Str) : pokePath f start s mem =
    (decide (CanSplice f.poke f start (bytesOf s ++ [0]).length),
    putBytes mem start (spliced f.poke true f start (bytesOf s ++ [0]))) :=
  pokeOr_eq f.poke_user hstart

/-- The bytes are in memory at `start`, and at most the rest of their last word changed besides. -/
structure Holds (mem mem' : Mem) (start : Nat) (bs : List UInt8) : Prop where
  user : start + bs.length ≤ userMax
  bytes : ∀ i < bs.length, mem' (start + i) = bs.getD i 0
  frame : ∀ a, a < start ∨ start + bs.length + 8 ≤ a → mem' a = mem a

theorem okUpto_eq_iff : okUpto ok start k = k ↔ ∀ i < k, ok ((start + 8 * i) % addrMax) := by
  induction k with
  | zero => simp [okUpto]
  | succ k ih =>
    have hle := okUpto_le ok start k
    rw [Nat.forall_lt_succ_right, ← ih, okUpto]
    split_ifs with h
    · exact iff_of_true rfl h
    · exact iff_of_false (by omega) h

theorem CanSplice.user (hok : ∀ a, ok a → a + 8 ≤ userMax) (h : CanSplice ok f start n)
    (hstart : start < addrMax) (hn : 0 < n) : start + n ≤ userMax := by
  rcases h with h | h
  · exact okUpto_user hok h hstart hn
  · exact h.user hstart hn

/-- The write is done: all bytes are there, and zeros up to the end of the word where it pads. -/
theorem CanSplice.spliced (h : CanSplice ok f start bs.length) : ∃ zs : List UInt8, zs.length < 8 ∧
    spliced ok pad f start bs = bs ++ zs := by
  unfold Runtime.spliced
  split_ifs with hall
  · cases pad with
    | false => exact ⟨[], by decide, (append_nil bs).symm⟩
    | true =>
      refine ⟨_, ?_, if_pos rfl⟩
      rw [length_replicate]
      unfold words
      omega
  · refine ⟨[], by decide, ?_⟩
    have hcan := (h.resolve_left hall).take_copyReach
    rw [take_eq_self_iff] at hcan
    rw [append_nil, take_of_length_le (hcan.trans (le_max_right _ _))]

theorem pokePath_spec {mem' : Mem} {s : Str} (hstart : start < addrMax)
    (h : pokePath f start s mem = (true, mem')) : Holds mem mem' start (bytesOf s ++ [0]) := by
  rw [pokePath_eq hstart] at h
  obtain ⟨hcan, rfl⟩ := Prod.mk.inj h
  replace hcan := of_decide_eq_true hcan
  obtain ⟨zs, hlt, hzs⟩ := @CanSplice.spliced f.poke true f start _ hcan
  refine ⟨hcan.user f.poke_user hstart (by simp), fun i hi => ?_, fun a ha => ?_⟩
  · refine Option.some.inj ?_
    rw [hzs, putBytes_of_mem (by omega) (by rw [length_append]; omega), Nat.add_sub_cancel_left,
      List.getElem?_append_left hi, getD_eq_getElem?_getD, List.getElem?_eq_getElem hi]
    rfl
  · rw [hzs]
    exact putBytes_of_apart (by rw [length_append]; omega)

end Loop

/-! ## Redirects -/

/-- The kernel reads the path at `a`. -/
def HasPath (mem : Mem) (a : Nat) (p : Str) : Prop :=
  ∀ i < (bytesOf p ++ [0]).length, mem (a + i) = (bytesOf p ++ [0]).getD i 0

/-- The translated paths are in place of the guest's. -/
structure InPlace (o : Order) (arg : Nat → Nat) (mem : Mem) : Prop where
  first : 0 ≤ o.arg → HasPath mem (arg o.arg.toNat) o.path
  second : 0 ≤ o.arg2 → o.path2 ≠ [] → HasPath mem (arg o.arg2.toNat) o.path2

/-- Some way of writing `n` bytes at `start` goes through. -/
def CanWrite (f : Faults) (start n : Nat) : Prop :=
  (∀ i < words n, f.poke ((start + 8 * i) % addrMax)) ∨ f.vmWrite start n = n ∨
    ∀ i < words n, f.peek ((start + 8 * i) % addrMax) ∧ f.repoke ((start + 8 * i) % addrMax)

/-- One redirect the loop hands to the backend. -/
structure Served where
  deferred : Bool
  order : Order
  tracee : Tracee
  faults : Faults
  single : deferred → order.arg2 = -1

def Served.ran (s : Served) : Ran :=
  if s.deferred then redirectDeferred s.faults s.tracee s.order
  else redirect s.faults s.tracee s.order

section Redirect

variable {f : Faults} {t : Tracee} {o : Order}

theorem scratchBelow_lt (top need : Nat) : scratchBelow top need < addrMax := by
  unfold scratchBelow
  have : (top + addrMax - (256 + need) % addrMax) % addrMax < addrMax := Nat.mod_lt _ (by decide)
  omega

theorem Holds.hasPath {mem mem' : Mem} {a : Nat} {p : Str}
    (h : Holds mem mem' a (bytesOf p ++ [0])) :
    HasPath mem' a p := h.bytes

theorem CanWrite.poked {start : Nat} {s : Str} (hw : CanWrite f start ((bytesOf s).length + 1))
    (hstart : start < addrMax) (mem : Mem) :
    ∃ mem', pokePath f start s mem = (true, mem') ∧ Holds mem mem' start (bytesOf s ++ [0]) := by
  have hok : (pokePath f start s mem).1 := by
    rw [pokePath_eq hstart, length_append]
    refine decide_eq_true ?_
    rcases hw with hw | hw | hw
    · exact .inl (okUpto_eq_iff.2 hw)
    · exact .inr (.inl hw)
    · exact .inr (.inr (okUpto_eq_iff.2 fun i hi => Bool.and_eq_true_iff.2 (hw i hi)))
  exact ⟨_, Prod.ext hok rfl, pokePath_spec hstart (Prod.ext hok rfl)⟩

theorem setArg_self {arg : Nat → Nat} {i : Int} {v : Nat} (h0 : 0 ≤ i) (h6 : i < 6) :
    setArg arg i v i.toNat = v := by
  simp [setArg, h0, h6]

theorem setArg_ne {arg : Nat → Nat} {i j : Int} {v : Nat} (hj : 0 ≤ j) (hij : j ≠ i) :
    setArg arg i v j.toNat = arg j.toNat := by
  unfold setArg
  split_ifs with h
  · refine Function.update_of_ne ?_ _ _
    omega
  · rfl

/-- A slot that there is room for, or that could be written, lies wholly below the place it was
taken from. -/
theorem scratchBelow_le {top need : Nat} (htop : top < addrMax)
    (hu : 256 + need ≤ top ∨ scratchBelow top need + need ≤ userMax) :
    scratchBelow top need + need + 256 ≤ top := by
  unfold scratchBelow addrMax userMax at *
  omega

theorem redirect_inPlace (hw : CanWrite f (o.slot t) ((bytesOf o.path).length + 1)) (hs : f.store)
    {arg : Nat → Nat} {mem : Mem} (h : redirect f t o = .executes arg mem) : InPlace o arg mem := by
  unfold redirect at h
  obtain ⟨mem1, hp, h1⟩ := hw.poked (scratchBelow_lt _ _) t.mem
  rw [hp] at h
  simp only [hs, if_true] at h
  split_ifs at h with h2
  · cases hp2 : pokePath f (o.slot2 t) o.path2 mem1 with
    | mk b mem2 =>
      rw [hp2] at h
      cases b with
      | false => cases h
      | true =>
        obtain ⟨rfl, rfl⟩ := Ran.executes.inj h
        have h3 : Holds mem1 mem2 (o.slot2 t) (bytesOf o.path2 ++ [0]) :=
          pokePath_spec (scratchBelow_lt _ _) hp2
        -- the second slot is below the first, so the first path is still there
        have hbelow : o.slot2 t + (bytesOf o.path2 ++ [0]).length + 256 ≤ o.slot t := by
          have := h3.user
          rw [length_append, length_singleton] at this ⊢
          exact scratchBelow_le (scratchBelow_lt _ _) (.inr this)
        refine ⟨fun h0 => ?_, fun h0 _ => ?_⟩
        · rw [setArg_ne h0 (o.arg_ne h0), setArg_self h0 o.arg_lt]
          intro i hi
          rw [h3.frame _ (by omega)]
          exact h1.bytes i hi
        · rw [setArg_self h0 o.arg2_lt]
          exact h3.hasPath
  · obtain ⟨rfl, rfl⟩ := Ran.executes.inj h
    refine ⟨fun h0 => ?_, fun h0 hne => absurd ⟨h0, hne⟩ h2⟩
    rw [setArg_self h0 o.arg_lt]
    exact h1.hasPath

theorem redirectDeferred_inPlace (hsingle : o.arg2 = -1)
    (hw : CanWrite f (o.slot t) ((bytesOf o.path).length + 1)) (hs : f.store) {arg : Nat → Nat}
    {mem : Mem} (h : redirectDeferred f t o = .executes arg mem) : InPlace o arg mem := by
  unfold redirectDeferred at h
  obtain ⟨mem1, hp, h1⟩ := hw.poked (scratchBelow_lt _ _) t.mem
  rw [hp] at h
  obtain ⟨rfl, rfl⟩ := Ran.executes.inj h
  refine ⟨fun h0 => ?_, fun h0 _ => absurd h0 (by omega)⟩
  rw [if_pos hs, setArg_self h0 o.arg_lt]
  exact h1.hasPath

end Redirect

/-- **Redirects in a run.** If in every redirect some way of writing the first path goes through
and the registers are stored, every call that runs does so with the translated paths. -/
theorem run_inPlace (run : List Served)
    (hok : ∀ s ∈ run, CanWrite s.faults (s.order.slot s.tracee)
        ((bytesOf s.order.path).length + 1) ∧ s.faults.store = true) :
    ∀ s ∈ run, ∀ arg mem, s.ran = .executes arg mem → InPlace s.order arg mem := by
  intro s hs arg mem h
  obtain ⟨hw, hstore⟩ := hok s hs
  unfold Served.ran at h
  split_ifs at h with hd
  · exact redirectDeferred_inPlace (s.single hd) hw hstore h
  · exact redirect_inPlace hw hstore h

/-! ## One task -/

/-- A task stopped at `openat` with `/x` at 4096 in its second argument. -/
def openTask : Tracee where
  sp := 65536
  arg i := if i = 1 then 4096 else 0
  mem a := (bytesOf "/x").getD (a - 4096) 0

def openOrder : Order where
  arg := 1
  path := "/srv/root/x"
  arg_lt := by decide
  arg2_lt := by decide
  arg_ne := by decide

/-- Every request on the task's own part succeeds. -/
def noFaults : Faults where
  poke a := decide (a + 8 ≤ userMax)
  vmWrite a n := if a + n ≤ userMax then n else 0
  peek _ := true
  repoke a := decide (a + 8 ≤ userMax)
  store := true
  poke_user _ h := of_decide_eq_true h
  repoke_user _ h := of_decide_eq_true h
  vm_user a n h0 h := by
    split_ifs at h with hu
    · exact hu
    · omega

/-- The task can be seen but not written to. -/
def unpokeable : Faults where
  poke _ := false
  vmWrite _ _ := 0
  peek _ := true
  repoke _ := false
  store := true
  poke_user _ h := by cases h
  repoke_user _ h := by cases h
  vm_user a n h0 h := by omega

/-- Without faults the `openat` runs on the translated path. -/
theorem run_inPlace_open :
    ∃ arg mem, (Served.mk false openOrder openTask noFaults (by decide)).ran = .executes arg mem ∧
      InPlace openOrder arg mem := by
  have hw : CanWrite noFaults (openOrder.slot openTask) ((bytesOf openOrder.path).length + 1) :=
    .inl (by decide +kernel)
  have hall := run_inPlace [⟨false, openOrder, openTask, noFaults, by decide⟩]
    (by intro s hs; rw [mem_singleton.mp hs]; exact ⟨hw, rfl⟩) _ (mem_singleton.mpr rfl)
  -- there is one path only, so nothing refuses the call
  have hran : ∃ arg mem, (Served.mk false openOrder openTask noFaults (by decide)).ran =
      .executes arg mem := by
    have hpath2 : ¬(0 ≤ openOrder.arg2 ∧ openOrder.path2 ≠ []) := by decide
    rcases pokePath noFaults (openOrder.slot openTask) openOrder.path openTask.mem with
      ⟨_ | _, mem⟩ <;>
      exact ⟨_, _, rfl⟩
  obtain ⟨arg, mem, h⟩ := hran
  exact ⟨arg, mem, h, hall arg mem h⟩

/-- Where nothing can be written into the task, its `openat` runs on the guest's own `/x`. -/
theorem redirect_fails_open :
    ∃ arg mem, (Served.mk false openOrder openTask unpokeable (by decide)).ran = .executes arg mem ∧
      HasPath mem (arg 1) "/x".toList ∧ ¬ InPlace openOrder arg mem := by
  refine ⟨openTask.arg,
    (pokePath unpokeable (openOrder.slot openTask) openOrder.path openTask.mem).2, ?_, ?_, ?_⟩
  · have hp :
        (pokePath unpokeable (openOrder.slot openTask) openOrder.path openTask.mem).1 = false := by
      decide +kernel
    cases h : pokePath unpokeable (openOrder.slot openTask) openOrder.path openTask.mem with
    | mk b mem =>
      rw [h] at hp
      obtain rfl : b = false := hp
      simp [Served.ran, redirect, h]
  · unfold HasPath
    decide +kernel
  · intro hin
    have := hin.first (by decide) 1 (by decide)
    revert this
    decide +kernel

end Linuxity.Runtime

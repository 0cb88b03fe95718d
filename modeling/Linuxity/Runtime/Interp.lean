import Linuxity.Runtime.Ptrace

/-!
# Runtime.Interp — an `execve` that is sent through an interpreter (`runtime/linux/ptrace_trap.hpp`)

The tracer reads the argument pointers of a stopped task, lays the strings of the interpreter and a
new vector below the task's stack pointer and lets the call run on them.
-/

namespace Linuxity.Runtime

open Logic List

/-- The pages of a task that can be read.  The first is never mapped. -/
structure Pages where
  readable : ℕ → Bool
  user : ∀ n, readable n → n ≠ 0 ∧ (n + 1) * 4096 ≤ userMax

/-- `copy_in` of whole words succeeds: neither of its two ways reads less than a page or past the
end. -/
def Pages.canRead (pg : Pages) (a n : ℕ) : Bool :=
  (List.range n).all fun i => pg.readable ((a + i) / 4096)

/-- What is to be run. -/
structure ExecOrder where
  pathArg : ℕ
  interp : List UInt8
  prog : List UInt8
  prefixes : List (List UInt8)
  extra : List (List UInt8)
  pathArg_le : pathArg ≤ 1

def kMaxArgs : ℕ := 1 <<< 21

/-- The entries one turn reads. -/
def argvChunk (a : ℕ) : ℕ :=
  let toPage := (4096 - a % 4096) / 8
  min 512 (if toPage = 0 then 512 else toPage)

/-- The loop that reads the argument pointers.  Each turn takes at least one, or is the last. -/
def readArgv (pg : Pages) (mem : Mem) (ptr : ℕ) : ℕ → List ℕ → List ℕ
  | 0, orig => orig
  | fuel + 1, orig =>
    if orig.length < kMaxArgs then
      let a := (ptr + orig.length * 8) % addrMax
      let n := argvChunk a
      if pg.canRead a (8 * n) then
        let got := (wordsAt mem a n).takeWhile (· != 0)
        if got.length = n then readArgv pg mem ptr fuel (orig ++ got) else orig ++ got
      else orig
    else orig

/-- Where `put` places the strings, and its cursor behind them. -/
def putAll : ℕ → List (List UInt8) → List ℕ × ℕ
  | cursor, [] => ([], cursor)
  | cursor, s :: ss =>
    let (ps, c) := putAll ((cursor + s.length + 1) % addrMax) ss
    (cursor :: ps, c)

/-- The strings one after the other, up to the first that cannot be written. -/
def writeStrs (f : Faults) : List ℕ → List (List UInt8) → Mem → Bool × Mem
  | p :: ps, s :: ss, mem =>
    match copyOut f p (s ++ [0]) mem with
    | (false, mem) => (false, mem)
    | (true, mem) => writeStrs f ps ss mem
  | _, _, mem => (true, mem)

namespace ExecOrder

variable (o : ExecOrder)

/-- The strings of the block, in order. -/
def strs : List (List UInt8) := o.interp :: o.prefixes ++ o.prog :: o.extra

def strBytes : ℕ := (o.strs.map fun s => s.length + 1).sum

/-- The entries of the new vector, for `n` pointers of the guest. -/
def narg (n : ℕ) : ℕ := 2 + o.prefixes.length + (n - 1) + o.extra.length

def base (sp n : ℕ) : ℕ := subWord sp (512 + (o.strBytes + (o.narg n + 1) * 8 + 64)) / 16 * 16

def places (sp n : ℕ) : List ℕ := (putAll (o.base sp n) o.strs).1

def arr (sp n : ℕ) : ℕ := ((putAll (o.base sp n) o.strs).2 + 15) % addrMax / 16 * 16

/-- The new vector: the first strings, the guest's pointers behind its first, the strings that are
appended. -/
def vector (sp : ℕ) (orig : List ℕ) : List ℕ :=
  let ps := o.places sp orig.length
  ps.take (2 + o.prefixes.length) ++ orig.tail ++ ps.drop (2 + o.prefixes.length)

/-- The ranges that are written, each with its length. -/
def pieces (sp n : ℕ) : List (ℕ × ℕ) :=
  (o.places sp n).zip (o.strs.map fun s => s.length + 1) ++ [(o.arr sp n, (o.narg n + 1) * 8)]

end ExecOrder

inductive Launched where
  /-- The guest gets EFAULT. -/
  | refused
  /-- The call runs with these registers and this memory, after writes to these ranges. -/
  | goes (arg : ℕ → ℕ) (mem : Mem) (wrote : List (ℕ × ℕ))

def execThroughInterp (f : Faults) (pg : Pages) (t : Tracee) (o : ExecOrder) : Launched :=
  let orig := readArgv pg t.mem (t.arg (o.pathArg + 1)) (kMaxArgs + 1) []
  let ps := o.places t.sp orig.length
  match writeStrs f ps o.strs t.mem with
  | (false, _) => .refused
  | (true, mem) =>
    match copyOut f (o.arr t.sp orig.length) ((o.vector t.sp orig ++ [0]).flatMap wordBytes)
      mem with
    | (false, _) => .refused
    | (true, mem) =>
      let arg :=
        setArg (setArg t.arg o.pathArg (ps.headD 0)) (o.pathArg + 1 : ℕ) (o.arr t.sp orig.length)
      .goes (if f.store then arg else t.arg) mem (o.pieces t.sp orig.length)

/-! ## What the new image is to find -/

/-- The pointers `execve` takes from an argument: none for NULL, and no list if a word cannot be
read. -/
def Argv (pg : Pages) (mem : Mem) (ptr : ℕ) (ps : List ℕ) : Prop :=
  ptr = 0 ∧ ps = [] ∨ ptr ≠ 0 ∧ Terminated mem ptr ps ∧ pg.canRead ptr (8 * (ps.length + 1))

/-- The string at `p`. -/
def StrIs (mem : Mem) (p : ℕ) (s : List UInt8) : Prop :=
  bytesAt mem p (s.length + 1) = s ++ [0] ∧ 0 ∉ s

/-- A byte of the string at `p`, its NUL included. -/
def InStr (mem : Mem) (p x : ℕ) : Prop := p ≤ x ∧ ∀ y, p ≤ y → y < x → mem y ≠ 0

/-- A byte that the call still needs: of an argument behind the first, or of the environment. -/
def Needed (pg : Pages) (t : Tracee) (o : ExecOrder) (x : ℕ) : Prop :=
  (∃ ps, Argv pg t.mem (t.arg (o.pathArg + 1)) ps ∧ ∃ p ∈ ps.tail, InStr t.mem p x) ∨
    ∃ es, Argv pg t.mem (t.arg (o.pathArg + 2)) es ∧
    (t.arg (o.pathArg + 2) ≠ 0 ∧ t.arg (o.pathArg + 2) ≤ x ∧
      x < t.arg (o.pathArg + 2) + 8 * (es.length + 1) ∨ ∃ p ∈ es, InStr t.mem p x)

/-- The ranges do not meet each other and hold no byte that is needed. -/
def Apart (pg : Pages) (t : Tracee) (o : ExecOrder) (wrote : List (ℕ × ℕ)) : Prop :=
  wrote.Pairwise (fun a b => a.1 + a.2 ≤ b.1 ∨ b.1 + b.2 ≤ a.1) ∧
    ∀ r ∈ wrote, ∀ x, r.1 ≤ x → x < r.1 + r.2 → ¬Needed pg t o x

/-- The call runs the interpreter on its own strings, the guest's arguments behind the first, all of
which could be read, and the strings appended. A call that runs with the registers of the guest
needs the guest's own vector too. -/
structure Right (f : Faults) (pg : Pages) (t : Tracee) (o : ExecOrder) (arg : ℕ → ℕ) (mem : Mem)
    (wrote : List (ℕ × ℕ)) (ps : List ℕ) : Prop where
  argv : Argv pg t.mem (t.arg (o.pathArg + 1)) ps
  program : StrIs mem (arg o.pathArg) o.interp
  vector : ∃ as bs, arg (o.pathArg + 1) ≠ 0 ∧
    Terminated mem (arg (o.pathArg + 1)) (as ++ ps.tail ++ bs) ∧
    List.Forall₂ (StrIs mem) as (o.interp :: o.prefixes ++ [o.prog]) ∧
    List.Forall₂ (StrIs mem) bs o.extra
  kept : ∀ p ∈ ps.tail, ∀ x, InStr t.mem p x → mem x = t.mem x
  apart : Apart pg t o wrote
  own : f.store = false → ∀ r ∈ wrote, ∀ x, r.1 ≤ x → x < r.1 + r.2 →
    ¬(t.arg (o.pathArg + 1) ≤ x ∧ x < t.arg (o.pathArg + 1) + 8 * (ps.length + 1))

/-- The most pointers the loop reads from `ptr`: it stops at the first chunk that begins past the
limit. -/
def capacity (ptr : ℕ) : ℕ := (4096 - ptr % 4096) / 8 % 512 + kMaxArgs

/-! ## What is written -/

section Write

variable {f : Faults} {mem mem' : Mem} {start : ℕ} {bs : List UInt8} (ss : List (List UInt8))

theorem copyOut_ok (hstart : start < addrMax) (hne : bs ≠ [])
    (h : copyOut f start bs mem = (true, mem')) :
    start + bs.length ≤ userMax ∧ mem' = putBytes mem start bs := by
  rw [copyOut_eq hstart] at h
  obtain ⟨hcan, rfl⟩ := Prod.mk.inj h
  have hcan := of_decide_eq_true hcan
  exact ⟨hcan.user hstart (length_pos_iff.2 hne), by rw [hcan.take_copyReach]⟩

/-- The strings lie one behind the other. -/
def blob : List UInt8 := ss.flatMap fun s => s ++ [0]

theorem length_blob : (blob ss).length = (ss.map fun s => s.length + 1).sum := by
  simp [blob, length_flatMap]

theorem length_blob_cons (s : List UInt8) (ss : List (List UInt8)) :
    (blob (s :: ss)).length = s.length + 1 + (blob ss).length := by
  rw [length_blob, length_blob, map_cons, sum_cons]

theorem putBytes_blob_cons (mem : Mem) (a : ℕ) (s : List UInt8) (ss : List (List UInt8)) :
    putBytes mem a (blob (s :: ss)) = putBytes (putBytes mem a (s ++ [0])) (a + s.length + 1)
      (blob ss) := by
  have hblob : blob (s :: ss) = (s ++ [0]) ++ blob ss := flatMap_cons
  have hlen : (s ++ [0]).length = s.length + 1 := length_append
  rw [hblob, @putBytes_append mem a (s ++ [0]), hlen, Nat.add_assoc]

theorem cursor_eq {c n : ℕ} (h : c + n + 1 ≤ userMax) : (c + n + 1) % addrMax = c + n + 1 := by
  refine Nat.mod_eq_of_lt ?_
  unfold userMax at h
  unfold addrMax
  omega

theorem writeStrs_ok {ss : List (List UInt8)} (hstart : start < addrMax)
    (huser : ss = [] → start ≤ userMax)
    (h : writeStrs f (putAll start ss).1 ss mem = (true, mem')) :
    start + (blob ss).length ≤ userMax ∧ mem' = putBytes mem start (blob ss) := by
  induction ss generalizing start mem with
  | nil =>
    obtain ⟨-, rfl⟩ := Prod.mk.inj h
    exact ⟨huser rfl, funext fun x => (putBytes_of_apart (by simp [blob]; omega)).symm⟩
  | cons s ss ih =>
    rw [putAll] at h
    dsimp only at h
    rw [writeStrs] at h
    obtain ⟨⟨ok, mem1⟩, hcopy⟩ : ∃ r, copyOut f start (s ++ [0]) mem = r := ⟨_, rfl⟩
    rw [hcopy] at h
    obtain _ | _ := ok
    · cases h
    obtain ⟨hs, rfl⟩ := copyOut_ok hstart (by simp) hcopy
    rw [length_append, length_singleton] at hs
    rw [cursor_eq (by omega)] at h
    obtain ⟨h1, h2⟩ := ih (by unfold userMax at hs; unfold addrMax; omega) (fun _ => by omega) h
    rw [length_blob_cons, putBytes_blob_cons]
    exact ⟨by omega, h2⟩

theorem putAll_pieces {ss : List (List UInt8)} (huser : start + (blob ss).length ≤ userMax) :
    List.Forall₂ (fun p s =>
        PieceAt (putBytes mem start (blob ss)) start (start + (blob ss).length) p (s ++ [0]))
      (putAll start ss).1 ss := by
  induction ss generalizing start mem with
  | nil => exact .nil
  | cons s ss ih =>
    have hlen : (s ++ [0]).length = s.length + 1 := length_append
    rw [length_blob_cons] at huser ⊢
    rw [putAll, cursor_eq (by omega), putBytes_blob_cons]
    refine .cons ⟨le_rfl, by omega, ?_⟩ ?_
    · rw [bytesAt_congr (m := putBytes mem start (s ++ [0])) fun x _ hx =>
        putBytes_of_apart (.inl (by omega)), bytesAt_putBytes]
    · refine (@ih (putBytes mem start (s ++ [0])) (start + s.length + 1) (by omega)).imp
        fun p s' hp => ?_
      exact hp.mono (by omega) (by omega) fun x _ _ => rfl

theorem putAll_snd {ss : List (List UInt8)} (hlt : start + (blob ss).length < addrMax) :
    (putAll start ss).2 = start + (blob ss).length := by
  induction ss generalizing start with
  | nil => rfl
  | cons s ss ih =>
    rw [length_blob_cons] at hlt ⊢
    rw [putAll, Nat.mod_eq_of_lt (by omega)]
    exact (ih (by omega)).trans (by omega)

theorem putAll_sorted {ss : List (List UInt8)} (hlt : start + (blob ss).length < addrMax) :
    ((putAll start ss).1.zip (ss.map fun s => s.length + 1)).Pairwise (fun a b => a.1 + a.2 ≤ b.1) ∧
      ∀ r ∈ (putAll start ss).1.zip (ss.map fun s => s.length + 1), start ≤ r.1 ∧
      r.1 + r.2 ≤ start + (blob ss).length := by
  induction ss generalizing start with
  | nil => exact ⟨.nil, by simp [putAll]⟩
  | cons s ss ih =>
    rw [length_blob_cons] at hlt ⊢
    rw [putAll, Nat.mod_eq_of_lt (by omega)]
    obtain ⟨h1, h2⟩ := @ih (start + s.length + 1) (by omega)
    rw [map_cons, zip_cons_cons]
    refine ⟨pairwise_cons.2 ⟨fun r hr => ?_, h1⟩,
      forall_mem_cons.2 ⟨⟨le_rfl, by omega⟩, fun r hr => ?_⟩⟩
    · have := (h2 r hr).1
      omega
    · have := h2 r hr
      omega

theorem length_putAll : (putAll start ss).1.length = ss.length := by
  induction ss generalizing start with
  | nil => rfl
  | cons s ss ih => exact congrArg (· + 1) ih

end Write

/-! ## What is read -/

section Read

variable {pg : Pages} {mem : Mem} {ptr : ℕ} {ps : List ℕ}

theorem canRead_iff {a n : ℕ} : pg.canRead a n ↔ ∀ i < n, pg.readable ((a + i) / 4096) := by
  simp [Pages.canRead]

/-- The first entries of a chunk that begins at an entry of the vector. -/
theorem argvChunk_spec (k : ℕ) : 0 < argvChunk (ptr + k * 8) ∧ argvChunk (ptr + k * 8) ≤ 512 ∧
    (k + argvChunk (ptr + k * 8)) % 512 = (4096 - ptr % 4096) / 8 % 512 := by
  unfold argvChunk
  dsimp only
  split_ifs <;> omega

/-- A chunk takes no page that its first entry does not need. -/
theorem canRead_chunk {k n : ℕ} (hr : pg.canRead ptr (8 * (n + 1))) (hk : k ≤ n) :
    pg.canRead (ptr + k * 8) (8 * argvChunk (ptr + k * 8)) := by
  rw [canRead_iff] at hr ⊢
  have h0 := hr (8 * k) (by omega)
  have h7 := hr (8 * k + 7) (by omega)
  intro i hi
  have hpage : (ptr + k * 8 + i) / 4096 = (ptr + 8 * k) / 4096 ∨
      (ptr + k * 8 + i) / 4096 = (ptr + (8 * k + 7)) / 4096 := by
    unfold argvChunk at hi
    dsimp only at hi
    split_ifs at hi <;> omega
  obtain hpage | hpage := hpage <;> rw [hpage]
  · exact h0
  · exact h7

theorem readArgv_take (hps : Terminated mem ptr ps) (hr : pg.canRead ptr (8 * (ps.length + 1)))
    {fuel k : ℕ} (hk : k ≤ ps.length) (hfuel : kMaxArgs < fuel + k)
    (hinv : k = 0 ∨ k % 512 = (4096 - ptr % 4096) / 8 % 512 ∧ k < kMaxArgs + 512) :
    readArgv pg mem ptr fuel (ps.take k) = ps.take (capacity ptr) := by
  have hfull : kMaxArgs ≤ k → k = capacity ptr := by
    intro hge
    unfold kMaxArgs at hinv hge
    unfold capacity kMaxArgs
    omega
  have hlen : (ps.take k).length = k := by
    rw [length_take]
    omega
  induction fuel generalizing k with
  | zero =>
    rw [readArgv, hfull (by omega)]
  | succ fuel ih =>
    rw [readArgv, hlen]
    split_ifs with hmore
    · have hword := (canRead_iff.1 hr) (8 * k) (by omega)
      have haddr : (ptr + k * 8) % addrMax = ptr + k * 8 := by
        have := (pg.user _ hword).2
        refine Nat.mod_eq_of_lt ?_
        unfold userMax at this
        unfold addrMax
        omega
      dsimp only
      rw [haddr, if_pos (canRead_chunk hr hk), Nat.mul_comm k 8, hps.takeWhile_chunk hk,
        Nat.mul_comm 8 k]
      obtain ⟨hpos, hle, hmod⟩ := @argvChunk_spec ptr k
      generalize argvChunk (ptr + k * 8) = n at hpos hle hmod
      have hgot : ps.take k ++ (ps.drop k).take n = ps.take (k + n) := (take_add ..).symm
      have hglen : ((ps.drop k).take n).length = min n (ps.length - k) := by
        rw [length_take, length_drop]
      rw [hgot, hglen]
      split_ifs with hn
      · refine ih (by omega) (by omega) (.inr ⟨hmod, by omega⟩) (fun hge => ?_) ?_
        · unfold kMaxArgs at hmore hge
          unfold capacity kMaxArgs
          omega
        · rw [length_take]
          omega
      · have hcap : k + n ≤ capacity ptr := by
          unfold kMaxArgs at hmore
          unfold capacity kMaxArgs
          omega
        rw [take_of_length_le (by omega), take_of_length_le (by omega)]
    · rw [hfull (by omega)]

/-- The loop reads the guest's vector, cut off at the capacity. -/
theorem readArgv_of_argv (hps : Argv pg mem ptr ps) :
    readArgv pg mem ptr (kMaxArgs + 1) [] = ps.take (capacity ptr) := by
  obtain ⟨rfl, rfl⟩ | ⟨-, hterm, hr⟩ := hps
  · -- the first page is never mapped
    have hpage : pg.readable 0 = false := by
      by_contra h
      exact (pg.user 0 (by simpa using h)).1 rfl
    have hread : pg.canRead 0 (8 * argvChunk 0) = false := by
      rw [← Bool.not_eq_true, canRead_iff]
      intro h
      have := h 0 (by decide)
      rw [hpage] at this
      cases this
    rw [readArgv, if_pos (by decide)]
    dsimp only
    rw [length_nil, Nat.zero_mul, Nat.add_zero, Nat.zero_mod, hread, take_nil]
    rfl
  · exact readArgv_take hterm hr (Nat.zero_le _) (by omega) (.inl rfl)

end Read

/-! ## The call that goes ahead -/

section Goes

variable {f : Faults} {pg : Pages} {t : Tracee} {o : ExecOrder} {arg : ℕ → ℕ} {mem : Mem}
  {wrote : List (ℕ × ℕ)}
  {sp n : ℕ} {ps orig : List ℕ}

theorem base_lt : o.base sp n < addrMax := by
  unfold ExecOrder.base subWord addrMax
  omega

theorem length_places : (o.places sp n).length = 2 + o.prefixes.length + o.extra.length := by
  rw [ExecOrder.places, length_putAll]
  simp only [ExecOrder.strs, length_append, length_cons]
  omega

theorem length_vector_narg : (o.vector sp orig).length = o.narg orig.length := by
  rw [ExecOrder.vector, length_append, length_append, length_take, length_drop, length_places,
    length_tail, ExecOrder.narg]
  omega

theorem length_vector_bytes :
    ((o.vector sp orig ++ [0]).flatMap wordBytes).length = (o.narg orig.length + 1) * 8 := by
  rw [length_words, length_append, length_singleton, length_vector_narg, Nat.mul_comm]

theorem putAll_cons (c : ℕ) (s : List UInt8) (ss : List (List UInt8)) :
    (putAll c (s :: ss)).1 = c :: (putAll ((c + s.length + 1) % addrMax) ss).1 := rfl

theorem places_cons (sp n : ℕ) : ∃ qs, o.places sp n = o.base sp n :: qs := by
  rw [ExecOrder.places, ExecOrder.strs, cons_append, putAll_cons]
  exact ⟨_, rfl⟩

theorem head_places : (o.places sp n).headD 0 = o.base sp n := by
  obtain ⟨qs, hqs⟩ := @places_cons o sp n
  rw [hqs]
  exact headD_cons

theorem vector_cons (sp : ℕ) (orig : List ℕ) :
    ∃ vs, o.vector sp orig = o.base sp orig.length :: vs := by
  obtain ⟨qs, hqs⟩ := @places_cons o sp orig.length
  rw [ExecOrder.vector, hqs, Nat.add_comm 2, take_succ_cons]
  exact ⟨_, rfl⟩

/-- What a call that goes ahead has done. -/
structure Done (f : Faults) (t : Tracee) (o : ExecOrder) (orig : List ℕ) (arg : ℕ → ℕ) (mem : Mem)
    (wrote : List (ℕ × ℕ)) : Prop where
  strs : o.base t.sp orig.length + (blob o.strs).length ≤ userMax
  arr : o.base t.sp orig.length + (blob o.strs).length ≤ o.arr t.sp orig.length
  vector : o.arr t.sp orig.length + (o.narg orig.length + 1) * 8 ≤ userMax
  mem : mem = putBytes (putBytes t.mem (o.base t.sp orig.length) (blob o.strs))
    (o.arr t.sp orig.length) ((o.vector t.sp orig ++ [0]).flatMap wordBytes)
  path : f.store → arg o.pathArg = o.base t.sp orig.length
  argv : f.store → arg (o.pathArg + 1) = o.arr t.sp orig.length
  guest : f.store = false → arg = t.arg
  wrote : wrote = o.pieces t.sp orig.length

/-- The strings, and then the vector, written for these pointers of the guest. -/
def strsOut (f : Faults) (t : Tracee) (o : ExecOrder) (orig : List ℕ) : Bool × Mem :=
  writeStrs f (o.places t.sp orig.length) o.strs t.mem

def vectorOut (f : Faults) (t : Tracee) (o : ExecOrder) (orig : List ℕ) : Bool × Mem :=
  copyOut f (o.arr t.sp orig.length) ((o.vector t.sp orig ++ [0]).flatMap wordBytes)
    (strsOut f t o orig).2

theorem exec_eq (horig : readArgv pg t.mem (t.arg (o.pathArg + 1)) (kMaxArgs + 1) [] = orig) :
    execThroughInterp f pg t o =
      if (strsOut f t o orig).1 ∧
      (vectorOut f t o orig).1 then .goes
      (if f.store then setArg (setArg t.arg o.pathArg ((o.places t.sp orig.length).headD 0))
        (o.pathArg + 1 : ℕ) (o.arr t.sp orig.length) else t.arg) (vectorOut f t o orig).2
      (o.pieces t.sp orig.length) else .refused := by
  rw [execThroughInterp, horig, vectorOut, strsOut]
  rcases writeStrs f (o.places t.sp orig.length) o.strs t.mem with ⟨_ | _, mem1⟩
  · rw [if_neg fun h => Bool.false_ne_true h.1]
  · rcases hout : copyOut f (o.arr t.sp orig.length) ((o.vector t.sp orig ++ [0]).flatMap wordBytes)
      mem1 with ⟨_ | _, mem2⟩
    · simp only [hout, Bool.false_eq_true, and_false, if_false]
    · simp only [hout, and_self, if_true]

theorem arr_lt : o.arr sp n < addrMax :=
  lt_of_le_of_lt (Nat.div_mul_le_self _ _) (Nat.mod_lt _ (by decide))

theorem exec_done (horig : readArgv pg t.mem (t.arg (o.pathArg + 1)) (kMaxArgs + 1) [] = orig)
    (h : execThroughInterp f pg t o = .goes arg mem wrote) : Done f t o orig arg mem wrote := by
  rw [exec_eq horig] at h
  by_cases hok : (strsOut f t o orig).1 ∧ (vectorOut f t o orig).1
  case neg => exact absurd (h.symm.trans (if_neg hok)) Launched.noConfusion
  rw [if_pos hok] at h
  have hne : o.strs ≠ [] := by
    rw [ExecOrder.strs, cons_append]
    exact cons_ne_nil _ _
  obtain ⟨h1, h3⟩ := writeStrs_ok base_lt (fun hnil => absurd hnil hne) (Prod.ext hok.1 rfl)
  have harr : o.base t.sp orig.length + (blob o.strs).length ≤ o.arr t.sp orig.length := by
    rw [ExecOrder.arr, putAll_snd (lt_of_le_of_lt h1 userMax_lt)]
    unfold userMax at h1
    unfold addrMax
    omega
  obtain ⟨h4, h5⟩ :=
    copyOut_ok arr_lt (by rw [← length_pos_iff, length_vector_bytes]; omega) (Prod.ext hok.2 rfl)
  obtain ⟨rfl, rfl, rfl⟩ := Launched.goes.inj h
  have hle := o.pathArg_le
  refine ⟨h1, harr, length_vector_bytes ▸ h4, h5.trans (congrArg (putBytes · _ _) h3), fun hs => ?_,
    fun hs => ?_, fun hs => if_neg (by simp [hs]), rfl⟩
  · rw [if_pos hs]
    have hne :=
      @setArg_ne (setArg t.arg o.pathArg ((o.places t.sp orig.length).headD 0))
      ((o.pathArg + 1 : ℕ) : ℤ) o.pathArg
      (o.arr t.sp orig.length) (by omega) (by omega)
    have hself :=
      @setArg_self t.arg o.pathArg ((o.places t.sp orig.length).headD 0) (by omega) (by omega)
    rw [Int.toNat_natCast] at hne hself
    rw [hne, hself, head_places]
  · rw [if_pos hs]
    have hself := @setArg_self (setArg t.arg o.pathArg ((o.places t.sp orig.length).headD 0))
      ((o.pathArg + 1 : ℕ) : ℤ) (o.arr t.sp orig.length) (by omega) (by omega)
    rwa [Int.toNat_natCast] at hself

theorem pieces_pairwise (hs : o.base sp n + (blob o.strs).length < addrMax)
    (ha : o.base sp n + (blob o.strs).length ≤ o.arr sp n) :
    (o.pieces sp n).Pairwise (fun a b => a.1 + a.2 ≤ b.1 ∨ b.1 + b.2 ≤ a.1) := by
  obtain ⟨hsorted, hends⟩ := putAll_sorted hs
  rw [ExecOrder.pieces, pairwise_append]
  refine ⟨hsorted.imp .inl, pairwise_singleton _ _, fun a ha b hb => .inl ?_⟩
  rw [mem_singleton.1 hb]
  have := (hends a ha).2
  omega

/-- With room for the block, all of it lies below the stack pointer. -/
theorem pieces_below (hsp : sp < addrMax)
    (hroom : 512 + (o.strBytes + (o.narg n + 1) * 8 + 64) ≤ sp) :
    (o.pieces sp n).Pairwise (fun a b => a.1 + a.2 ≤ b.1 ∨ b.1 + b.2 ≤ a.1) ∧
      ∀ r ∈ o.pieces sp n, r.1 + r.2 + 512 ≤ sp := by
  have hbase : o.base sp n + 512 + ((blob o.strs).length + (o.narg n + 1) * 8 + 64) ≤ sp := by
    rw [length_blob]
    unfold addrMax at hsp
    unfold ExecOrder.base subWord
    unfold ExecOrder.strBytes at hroom ⊢
    omega
  have hs : o.base sp n + (blob o.strs).length < addrMax := by omega
  have harr : o.base sp n + (blob o.strs).length ≤ o.arr sp n ∧
      o.arr sp n ≤ o.base sp n + (blob o.strs).length + 15 := by
    rw [ExecOrder.arr, putAll_snd hs]
    unfold addrMax at hsp ⊢
    omega
  refine ⟨pieces_pairwise hs harr.1,
    forall_mem_append.2 ⟨fun r hr => ?_, forall_mem_singleton.2 (by dsimp only; omega)⟩⟩
  have := ((putAll_sorted hs).2 r hr).2
  omega

/-- The string pieces leave no byte of the block of strings out. -/
theorem putAll_cover {start x : ℕ} {ss : List (List UInt8)}
    (huser : start + (blob ss).length ≤ userMax) (h1 : start ≤ x)
    (h2 : x < start + (blob ss).length) :
    ∃ r ∈ (putAll start ss).1.zip (ss.map fun s => s.length + 1), r.1 ≤ x ∧ x < r.1 + r.2 := by
  induction ss generalizing start with
  | nil =>
    have : (blob []).length = 0 := rfl
    omega
  | cons s ss ih =>
    rw [length_blob_cons] at huser h2
    rw [putAll, cursor_eq (by omega)]
    rw [map_cons, zip_cons_cons]
    by_cases hx : x < start + s.length + 1
    · exact ⟨_, .head _, h1, by dsimp only; omega⟩
    · obtain ⟨r, hr, hx'⟩ := @ih (start + s.length + 1) (by omega) (by omega) (by omega)
      exact ⟨r, .tail _ hr, hx'⟩

namespace Done

variable (h : Done f t o orig arg mem wrote)

include h

theorem mem_eq {x : ℕ} (hx : ∀ r ∈ o.pieces t.sp orig.length, ¬(r.1 ≤ x ∧ x < r.1 + r.2)) :
    mem x = t.mem x := by
  have hvec := hx _ (mem_append_right _ (.head _))
  have hstrs :
      ¬(o.base t.sp orig.length ≤ x ∧ x < o.base t.sp orig.length + (blob o.strs).length) := by
    rintro ⟨h1, h2⟩
    obtain ⟨r, hr, hxr⟩ := putAll_cover h.strs h1 h2
    exact hx r (mem_append_left _ hr) hxr
  rw [h.mem, putBytes_of_apart, putBytes_of_apart (by omega)]
  rw [length_vector_bytes]
  omega

theorem strs_at (hnul : ∀ s ∈ o.strs, 0 ∉ s) :
    List.Forall₂ (StrIs mem) (o.places t.sp orig.length) o.strs := by
  have hplaces := @putAll_pieces t.mem (o.base t.sp orig.length) o.strs h.strs
  refine forall₂_imp_of_right hplaces hnul fun p s hnul hp => ⟨?_, hnul⟩
  obtain ⟨h1, h2, h3⟩ := hp
  have harr := h.arr
  rw [length_append, length_singleton] at h2 h3
  rw [h.mem]
  refine (bytesAt_congr fun x hx1 hx2 => ?_).trans h3
  exact putBytes_of_apart (.inl (by omega))

theorem places_ne_zero (hbase : o.base t.sp orig.length ≠ 0) :
    ∀ p ∈ o.places t.sp orig.length, p ≠ 0 ∧ p < 2 ^ 64 := by
  intro p hp
  obtain ⟨s, h1, h2, -⟩ := (exists_of_forall₂ (@putAll_pieces t.mem _ _ h.strs)).1 p hp
  have := h.strs
  unfold userMax at this
  omega

theorem terminated (hs : f.store) (hbase : o.base t.sp orig.length ≠ 0)
    (horig : ∀ p ∈ orig.tail, p ≠ 0 ∧ p < 2 ^ 64) :
    Terminated mem (arg (o.pathArg + 1)) (o.vector t.sp orig) := by
  have hall : ∀ v ∈ o.vector t.sp orig, v ≠ 0 ∧ v < 2 ^ 64 := by
    intro v hv
    rw [ExecOrder.vector, mem_append, mem_append] at hv
    obtain (hv | hv) | hv := hv
    · exact h.places_ne_zero hbase v (mem_of_mem_take hv)
    · exact horig v hv
    · exact h.places_ne_zero hbase v (mem_of_mem_drop hv)
  rw [h.argv hs, h.mem]
  exact terminated_putBytes (fun v hv => (hall v hv).1) fun v hv => (hall v hv).2

theorem first_word (hs : f.store) : word mem (arg (o.pathArg + 1)) = o.base t.sp orig.length := by
  obtain ⟨vs, hvs⟩ := @vector_cons o t.sp orig
  rw [h.argv hs, h.mem, hvs, cons_append, flatMap_cons, putBytes_append, length_wordBytes,
    word_congr fun x _ hx => putBytes_of_apart (.inl hx)]
  exact word_putBytes base_lt

theorem program_at (hs : f.store) (hnul : ∀ s ∈ o.strs, 0 ∉ s) :
    StrIs mem (arg o.pathArg) o.interp := by
  obtain ⟨qs, hqs⟩ := @places_cons o t.sp orig.length
  have hstrs := h.strs_at hnul
  rw [hqs, ExecOrder.strs, cons_append, List.forall₂_cons] at hstrs
  rw [h.path hs]
  exact hstrs.1

theorem arg_ne_zero (hs : f.store) : arg (o.pathArg + 1) ≠ 0 := by
  have hpos : 0 < (blob o.strs).length := by
    rw [ExecOrder.strs, cons_append, length_blob_cons]
    omega
  have := h.arr
  rw [h.argv hs]
  omega

end Done

theorem Argv.entry (hps : Argv pg t.mem (t.arg (o.pathArg + 1)) ps) :
    ∀ p ∈ ps.tail, p ≠ 0 ∧ p < 2 ^ 64 := by
  intro p hp
  obtain ⟨-, rfl⟩ | ⟨-, hterm, -⟩ := hps
  · cases hp
  · have hmem := mem_of_mem_tail hp
    obtain ⟨i, hi, rfl⟩ := mem_iff_getElem.1 hmem
    refine ⟨hterm.2 _ hmem, ?_⟩
    have hword := hterm.word_eq hi
    rw [List.getElem?_eq_getElem hi] at hword
    rw [Option.some.inj hword]
    exact word_lt _ _

theorem strs_append : o.strs = (o.interp :: o.prefixes ++ [o.prog]) ++ o.extra := by
  rw [ExecOrder.strs, append_assoc]
  rfl

theorem Done.strs_split (h : Done f t o orig arg mem wrote) (hnul : ∀ s ∈ o.strs, 0 ∉ s) :
    List.Forall₂ (StrIs mem) ((o.places t.sp orig.length).take (2 + o.prefixes.length))
      (o.interp :: o.prefixes ++ [o.prog]) ∧
      List.Forall₂ (StrIs mem) ((o.places t.sp orig.length).drop (2 + o.prefixes.length))
      o.extra := by
  have hlen : (o.interp :: o.prefixes ++ [o.prog]).length = 2 + o.prefixes.length := by
    simp only [length_append, length_cons, length_nil]
    omega
  have hall := h.strs_at hnul
  rw [strs_append, ← take_append_drop (2 + o.prefixes.length) (o.places t.sp orig.length),
    forall₂_append_iff] at hall
  · exact hall
  · rw [length_take, length_places, hlen]
    omega

/-- Strings that are found as they were to be hold no NUL. -/
theorem Right.nulFree (h : Right f pg t o arg mem wrote ps) : ∀ s ∈ o.strs, 0 ∉ s := by
  obtain ⟨as, bs, -, -, has, hbs⟩ := h.vector
  intro s hs
  rw [strs_append, mem_append] at hs
  have hex {l : List (List UInt8)} {qs : List ℕ} (hf : List.Forall₂ (StrIs mem) qs l) (hm : s ∈ l) :
      0 ∉ s := by
    obtain ⟨i, hi, rfl⟩ := mem_iff_getElem.1 hm
    exact (hf.get (hf.length_eq ▸ hi) hi).2
  exact hs.elim (hex has) (hex hbs)

/-- The guest's own vector, left as it was, is shorter than the new one. -/
theorem Right.stored (hdone : Done f t o orig arg mem wrote)
    (h : Right f pg t o arg mem wrote ps) : f.store = true := by
  by_contra hs
  have hs : f.store = false := by simpa using hs
  obtain ⟨as, bs, hne, hterm, has, -⟩ := h.vector
  rw [hdone.guest hs] at hne hterm
  rcases h.argv with ⟨hzero, -⟩ | ⟨-, hps, -⟩
  · exact hne hzero
  have hkept : Terminated mem (t.arg (o.pathArg + 1)) ps := by
    refine ⟨?_, hps.2⟩
    rw [← hps.1]
    refine wordsAt_congr fun x h1 h2 => hdone.mem_eq fun r hr hx => ?_
    exact h.own hs r (hdone.wrote ▸ hr) x hx.1 hx.2 ⟨h1, h2⟩
  have hlen := congrArg List.length (hterm.unique hkept)
  rw [length_append, length_append, has.length_eq, length_tail] at hlen
  simp only [length_append, length_cons, length_nil] at hlen
  omega

/-- **The vector of a call that goes ahead is right** exactly when the registers could be stored, no
string holds a NUL, the guest's own vector could be read and is no longer than the loop goes, and
the block below the stack pointer holds nothing that the call still needs. -/
theorem exec_vector_right_iff (h : execThroughInterp f pg t o = .goes arg mem wrote) :
    (∃ ps, Right f pg t o arg mem wrote ps) ↔
      f.store = true ∧ (∀ s ∈ o.strs, 0 ∉ s) ∧
        ∃ ps, Argv pg t.mem (t.arg (o.pathArg + 1)) ps ∧
          ps.length ≤ capacity (t.arg (o.pathArg + 1)) ∧ o.base t.sp ps.length ≠ 0 ∧
          ∀ r ∈ o.pieces t.sp ps.length, ∀ x, r.1 ≤ x → x < r.1 + r.2 → ¬Needed pg t o x := by
  constructor
  · rintro ⟨ps, hright⟩
    have hdone := exec_done (readArgv_of_argv hright.argv) h
    have hs := hright.stored hdone
    refine ⟨hs, hright.nulFree, ?_⟩
    have hentry := Argv.entry hright.argv
    have hcap : 2 ≤ capacity (t.arg (o.pathArg + 1)) := by
      unfold capacity kMaxArgs
      omega
    generalize capacity (t.arg (o.pathArg + 1)) = cap at hdone hcap ⊢
    have htail : ∀ p ∈ (ps.take cap).tail, p ≠ 0 ∧ p < 2 ^ 64 := by
      intro p hp
      exact hentry p ((take_sublist cap ps).tail.subset hp)
    obtain ⟨as, bs, -, hterm, has, hbs⟩ := hright.vector
    have has' := has.length_eq
    have hbs' := hbs.length_eq
    -- a vector whose first entry is the address 0 would be empty
    have hbase : o.base t.sp (ps.take cap).length ≠ 0 := by
      rw [← hdone.first_word hs]
      refine hterm.word_ne_zero (i := 0) ?_
      rw [length_append, length_append, has']
      simp
    have hsame := hterm.unique (hdone.terminated hs hbase htail)
    have hlen : ps.length ≤ cap := by
      have hlen := congrArg List.length hsame
      rw [length_vector_narg, length_append, length_append, ExecOrder.narg, has', hbs', length_tail,
        length_take] at hlen
      simp only [length_append, length_cons, length_nil] at hlen
      omega
    rw [take_of_length_le hlen] at hdone hbase
    refine ⟨ps, hright.argv, hlen, hbase, ?_⟩
    rw [← hdone.wrote]
    exact hright.apart.2
  · rintro ⟨hs, hnul, ps, hargv, hcap, hbase, hneed⟩
    have horig := readArgv_of_argv hargv
    rw [take_of_length_le hcap] at horig
    have hdone := exec_done horig h
    obtain ⟨hfirst, hlast⟩ := hdone.strs_split hnul
    refine ⟨ps, hargv, hdone.program_at hs hnul, ⟨_, _, hdone.arg_ne_zero hs,
      hdone.terminated hs hbase (Argv.entry hargv), hfirst, hlast⟩, fun p hp x hx => ?_, ⟨?_, ?_⟩,
      fun hno => absurd hs (by simp [hno])⟩
    · exact hdone.mem_eq fun r hr hxr => hneed r hr x hxr.1 hxr.2 (.inl ⟨ps, hargv, p, hp, hx⟩)
    · rw [hdone.wrote]
      exact pieces_pairwise (lt_of_le_of_lt hdone.strs userMax_lt) hdone.arr
    · rw [hdone.wrote]
      exact hneed

end Goes

/-! ## Two calls -/

/-- `execve` with a vector at the end of a page: one argument, and the next entry on the page
behind. -/
def execTask : Tracee where
  sp := 0x8000
  arg i := if i = 1 then 0x1ff8 else 0
  mem a := if a = 0x1ff9 then 0x30 else 0

/-- To run `/p` with `/ld`. -/
def execOrder : ExecOrder where
  pathArg := 0
  interp := [0x2f, 0x6c, 0x64]
  prog := [0x2f, 0x70]
  prefixes := []
  extra := []
  pathArg_le := by decide

/-- The task has the pages from 1 to 7, or all of these but the page 2. -/
def pagesBut2 : Pages where
  readable n := decide (0 < n ∧ n < 8 ∧ n ≠ 2)
  user n h := by
    have := of_decide_eq_true h
    unfold userMax
    omega

def pagesTo7 : Pages where
  readable n := decide (0 < n ∧ n < 8)
  user n h := by
    have := of_decide_eq_true h
    unfold userMax
    omega

theorem execTask_goes : (strsOut noFaults execTask execOrder [0x3000]).1 ∧
    (vectorOut noFaults execTask execOrder [0x3000]).1 := by
  constructor <;> decide +kernel

/-- Where the second entry cannot be read, the call goes ahead with the first alone. -/
theorem unreadable_argv_goes :
    ∃ arg mem wrote, execThroughInterp noFaults pagesBut2 execTask execOrder = .goes arg mem wrote ∧
      (¬∃ ps, Argv pagesBut2 execTask.mem (execTask.arg (execOrder.pathArg + 1)) ps) ∧
      ¬∃ ps, Right noFaults pagesBut2 execTask execOrder arg mem wrote ps := by
  have horig : readArgv pagesBut2 execTask.mem (execTask.arg (execOrder.pathArg + 1)) (kMaxArgs + 1)
      [] = [0x3000] := by
    have hgot : (wordsAt execTask.mem 0x1ff8 1).takeWhile (· != 0) = [0x3000] := by decide +kernel
    rw [readArgv, if_pos (by decide)]
    rw [if_pos (by decide)]
    show (if ((wordsAt execTask.mem 0x1ff8 1).takeWhile (· != 0)).length = 1 then
      readArgv _ _ _ kMaxArgs ([] ++ (wordsAt execTask.mem 0x1ff8 1).takeWhile (· != 0)) else _) = _
    rw [hgot, if_pos (by decide), show kMaxArgs = 2097151 + 1 from rfl, readArgv,
      if_pos (by decide)]
    exact if_neg (by decide +kernel)
  have hnone : ¬∃ ps, Argv pagesBut2 execTask.mem (execTask.arg (execOrder.pathArg + 1)) ps := by
    rintro ⟨ps, ⟨hzero, -⟩ | ⟨-, hterm, hread⟩⟩
    · exact absurd hzero (by decide)
    · -- the first entry is not the end, and the next lies on the page that is missing
      rw [Pages.canRead, all_eq_true] at hread
      rcases Nat.eq_zero_or_pos ps.length with hlen | hlen
      · have hend := hterm.word_end
        rw [hlen] at hend
        exact absurd hend (by decide +kernel)
      · exact absurd (hread 8 (mem_range.2 (by omega))) (by decide)
  exact ⟨_, _, _, (exec_eq horig).trans (if_pos execTask_goes), hnone,
    fun ⟨ps, hright⟩ => hnone ⟨ps, hright.argv⟩⟩

/-- `execve` with three arguments, the second of which is `a`, and one string of environment. -/
def scriptTask : Tracee where
  sp := 0x8000
  arg i := if i = 1 then 0x2000 else if i = 2 then 0x2100 else 0
  mem a :=
    if a = 0x2001 ∨ a = 0x2009 ∨ a = 0x2011 ∨ a = 0x2101 then 0x30
    else if a = 0x2008 then 0x10 else if a = 0x2010 then 0x20 else if a = 0x2100 then 0x30
    else if a = 0x3010 then 0x61 else 0

/-- To run `/p` with `/ld -x` in front and `z` behind. -/
def scriptOrder : ExecOrder where
  pathArg := 0
  interp := [0x2f, 0x6c, 0x64]
  prog := [0x2f, 0x70]
  prefixes := [[0x2d, 0x78]]
  extra := [[0x7a]]
  pathArg_le := by decide

theorem exec_vector_right_script : ∃ arg mem wrote ps,
    execThroughInterp noFaults pagesTo7 scriptTask scriptOrder = .goes arg mem wrote ∧
      Right noFaults pagesTo7 scriptTask scriptOrder arg mem wrote ps := by
  have hargs : Terminated scriptTask.mem 0x2000 [0x3000, 0x3010, 0x3020] :=
    ⟨by decide +kernel, by decide⟩
  have henv : Terminated scriptTask.mem 0x2100 [0x3030] := ⟨by decide +kernel, by decide⟩
  have hargv : Argv pagesTo7 scriptTask.mem (scriptTask.arg (scriptOrder.pathArg + 1))
      [0x3000, 0x3010, 0x3020] := .inr ⟨by decide, hargs, by decide +kernel⟩
  have horig := readArgv_of_argv hargv
  rw [take_of_length_le (by unfold capacity kMaxArgs; simp)] at horig
  have hgoes : (strsOut noFaults scriptTask scriptOrder [0x3000, 0x3010, 0x3020]).1 ∧
      (vectorOut noFaults scriptTask scriptOrder [0x3000, 0x3010, 0x3020]).1 := by
    constructor <;> decide +kernel
  have h := (@exec_eq noFaults _ _ _ _ horig).trans (if_pos hgoes)
  -- all that is needed lies below 0x4000, and the block above
  have hstr : ∀ p < 0x4000, ∀ x, InStr scriptTask.mem p x → x < 0x4000 := by
    intro p hp x hx
    by_contra hge
    exact hx.2 0x3fff (by omega) (by omega) (by decide)
  have hneeds : ∀ x, Needed pagesTo7 scriptTask scriptOrder x → x < 0x4000 := by
    rintro x (⟨ps, hps, p, hp, hx⟩ | ⟨es, hes, hx⟩)
    · obtain ⟨hzero, -⟩ | ⟨-, hterm, -⟩ := hps
      · exact absurd hzero (by decide)
      · rw [hterm.unique hargs] at hp
        exact hstr p (by simp at hp; omega) x hx
    · obtain ⟨hzero, -⟩ | ⟨-, hterm, -⟩ := hes
      · exact absurd hzero (by decide)
      · rw [hterm.unique henv] at hx
        rcases hx with ⟨-, -, hx⟩ | ⟨p, hp, hx⟩
        · exact hx.trans (by decide)
        · exact hstr p (by simp at hp; omega) x hx
  have hblock : ∀ r ∈ scriptOrder.pieces scriptTask.sp 3, 0x4000 ≤ r.1 := by decide +kernel
  have hfree : ∀ r ∈ scriptOrder.pieces scriptTask.sp 3, ∀ x, r.1 ≤ x → x < r.1 + r.2 →
      ¬Needed pagesTo7 scriptTask scriptOrder x := fun r hr x hx _ hn =>
    absurd ((hblock r hr).trans hx) (not_le.2 (hneeds x hn))
  obtain ⟨ps, hright⟩ := (exec_vector_right_iff h).2 ⟨rfl, by decide, _, hargv,
    by unfold capacity kMaxArgs; simp, by decide +kernel, hfree⟩
  exact ⟨_, _, _, ps, h, hright⟩

end Linuxity.Runtime

import Mathlib.Algebra.Group.Int.Units
import Mathlib.Data.List.Basic
import Mathlib.Tactic.ByContra
import Mathlib.Tactic.SplitIfs

/-!
# Hvf.CopyBytes — copies between two descriptors (`runtime/darwin/trap.hpp`)

`sendfile`, `splice` and `copy_file_range` are loops of reads and writes in chunks of up to a
megabyte.  The host may read and write less than it is asked to, and may fail in any round.
-/

namespace Linuxity.Hvf.CopyBytes

/-! ## The loop -/

structure Round where
  read : Except ℕ ℕ
  write : Except ℕ ℕ

def bytes (src : ℕ → UInt8) (start n : ℕ) : List UInt8 :=
  (List.range n).map fun k => src (start + k)

structure Copy where
  done : ℕ := 0
  /-- Negative: the source's own position is used. -/
  inOff : ℤ
  pos : ℕ
  written : List UInt8 := []

def Copy.start (c : Copy) : ℕ := if c.inOff < 0 then c.pos else c.inOff.toNat

def want (len done : ℕ) : ℕ := min (len - done) (min len (2 ^ 20))

def Copy.afterRead (c : Copy) (got : ℕ) : Copy :=
  if c.inOff < 0 then { c with pos := c.pos + got } else c

def Copy.afterWrite (src : ℕ → UInt8) (c : Copy) (got put : ℕ) : Copy :=
  { c.afterRead got with
    done := c.done + put
    inOff := if 0 ≤ c.inOff then c.inOff + put else c.inOff
    written := c.written ++ bytes src c.start put }

inductive Turn where
  /-- Nothing is written, and `lost` bytes have been read. -/
  | stop (err : Option ℕ) (lost : ℕ)
  | move (got put : ℕ)

def turn (r : Round) (want : ℕ) : Turn :=
  match r.read with
  | .error e => .stop (some e) 0
  | .ok n =>
    let got := min n want
    if got = 0 then .stop none 0
    else
      match r.write with
      | .error e => .stop (some e) got
      | .ok m => .move got (min m got)

section Loop

variable (src : ℕ → UInt8) (host : ℕ → Round) (once : Bool) (len : ℕ)

/-- The rounds from `i` on, and the errno of the call that failed. -/
def copyLoop : ℕ → ℕ → Copy → Copy × Option ℕ
  | 0, _, c => (c, none)
  | fuel + 1, i, c =>
    if c.done < len then
      match turn (host i) (want len c.done) with
      | .stop err lost => (c.afterRead lost, err)
      | .move got put =>
        if put < got ∨ once then (c.afterWrite src got put, none)
        else copyLoop fuel (i + 1) (c.afterWrite src got put)
    else (c, none)

/-- A round that is reached reads more than it writes. -/
def leaks : ℕ → ℕ → ℕ → Bool
  | 0, _, _ => false
  | fuel + 1, i, done =>
    if done < len then
      match turn (host i) (want len done) with
      | .stop _ lost => lost != 0
      | .move got put => if put < got ∨ once then put < got else leaks fuel (i + 1) (done + put)
    else false

def fails : ℕ → ℕ → ℕ → Bool
  | 0, _, _ => false
  | fuel + 1, i, done =>
    if done < len then
      match turn (host i) (want len done) with
      | .stop err _ => err.isSome
      | .move got put => if put < got ∨ once then false else fails fuel (i + 1) (done + put)
    else false

end Loop

def idle (host : ℕ → Round) (len : ℕ) : Prop :=
  len = 0 ∨ (host 0).read = .ok 0 ∨ (host 0).write = .ok 0 ∨ (∃ e, (host 0).read = .error e) ∨
    ∃ e, (host 0).write = .error e

/-! ## The calls -/

structure OffPtr where
  /-- None if it cannot be read. -/
  value : Option ℤ
  writable : Bool

structure Args where
  src : ℕ → UInt8
  pos : ℕ
  opened : Bool
  inPtr : Option OffPtr
  outPtr : Option OffPtr
  len : ℕ
  stream : Bool
  host : ℕ → Round

structure Result where
  ret : Except ℕ ℕ
  inVal : Option ℤ
  outVal : Option ℤ
  pos : ℕ
  written : List UInt8

variable (a : Args) (p : Option OffPtr)

def ptrValue : Option ℤ := p.bind (·.value)

def Args.refuse (e : ℕ) : Result := ⟨.error e, ptrValue a.inPtr, ptrValue a.outPtr, a.pos, []⟩

def offset : Option OffPtr → Option ℤ
  | none => some (-1)
  | some p => p.value

def copyBetween (inOff : ℤ) : Copy × Option ℕ :=
  copyLoop a.src a.host (decide (inOff < 0) && a.stream) a.len a.len 0
    { inOff := inOff, pos := a.pos }

/-- `return done ? done : fail()`. -/
def moved (c : Copy) (failed : Option ℕ) : Except ℕ ℕ :=
  match failed with
  | some e => if c.done = 0 then .error e else .ok c.done
  | none => .ok c.done

/-- What the pointer holds after `v` is stored where `off` is not negative; `none` is EFAULT. -/
def store (off v : ℤ) : Option (Option ℤ) :=
  match p with
  | none => some none
  | some p => if 0 ≤ off then (if p.writable then some (some v) else none) else some p.value

def Args.start (body : ℤ → ℤ → Result) : Result :=
  if !a.opened then a.refuse 9
  else
    match offset a.inPtr, offset a.outPtr with
    | some inOff, some outOff => body inOff outOff
    | _, _ => a.refuse 14

def Args.failed (c : Copy) (e : ℕ) : Result :=
  ⟨.error e, ptrValue a.inPtr, ptrValue a.outPtr, c.pos, c.written⟩

/-- `v` and the new offset of the destination are stored, where they are not negative. -/
def Args.storeBoth (c : Copy) (v outOff : ℤ) : Result :=
  match store a.inPtr c.inOff v with
  | none => a.failed c 14
  | some x =>
    match store a.outPtr outOff (outOff + c.done) with
    | none => ⟨.error 14, x, ptrValue a.outPtr, c.pos, c.written⟩
    | some y => ⟨.ok c.done, x, y, c.pos, c.written⟩

def sendfile : Result :=
  a.start fun off _ =>
    let (c, failed) := copyBetween a off
    match moved c failed with
    | .error e => a.failed c e
    | .ok r =>
      -- the pointer is stored even for a negative offset
      match store a.inPtr 0 (c.inOff + r) with
      | none => a.failed c 14
      | some v => ⟨.ok r, v, none, c.pos, c.written⟩

def splice : Result :=
  a.start fun inOff outOff =>
    let (c, failed) := copyBetween a inOff
    match moved c failed with
    | .error e => a.failed c e
    | .ok r => a.storeBoth c (c.inOff + r) outOff

def copyFileRange : Result :=
  a.start fun inOff outOff =>
    let (c, failed) := copyLoop a.src a.host false a.len a.len 0 { inOff := inOff, pos := a.pos }
    match failed with
    | some e =>
      -- without a look at the pointers
      if c.done = 0 then a.failed c e
      else ⟨.ok c.done, ptrValue a.inPtr, ptrValue a.outPtr, c.pos, c.written⟩
    | none => a.storeBoth c c.inOff outOff

inductive Call where
  | sendfile
  | splice
  | copyFileRange
  deriving DecidableEq

def Call.run : Call → Args → Result
  | .sendfile => CopyBytes.sendfile
  | .splice => CopyBytes.splice
  | .copyFileRange => CopyBytes.copyFileRange

/-- `sendfile` has no pointer for the destination. -/
def Call.args : Call → Args → Args
  | .sendfile, a => { a with outPtr := none }
  | .splice, a => a
  | .copyFileRange, a => a

def Args.from : ℤ :=
  match a.inPtr with
  | some p => p.value.getD 0
  | none => a.pos

/-- Every byte is accounted for when a count is returned. -/
def Exact (res : Result) : Prop :=
  ∀ r, res.ret = .ok r → res.written = bytes a.src a.from.toNat r ∧ (a.from < 0 → r = 0) ∧
    (∀ v ∈ ptrValue a.inPtr, res.inVal = some (v + r)) ∧
    (∀ v ∈ ptrValue a.outPtr, res.outVal = some (v + r)) ∧
    (a.inPtr = none → res.pos = a.pos + r)

/-! ### When the bytes are accounted for -/

/-- A source that is no regular file and has no offset is read once by `copy_between`. -/
def Call.once : Call → Args → Bool
  | .copyFileRange, _ => false
  | _, a => (offset a.inPtr).any (· < 0) && a.stream

def Call.Fails (k : Call) (a : Args) : Prop := fails a.host (k.once a) a.len a.len 0 0

/-- Some round of the loop reads more than it writes. -/
def Call.Leaks (k : Call) (a : Args) : Prop := leaks a.host (k.once a) a.len a.len 0 0

def Args.Idle : Prop := idle a.host a.len

def Negative : Prop := ∃ v ∈ ptrValue p, v < 0

/-- A pointer to an offset that is no negative one, in memory that cannot be written. -/
def Blocked : Prop := ∃ q ∈ p, q.writable = false ∧ ∃ v ∈ q.value, 0 ≤ v

def Call.Refused (k : Call) (a : Args) : Prop :=
  a.opened = false ∨ offset a.inPtr = none ∨ offset a.outPtr = none ∨ (a.Idle ∧ k.Fails a) ∨
  match k with
  | .sendfile => ∃ q ∈ a.inPtr, q.writable = false
  | .splice => Blocked a.inPtr ∨ Blocked a.outPtr
  | .copyFileRange => ¬k.Fails a ∧ (Blocked a.inPtr ∨ Blocked a.outPtr)

/-- The host's pattern and the pointers are such that the loop's accounts are right. -/
def Call.Accounts (k : Call) (a : Args) : Prop :=
  (a.inPtr = none → ¬k.Leaks a) ∧
  match k with
  | .sendfile => a.inPtr ≠ none → a.Idle
  | .splice => a.inPtr ≠ none ∨ Negative a.outPtr → a.Idle
  | .copyFileRange =>
    Negative a.inPtr ∨ Negative a.outPtr ∨ (k.Fails a ∧ (a.inPtr ≠ none ∨ a.outPtr ≠ none)) → a.Idle

/-! ## What the loop does -/

theorem bytes_zero (src : ℕ → UInt8) (start : ℕ) : bytes src start 0 = [] := rfl

theorem bytes_add (src : ℕ → UInt8) (start m n : ℕ) :
    bytes src start (m + n) = bytes src start m ++ bytes src (start + m) n := by
  unfold bytes
  rw [List.range_add, List.map_append, List.map_map]
  congr 1
  apply List.map_congr_left
  intro k _
  show src (start + (m + k)) = src (start + m + k)
  rw [Nat.add_assoc]

/-- What the rounds have done since `c`: `d` bytes moved, with the source read by its offset or by
its position. -/
structure Moves (src : ℕ → UInt8) (c c' : Copy) (d : ℕ) (leak : Bool) : Prop where
  done : c'.done = c.done + d
  written : c'.written = c.written ++ bytes src c.start d
  byOffset : 0 ≤ c.inOff → c'.inOff = c.inOff + d ∧ c'.pos = c.pos
  byPosition : c.inOff < 0 → c'.inOff = c.inOff ∧ c.pos + d ≤ c'.pos ∧
    (c'.pos = c.pos + d ↔ leak = false)

theorem Moves.refl (src : ℕ → UInt8) (c : Copy) : Moves src c c 0 false where
  done := rfl
  written := by rw [bytes_zero, List.append_nil]
  byOffset _ := ⟨by omega, rfl⟩
  byPosition _ := ⟨rfl, by omega, by simp⟩

theorem Moves.lost (src : ℕ → UInt8) (c : Copy) (n : ℕ) :
    Moves src c (c.afterRead n) 0 (n != 0) := by
  unfold Copy.afterRead
  split_ifs with hn
  · refine ⟨rfl, by rw [bytes_zero, List.append_nil], fun h' => by omega, fun _ => ⟨rfl, ?_, ?_⟩⟩
    · show c.pos + 0 ≤ c.pos + n
      omega
    · simp
  · exact ⟨rfl, by rw [bytes_zero, List.append_nil], fun _ => ⟨by omega, rfl⟩, fun h' => by omega⟩

theorem Moves.round (src : ℕ → UInt8) (c : Copy) {got put : ℕ} (h : put ≤ got) :
    Moves src c (c.afterWrite src got put) put (decide (put < got)) := by
  unfold Copy.afterWrite Copy.afterRead
  by_cases hn : c.inOff < 0
  · rw [if_pos hn]
    refine ⟨rfl, rfl, fun h' => by omega, fun _ => ⟨if_neg (by omega), ?_, ?_⟩⟩
    · show c.pos + put ≤ c.pos + got
      omega
    · show c.pos + got = c.pos + put ↔ _
      rw [decide_eq_false_iff_not]
      omega
  · rw [if_neg hn]
    exact ⟨rfl, rfl, fun _ => ⟨if_pos (by omega), rfl⟩, fun h' => by omega⟩

theorem Moves.trans {src : ℕ → UInt8} {c c' c'' : Copy} {d d' : ℕ} {leak : Bool}
    (h : Moves src c c' d false) (h' : Moves src c' c'' d' leak) :
    Moves src c c'' (d + d') leak := by
  have hs : c'.start = c.start + d := by
    unfold Copy.start
    by_cases hn : c.inOff < 0
    · obtain ⟨h1, _, h2⟩ := h.byPosition hn
      rw [h1, if_pos hn, if_pos hn]
      exact h2.2 rfl
    · obtain ⟨h1, _⟩ := h.byOffset (by omega)
      rw [if_neg hn, if_neg (by omega)]
      omega
  refine ⟨by rw [h'.done, h.done, Nat.add_assoc], ?_, fun ho => ?_, fun hn => ?_⟩
  · rw [h'.written, h.written, hs, bytes_add, List.append_assoc]
  · obtain ⟨h1, h2⟩ := h.byOffset ho
    obtain ⟨h3, h4⟩ := h'.byOffset (by omega)
    exact ⟨by omega, by omega⟩
  · obtain ⟨h1, _, h2⟩ := h.byPosition hn
    obtain ⟨h3, h4, h5⟩ := h'.byPosition (by omega)
    have hp : c'.pos = c.pos + d := h2.2 rfl
    refine ⟨by omega, by omega, ?_⟩
    rw [← h5]
    omega

theorem turn_move {r : Round} {w got put : ℕ} (h : turn r w = .move got put) :
    put ≤ got ∧ 0 < got := by
  unfold turn at h
  cases hr : r.read with
  | error e => rw [hr] at h; cases h
  | ok n =>
    rw [hr] at h
    dsimp only at h
    by_cases hg : min n w = 0
    · rw [if_pos hg] at h
      cases h
    · rw [if_neg hg] at h
      cases hw : r.write with
      | error e => rw [hw] at h; cases h
      | ok m =>
        rw [hw] at h
        cases h
        exact ⟨Nat.min_le_right _ _, Nat.pos_of_ne_zero hg⟩

section Rounds

variable (src : ℕ → UInt8) (host : ℕ → Round) (once : Bool) (len fuel : ℕ)

theorem copyLoop_moves (i : ℕ) (c : Copy) :
    ∃ d, Moves src c (copyLoop src host once len fuel i c).1 d
      (leaks host once len fuel i c.done) := by
  induction fuel generalizing i c with
  | zero => exact ⟨0, Moves.refl src c⟩
  | succ fuel ih =>
    unfold copyLoop leaks
    by_cases hl : c.done < len
    · rw [if_pos hl, if_pos hl]
      cases ht : turn (host i) (want len c.done) with
      | stop err lost => exact ⟨0, Moves.lost src c lost⟩
      | move got put =>
        dsimp only
        have hr := Moves.round src c (turn_move ht).1
        by_cases hp : put < got ∨ once
        · rw [if_pos hp, if_pos hp]
          exact ⟨put, hr⟩
        · rw [if_neg hp, if_neg hp]
          rw [decide_eq_false (not_or.1 hp).1] at hr
          obtain ⟨d, hd⟩ := ih (i + 1) (c.afterWrite src got put)
          rw [hr.done] at hd
          exact ⟨put + d, hr.trans hd⟩
    · rw [if_neg hl, if_neg hl]
      exact ⟨0, Moves.refl src c⟩

/-- One round for each byte is enough: a round that goes on has moved one. -/
theorem copyLoop_fuel (i : ℕ) (c : Copy) (h : len ≤ c.done + fuel) :
    copyLoop src host once len (fuel + 1) i c = copyLoop src host once len fuel i c := by
  induction fuel generalizing i c with
  | zero => exact if_neg (Nat.not_lt.2 h)
  | succ fuel ih =>
    rw [copyLoop, copyLoop]
    by_cases hl : c.done < len
    · rw [if_pos hl, if_pos hl]
      cases ht : turn (host i) (want len c.done) with
      | stop err lost => rfl
      | move got put =>
        by_cases hp : put < got ∨ once
        · simp only [if_pos hp]
        · have hpos := (turn_move ht).2
          have hput := (not_or.1 hp).1
          simp only [if_neg hp]
          exact ih (i + 1) _ (by change len ≤ c.done + put + fuel; omega)
    · rw [if_neg hl, if_neg hl]

theorem copyLoop_fails (i : ℕ) (c : Copy) :
    (copyLoop src host once len fuel i c).2.isSome = fails host once len fuel i c.done := by
  induction fuel generalizing i c with
  | zero => rfl
  | succ fuel ih =>
    unfold copyLoop fails
    by_cases hl : c.done < len
    · rw [if_pos hl, if_pos hl]
      cases turn (host i) (want len c.done) with
      | stop err lost => rfl
      | move got put =>
        dsimp only
        split_ifs
        · rfl
        · exact ih (i + 1) (c.afterWrite src got put)
    · rw [if_neg hl, if_neg hl]
      rfl

end Rounds

/-- The call moves nothing exactly if its first round does not. -/
theorem copyLoop_idle (src : ℕ → UInt8) (host : ℕ → Round) (once : Bool) (len : ℕ) (inOff : ℤ)
    (pos : ℕ) : (copyLoop src host once len len 0 { inOff := inOff, pos := pos }).1.done = 0 ↔
    idle host len := by
  cases len with
  | zero => exact ⟨fun _ => .inl rfl, fun _ => rfl⟩
  | succ k =>
    have hw : 0 < want (k + 1) 0 := by
      unfold want
      omega
    have hread (n : ℕ) : (Copy.afterRead { inOff := inOff, pos := pos } n).done = 0 := by
      unfold Copy.afterRead
      split_ifs <;> rfl
    unfold copyLoop idle turn
    rw [if_pos (Nat.succ_pos k)]
    cases (host 0).read with
    | error e => simp [hread]
    | ok n =>
      dsimp only
      by_cases hn : n = 0
      · simp [hn, hread]
      · rw [if_neg (by omega)]
        cases (host 0).write with
        | error e => simp [hread]
        | ok m =>
          have hz : m = 0 ↔ min m (min n (want (k + 1) 0)) = 0 := by omega
          simp only [Nat.succ_ne_zero, Except.ok.injEq, hn, reduceCtorEq, exists_false, or_false,
            false_or]
          rw [hz]
          split_ifs with hp
          · show 0 + _ = 0 ↔ _
            rw [Nat.zero_add]
          · obtain ⟨d, hd⟩ := copyLoop_moves src host once (k + 1) k (0 + 1)
              (Copy.afterWrite src { inOff := inOff, pos := pos } (min n (want (k + 1) 0))
                  (min m (min n (want (k + 1) 0))))
            rw [hd.done]
            show 0 + _ + d = 0 ↔ _
            omega

/-! ## What the calls do -/

/-- The loop of a call has run to `c`. -/
structure Ran (a : Args) (off : ℤ) (leak fail : Bool) (c : Copy) (failed : Option ℕ) : Prop where
  moves : Moves a.src { inOff := off, pos := a.pos } c c.done leak
  idle : c.done = 0 ↔ a.Idle
  failed : failed.isSome = fail

theorem ran (a : Args) (off : ℤ) (once : Bool) {c : Copy} {failed : Option ℕ}
    (h : copyLoop a.src a.host once a.len a.len 0 { inOff := off, pos := a.pos } = (c, failed)) :
    Ran a off (leaks a.host once a.len a.len 0 0) (fails a.host once a.len a.len 0 0) c failed := by
  obtain ⟨d, hd⟩ := copyLoop_moves a.src a.host once a.len a.len 0 { inOff := off, pos := a.pos }
  have hi := copyLoop_idle a.src a.host once a.len off a.pos
  have hf := copyLoop_fails a.src a.host once a.len a.len 0 { inOff := off, pos := a.pos }
  rw [h] at hd hi hf
  have he : c.done = d := by
    rw [hd.done]
    exact Nat.zero_add d
  rw [← he] at hd
  exact ⟨hd, hi, hf⟩

section

variable {a : Args} {off : ℤ} {leak fail : Bool} {c : Copy} {failed : Option ℕ}

theorem exact_of_error {res : Result} {e : ℕ} (h : res.ret = .error e) : Exact a res := by
  intro r hr
  rw [h] at hr
  cases hr

theorem exact_count {res : Result} (hc : Ran a off leak fail c failed)
    (hoff : offset a.inPtr = some off) (hret : res.ret = .ok c.done) (hw : res.written = c.written)
    (hp : res.pos = c.pos) :
    Exact a res ↔ (Negative a.inPtr → a.Idle) ∧
      (∀ v ∈ ptrValue a.inPtr, res.inVal = some (v + c.done)) ∧
      (∀ v ∈ ptrValue a.outPtr, res.outVal = some (v + c.done)) ∧
      (a.inPtr = none → leak = false) := by
  have hwr : c.written = bytes a.src (Copy.start { inOff := off, pos := a.pos }) c.done := by
    rw [hc.moves.written]
    rfl
  have hneg : Negative a.inPtr ↔ a.from < 0 := by
    unfold Args.from Negative ptrValue
    cases hin : a.inPtr with
    | none => simp
    | some p =>
      have hv : p.value = some off := by
        rw [hin] at hoff
        exact hoff
      simp [hv]
  have hfrom : 0 ≤ a.from → a.from.toNat = Copy.start { inOff := off, pos := a.pos } := by
    unfold Args.from Copy.start
    cases hin : a.inPtr with
    | none =>
      rw [hin] at hoff
      cases hoff
      exact fun _ => rfl
    | some p =>
      have hv : p.value = some off := by
        rw [hin] at hoff
        exact hoff
      simp only [hv, Option.getD_some]
      intro h
      rw [if_neg (Int.not_lt.2 h)]
  have hpos : a.inPtr = none → (c.pos = a.pos + c.done ↔ leak = false) := by
    intro hn
    rw [hn] at hoff
    cases hoff
    exact (hc.moves.byPosition (show (-1 : ℤ) < 0 by decide)).2.2
  have hbytes : (a.from < 0 → c.done = 0) → c.written = bytes a.src a.from.toNat c.done := by
    intro h
    by_cases hf : a.from < 0
    · rw [hwr, h hf, bytes_zero, bytes_zero]
    · rw [hwr, hfrom (by omega)]
  rw [hneg, ← hc.idle]
  constructor
  · intro h
    obtain ⟨_, h1, h2, h3, h4⟩ := h c.done hret
    refine ⟨h1, h2, h3, fun hn => (hpos hn).1 ?_⟩
    rw [← hp]
    exact h4 hn
  · rintro ⟨h1, h2, h3, h4⟩ r hr
    obtain rfl : c.done = r := by
      rw [hret] at hr
      exact Except.ok.inj hr
    refine ⟨by rw [hw]; exact hbytes h1, h1, h2, h3, fun hn => ?_⟩
    rw [hp]
    exact (hpos hn).2 (h4 hn)

theorem moved_error (hc : Ran a off leak fail c failed) (hi : a.Idle) (hf : fail) :
    ∃ e, moved c failed = .error e := by
  have h := hc.failed
  rw [hf] at h
  cases failed with
  | none => cases h
  | some e => exact ⟨e, if_pos (hc.idle.2 hi)⟩

theorem moved_ok (hc : Ran a off leak fail c failed) (h : ¬(a.Idle ∧ fail)) :
    moved c failed = .ok c.done := by
  cases failed with
  | none => rfl
  | some e =>
    refine if_neg fun h0 => h ⟨hc.idle.1 h0, ?_⟩
    rw [← hc.failed]
    rfl

theorem negative_iff {p : Option OffPtr} (h : offset p = some off) :
    Negative p ↔ p ≠ none ∧ off < 0 := by
  unfold Negative ptrValue
  cases p with
  | none => simp
  | some q =>
    have hv : q.value = some off := h
    simp [hv]

theorem store_blocked {p : Option OffPtr} {o v : ℤ} (h : offset p = some off) (ho : 0 ≤ o ↔ 0 ≤ off)
    (hb : Blocked p) : store p o v = none := by
  obtain ⟨q, rfl, hw, u, hu, h0⟩ := hb
  have hv : q.value = some off := h
  rw [hv] at hu
  cases hu
  show (if 0 ≤ o then (if q.writable then some (some v) else none) else some q.value) = none
  rw [if_pos (ho.2 h0), hw]
  rfl

theorem store_ok {p : Option OffPtr} {o v : ℤ} (h : offset p = some off) (ho : 0 ≤ o ↔ 0 ≤ off)
    (hb : ¬Blocked p) : ∃ w, store p o v = some w ∧ ∀ d : ℕ, (∀ u ∈ ptrValue p, w = some (u + d)) ↔
    (p ≠ none → (0 ≤ off → v = off + d) ∧ (off < 0 → d = 0)) := by
  cases p with
  | none => exact ⟨none, rfl, fun d => by simp [ptrValue]⟩
  | some q =>
    have hv : q.value = some off := h
    by_cases h0 : 0 ≤ off
    · have hw : q.writable := by
        by_contra hw
        exact hb ⟨q, rfl, Bool.eq_false_iff.2 hw, off, hv, h0⟩
      refine ⟨some v, ?_, fun d => ?_⟩
      · show (if 0 ≤ o then (if q.writable then some (some v) else none) else some q.value) = _
        rw [if_pos (ho.2 h0), hw]
        rfl
      · simp [ptrValue, hv, h0, Int.not_lt.2 h0]
    · refine ⟨some off, ?_, fun d => ?_⟩
      · show (if 0 ≤ o then (if q.writable then some (some v) else none) else some q.value) = _
        rw [if_neg (fun h' => h0 (ho.1 h')), hv]
      · simp only [ptrValue, hv, h0, Int.not_le.1 h0, Option.bind_some, Option.mem_def,
          Option.some.injEq, forall_eq', ne_eq, reduceCtorEq, not_false_eq_true, forall_const,
          IsEmpty.forall_iff, true_and]
        omega

/-- The offset keeps its sign through the loop. -/
theorem Ran.sign (hc : Ran a off leak fail c failed) : 0 ≤ c.inOff ↔ 0 ≤ off := by
  by_cases h : 0 ≤ off
  · obtain ⟨h1, _⟩ := hc.moves.byOffset h
    have : c.inOff = off + c.done := h1
    omega
  · obtain ⟨h1, _⟩ := hc.moves.byPosition (Int.not_le.1 h)
    have : c.inOff = off := h1
    omega

theorem Ran.inOff_eq (hc : Ran a off leak fail c failed) (h : 0 ≤ off) : c.inOff = off + c.done :=
  (hc.moves.byOffset h).1

theorem once_eq {k : Call} (hk : k ≠ .copyFileRange) (h : offset a.inPtr = some off) :
    k.once a = (decide (off < 0) && a.stream) := by
  cases k with
  | copyFileRange => exact absurd rfl hk
  | sendfile | splice => simp [Call.once, h]

/-- The loop of any of the calls: its checks are passed, and it ends in `c`. -/
structure Begun (k : Call) (a : Args) (off out : ℤ) (c : Copy) (failed : Option ℕ) : Prop where
  inPtr : offset a.inPtr = some off
  outPtr : offset a.outPtr = some out
  ran : Ran a off (leaks a.host (k.once a) a.len a.len 0 0)
    (fails a.host (k.once a) a.len a.len 0 0) c failed
  opened : a.opened

theorem start_cases (k : Call) (a : Args) (body : ℤ → ℤ → Result) :
    k.Refused a ∧ Exact a (a.start body) ∨
      ∃ off out c failed, Begun k a off out c failed ∧ a.start body = body off out ∧
      copyLoop a.src a.host (k.once a) a.len a.len 0 { inOff := off, pos := a.pos } =
        (c, failed) := by
  unfold Args.start
  cases ho : a.opened with
  | false => exact .inl ⟨.inl ho, exact_of_error rfl⟩
  | true =>
    cases hin : offset a.inPtr with
    | none => exact .inl ⟨.inr (.inl hin), exact_of_error rfl⟩
    | some off =>
      cases hout : offset a.outPtr with
      | none => exact .inl ⟨.inr (.inr (.inl hout)), exact_of_error rfl⟩
      | some out => exact .inr ⟨off, out, _, _, ⟨hin, hout, ran a off _ rfl, ho⟩, rfl, rfl⟩

theorem Begun.refused {k : Call} {a : Args} {off out : ℤ} {c : Copy} {failed : Option ℕ}
    (h : Begun k a off out c failed) {rest : Prop} :
    (a.opened = false ∨ offset a.inPtr = none ∨ offset a.outPtr = none ∨ rest) ↔ rest := by
  simp [h.opened, h.inPtr, h.outPtr]

/-- Accounts of the two stores of a call that returns the loop's count. -/
theorem storeBoth_exact {out v : ℤ} (hc : Ran a off leak fail c failed)
    (hoff : offset a.inPtr = some off) (hout : offset a.outPtr = some out) :
    Exact a (a.storeBoth c v out) ↔ (Blocked a.inPtr ∨ Blocked a.outPtr) ∨
      (a.inPtr = none → leak = false) ∧ (a.inPtr ≠ none → 0 ≤ off → v = off + c.done) ∧
      (Negative a.inPtr ∨ Negative a.outPtr → a.Idle) := by
  unfold Args.storeBoth
  by_cases hb : Blocked a.inPtr
  · rw [store_blocked hoff hc.sign hb]
    exact iff_of_true (exact_of_error rfl) (.inl (.inl hb))
  obtain ⟨x, hx, hx'⟩ := store_ok hoff hc.sign hb
  by_cases hb' : Blocked a.outPtr
  · rw [hx, store_blocked hout Iff.rfl hb']
    exact iff_of_true (exact_of_error rfl) (.inl (.inr hb'))
  obtain ⟨y, hy, hy'⟩ := store_ok hout Iff.rfl hb'
  rw [or_iff_right (not_or.2 ⟨hb, hb'⟩), hx, hy, exact_count hc hoff rfl rfl rfl, hx', hy',
    negative_iff hoff, negative_iff hout, ← hc.idle]
  constructor
  · rintro ⟨h1, h2, h3, h4⟩
    exact ⟨h4, fun hn => (h2 hn).1, fun h => h.elim h1 fun h => (h3 h.1).2 h.2⟩
  · rintro ⟨h1, h2, h3⟩
    exact ⟨fun h => h3 (.inl h), fun hn => ⟨h2 hn, fun h => h3 (.inl ⟨hn, h⟩)⟩,
      fun hn => ⟨fun _ => rfl, fun h => h3 (.inr ⟨hn, h⟩)⟩, h1⟩

theorem sendfile_exact_iff (hd : a.outPtr = none) :
    Exact a (sendfile a) ↔ Call.sendfile.Refused a ∨ Call.sendfile.Accounts a := by
  unfold sendfile
  rcases start_cases .sendfile a _ with h | ⟨off, out, c, failed, hb, hs, hl⟩
  · exact iff_of_true h.2 (.inl h.1)
  have hc := hb.ran
  have hoff := hb.inPtr
  rw [hs, show copyBetween a off = (c, failed) by rw [← hl, once_eq (by decide) hoff]; rfl]
  unfold Call.Refused
  rw [hb.refused]
  dsimp only
  by_cases hf : a.Idle ∧ Call.sendfile.Fails a
  · obtain ⟨e, he⟩ := moved_error hc hf.1 hf.2
    rw [he]
    exact ⟨fun _ => .inl (.inl hf), fun _ => exact_of_error rfl⟩
  rw [moved_ok hc hf, or_iff_right hf]
  dsimp only
  unfold Call.Accounts Call.Leaks
  cases hin : a.inPtr with
  | none =>
    rw [exact_count hc hoff rfl rfl rfl, hin, hd]
    simp [ptrValue, Negative]
  | some q =>
    rw [hin] at hoff
    have hv : q.value = some off := hoff
    cases hw : q.writable with
    | false =>
      have hst : store (some q) 0 (c.inOff + c.done) = none := by simp [store, hw]
      rw [hst]
      exact ⟨fun _ => .inl ⟨q, rfl, hw⟩, fun _ => exact_of_error rfl⟩
    | true =>
      have hst : store (some q) 0 (c.inOff + c.done) = some (some (c.inOff + c.done)) := by
        simp [store, hw]
      rw [hst, exact_count hc hb.inPtr rfl rfl rfl, hin, hd, negative_iff hoff, ← hc.idle]
      simp only [ptrValue, hv, hw, Option.bind_some, Option.bind_none, Option.mem_def,
        Option.some.injEq, forall_eq', ne_eq, reduceCtorEq, not_false_eq_true, forall_const,
        IsEmpty.forall_iff, true_and, and_true, exists_eq_left', Bool.true_eq_false, false_or]
      by_cases h0 : 0 ≤ off
      · have he := hc.inOff_eq h0
        omega
      · have he : c.inOff = off := (hc.moves.byPosition (Int.not_le.1 h0)).1
        omega

theorem splice_exact_iff : Exact a (splice a) ↔ Call.splice.Refused a ∨ Call.splice.Accounts a := by
  unfold splice
  rcases start_cases .splice a _ with h | ⟨off, out, c, failed, hb, hs, hl⟩
  · exact iff_of_true h.2 (.inl h.1)
  have hc := hb.ran
  have hoff := hb.inPtr
  have hout := hb.outPtr
  rw [hs, show copyBetween a off = (c, failed) by rw [← hl, once_eq (by decide) hoff]; rfl]
  unfold Call.Refused
  rw [hb.refused]
  dsimp only
  by_cases hf : a.Idle ∧ Call.splice.Fails a
  · obtain ⟨e, he⟩ := moved_error hc hf.1 hf.2
    rw [he]
    exact ⟨fun _ => .inl (.inl hf), fun _ => exact_of_error rfl⟩
  rw [moved_ok hc hf, or_iff_right hf]
  refine (storeBoth_exact hc hoff hout).trans (or_congr_right ?_)
  unfold Call.Accounts Call.Leaks
  simp only [negative_iff hoff, negative_iff hout, ← hc.idle, Bool.not_eq_true]
  refine and_congr_right fun _ =>
    ⟨?_, fun h => ⟨fun hn h0 => ?_, fun h' => h (h'.imp_left And.left)⟩⟩
  · rintro ⟨h1, h2⟩ (hin | hneg)
    · by_cases h0 : 0 ≤ off
      · have := hc.inOff_eq h0
        have := h1 hin h0
        omega
      · exact h2 (.inl ⟨hin, Int.not_le.1 h0⟩)
    · exact h2 (.inr hneg)
  · have := hc.inOff_eq h0
    have := h (.inl hn)
    omega

theorem copyFileRange_exact_iff :
    Exact a (copyFileRange a) ↔ Call.copyFileRange.Refused a ∨ Call.copyFileRange.Accounts a := by
  unfold copyFileRange
  rcases start_cases .copyFileRange a _ with h | ⟨off, out, c, failed, hb, hs, hl⟩
  · exact iff_of_true h.2 (.inl h.1)
  have hc := hb.ran
  have hoff := hb.inPtr
  have hout := hb.outPtr
  have hl :
      copyLoop a.src a.host false a.len a.len 0 { inOff := off, pos := a.pos } = (c, failed) := hl
  rw [hs, hl]
  unfold Call.Refused
  rw [hb.refused]
  cases failed with
  | none =>
    have hnf : ¬Call.copyFileRange.Fails a := by
      intro h
      cases hc.failed.trans h
    rw [or_iff_right fun h : _ ∧ _ => hnf h.2, and_iff_right hnf]
    refine (storeBoth_exact hc hoff hout).trans (or_congr_right ?_)
    unfold Call.Accounts Call.Leaks
    simp only [hnf, false_and, or_false, Bool.not_eq_true]
    exact and_congr_right fun _ => ⟨fun h => h.2, fun h => ⟨fun _ h0 => hc.inOff_eq h0, h⟩⟩
  | some e =>
    have hfl : Call.copyFileRange.Fails a := hc.failed.symm
    dsimp only
    by_cases hz : c.done = 0
    · rw [if_pos hz]
      exact ⟨fun _ => .inl (.inl ⟨hc.idle.1 hz, hfl⟩), fun _ => exact_of_error rfl⟩
    have hni : ¬a.Idle := fun h => hz (hc.idle.2 h)
    -- the pointers are left as they were
    have hkeep {p : Option OffPtr} {o : ℤ} (hp : offset p = some o) :
        (∀ v ∈ ptrValue p, ptrValue p = some (v + c.done)) ↔ p = none := by
      cases p with
      | none => simp [ptrValue]
      | some q =>
        have hv : q.value = some o := hp
        simp only [ptrValue, hv, Option.bind_some, Option.mem_def, Option.some.injEq, forall_eq',
          reduceCtorEq, iff_false]
        omega
    rw [if_neg hz, exact_count hc hoff rfl rfl rfl, hkeep hoff, hkeep hout]
    unfold Call.Accounts Call.Leaks
    simp only [hfl, hni, false_and, not_true_eq_false, or_self, false_or, true_and,
      negative_iff hoff, negative_iff hout, imp_false, not_or, Bool.not_eq_true, ne_eq,
      Decidable.not_not]
    constructor
    · rintro ⟨_, h2, h3, h4⟩
      exact ⟨h4, fun h => h.1 h2, fun h => h.1 h3, h2, h3⟩
    · rintro ⟨h1, _, _, h2, h3⟩
      exact ⟨fun h => h.1 h2, h2, h3, h1⟩

end

/-- The bytes of a copy are accounted for exactly if it returns no count or the host's pattern does
not come between the loop and the offsets. -/
theorem copies_exact_iff (k : Call) (a : Args) :
    Exact (k.args a) (k.run (k.args a)) ↔ k.Refused (k.args a) ∨ k.Accounts (k.args a) := by
  cases k with
  | sendfile => exact sendfile_exact_iff rfl
  | splice => exact splice_exact_iff
  | copyFileRange => exact copyFileRange_exact_iff

/-- Four bytes sent from an offset of zero leave it at eight. -/
theorem sendfile_counts_twice :
    let a : Args :=
      ⟨fun k => UInt8.ofNat k, 0, true, some ⟨some 0, true⟩, none, 4, false,
      fun _ => ⟨.ok 4, .ok 4⟩⟩
    (sendfile a).ret = .ok 4 ∧ (sendfile a).inVal = some 8 ∧ ¬Exact a (sendfile a) := by
  intro a
  have h1 : (sendfile a).ret = .ok 4 := by decide
  have h2 : (sendfile a).inVal = some 8 := by decide
  refine ⟨h1, h2, fun h => ?_⟩
  have := (h 4 h1).2.2.1 0 rfl
  rw [h2] at this
  exact absurd this (by decide)

end Linuxity.Hvf.CopyBytes

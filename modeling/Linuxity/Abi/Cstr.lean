import Linuxity.Abi.Sockaddr
import Linuxity.Abi.Task
import Linuxity.Wire.Bytes

/-!
# Abi.Cstr — how a string is read from the task (`abi/syscall.hpp`)

`read_cstr` copies chunks of up to 64 bytes that do not cross a page, and goes on byte by byte where
a chunk cannot be copied.  It stops at a zero byte, at a byte that cannot be read, and behind 4097
characters, and what it returns does not say which.
-/

namespace Linuxity.Abi

open Posix Wire List

namespace GuestMem

/-! ## The loops of `read_cstr` -/

def kPage : Nat := 4096

/-- `s` is returned if the flag is set, and read on from if not. -/
abbrev Turn := Bool × Str

def pushChunk : Str → Str → Turn
  | s, [] => (false, s)
  | s, c :: cs =>
    if c = nul then (true, s)
    else if 4096 < (s ++ [c]).length then (true, s ++ [c]) else pushChunk (s ++ [c]) cs

def pushBytes (mem : GuestMem) : Nat → Nat → Str → Turn
  | 0, _, s => (false, s)
  | n + 1, a, s =>
    match mem.copyIn a 1 with
    | none => (true, s)
    | some one =>
      let c := one.headD nul
      if c = nul then (true, s)
      else if 4096 < (s ++ [c]).length then (true, s ++ [c]) else pushBytes mem n (a + 1) (s ++ [c])

def chunkLen (a : Nat) : Nat := if kPage - a % kPage < 64 then kPage - a % kPage else 64

def readTurn (mem : GuestMem) (a : Nat) (s : Str) : Turn :=
  match mem.copyIn a (chunkLen a) with
  | some chunk => pushChunk s chunk
  | none => pushBytes mem (chunkLen a) a s

/-- The outer loop from `a`. A turn that goes on has added a character, so 4097 turns are enough. -/
def readTurns (mem : GuestMem) : Nat → Nat → Str → Str
  | 0, _, s => s
  | fuel + 1, a, s =>
    match mem.readTurn a s with
    | (true, s) => s
    | (false, s) => readTurns mem fuel (a + chunkLen a) s

def readCstrChunks (mem : GuestMem) (a : Nat) : Str := mem.readTurns 4097 a []

/-! ## Chunks are bytes -/

section Chunks

variable (mem : GuestMem)

theorem chunkLen_pos (a : Nat) : 0 < chunkLen a := by
  have := Nat.mod_lt a (show 0 < kPage by decide)
  unfold chunkLen
  split_ifs <;> omega

theorem copyIn_succ (a n : Nat) : mem.copyIn a (n + 1) = (mem.byte a).bind fun b =>
    (mem.copyIn (a + 1) n).map (Char.ofNat b.toNat :: ·) := by
  unfold copyIn
  rw [range_succ_eq_map, mapM_cons, mapM_map]
  have hshift : ((fun i => (mem.byte (a + i)).map fun b => Char.ofNat b.toNat) ∘ Nat.succ) =
      fun i => (mem.byte (a + 1 + i)).map fun b => Char.ofNat b.toNat := by
    funext i
    simp only [Function.comp_apply, Nat.succ_eq_add_one, Nat.add_assoc, Nat.add_comm i 1]
  rw [hshift]
  rcases mem.byte a with _ | b
  · rfl
  · rcases hrest : (List.range n).mapM fun i =>
      (mem.byte (a + 1 + i)).map fun b => Char.ofNat b.toNat with _ | cs
    · simp [hrest]
    · simp [hrest]

theorem copyIn_one (a : Nat) : mem.copyIn a 1 = (mem.byte a).map fun b => [Char.ofNat b.toNat] := by
  rw [copyIn_succ]
  rcases mem.byte a with _ | b <;> rfl

theorem ofNat_eq_nul {b : UInt8} : Char.ofNat b.toNat = nul ↔ b = 0 := by
  constructor
  · intro h
    have hn := congrArg Char.toNat h
    rw [toNat_ofNat_byte b.toNat_lt, nul, toNat_ofNat_byte (by decide)] at hn
    exact UInt8.toNat_inj.1 hn
  · rintro rfl
    rfl

theorem pushBytes_succ (n a : Nat) (s : Str) : mem.pushBytes (n + 1) a s =
    match mem.byte a with
    | none => (true, s)
    | some b =>
      if b = 0 then (true, s)
      else if 4096 ≤ s.length then (true, s ++ [Char.ofNat b.toNat])
      else mem.pushBytes n (a + 1) (s ++ [Char.ofNat b.toNat]) := by
  rw [pushBytes, copyIn_one]
  rcases mem.byte a with _ | b
  · rfl
  · simp only [Option.map_some, headD_cons, ofNat_eq_nul, length_append, length_singleton,
      Nat.lt_add_one_iff]

/-- A chunk that can be copied is read as its bytes would be. -/
theorem pushChunk_eq {n a : Nat} {s chunk : Str} (h : mem.copyIn a n = some chunk) :
    pushChunk s chunk = mem.pushBytes n a s := by
  induction n generalizing a s chunk with
  | zero =>
    cases h
    rfl
  | succ n ih =>
    rw [copyIn_succ] at h
    obtain ⟨b, hb, h⟩ := Option.bind_eq_some_iff.1 h
    obtain ⟨cs, hcs, rfl⟩ := Option.map_eq_some_iff.1 h
    rw [pushBytes_succ, hb, pushChunk]
    simp only [ofNat_eq_nul, length_append, length_singleton, Nat.lt_add_one_iff, ih hcs]

theorem readTurn_eq (a : Nat) (s : Str) : mem.readTurn a s = mem.pushBytes (chunkLen a) a s := by
  unfold readTurn
  rcases h : mem.copyIn a (chunkLen a) with _ | chunk
  · rfl
  · exact pushChunk_eq mem h

/-- After `n` bytes the string is at its end, or `n` characters longer. -/
theorem pushBytes_spec (n a : Nat) {s : Str} (hs : s.length ≤ 4096) :
    mem.pushBytes n a s = (true, s ++ mem.cstrFrom (4097 - s.length) a) ∨
      ∃ s', mem.pushBytes n a s = (false, s') ∧ s'.length = s.length + n ∧ s'.length ≤ 4096 ∧
      s ++ mem.cstrFrom (4097 - s.length) a = s' ++ mem.cstrFrom (4097 - s'.length) (a + n) := by
  induction n generalizing a s with
  | zero => exact .inr ⟨s, rfl, rfl, hs, rfl⟩
  | succ n ih =>
    have hk : 4097 - s.length = (4096 - s.length) + 1 := by omega
    rw [pushBytes_succ, hk, cstrFrom]
    rcases mem.byte a with _ | b
    · exact .inl (by simp)
    dsimp only
    by_cases hb : b = 0
    · rw [if_pos hb, if_pos hb]
      exact .inl (by simp)
    rw [if_neg hb, if_neg hb]
    by_cases hlen : 4096 ≤ s.length
    · have hz : 4096 - s.length = 0 := by omega
      rw [if_pos hlen, hz, cstrFrom]
      exact .inl rfl
    · have hlen' : (s ++ [Char.ofNat b.toNat]).length = s.length + 1 := by simp
      have hz : 4096 - s.length = 4097 - (s ++ [Char.ofNat b.toNat]).length := by omega
      rw [if_neg hlen, hz, append_cons s _ (mem.cstrFrom _ _)]
      rcases ih (a + 1) (s := s ++ [Char.ofNat b.toNat]) (by omega) with h | ⟨s', h, hl, hle, he⟩
      · exact .inl h
      · refine .inr ⟨s', h, by omega, hle, ?_⟩
        rw [he, show a + 1 + n = a + (n + 1) by omega]

theorem readTurns_spec (fuel a : Nat) {s : Str} (hs : s.length ≤ 4096)
    (hf : 4097 ≤ s.length + fuel) :
    mem.readTurns fuel a s = s ++ mem.cstrFrom (4097 - s.length) a := by
  induction fuel generalizing a s with
  | zero => omega
  | succ fuel ih =>
    rw [readTurns, readTurn_eq]
    rcases mem.pushBytes_spec (chunkLen a) a hs with h | ⟨s', h, hl, hle, he⟩
    · rw [h]
    · have hpos := chunkLen_pos a
      rw [h, he]
      exact ih (a + chunkLen a) hle (by omega)

/-- The loops find every character before the first byte that ends the string. -/
theorem readCstrChunks_eq (a : Nat) : mem.readCstrChunks a = mem.readCstr a :=
  mem.readTurns_spec 4097 a (by simp) (by simp)

end Chunks

/-! ## The string in memory -/

def Holds (mem : GuestMem) (a : Nat) (s : Str) : Prop :=
  ∀ i (h : i < s.length), ∃ b, mem.byte (a + i) = some b ∧ b ≠ 0 ∧ s.get ⟨i, h⟩ = Char.ofNat b.toNat

/-- The string at `a` is `s`, up to its zero byte. -/
def GuestString (mem : GuestMem) (a : Nat) (s : Str) : Prop :=
  mem.Holds a s ∧ mem.byte (a + s.length) = some 0

/-- A byte that cannot be read comes before any zero byte. -/
def Faults (mem : GuestMem) (a : Nat) : Prop := ∃ s, mem.Holds a s ∧ mem.byte (a + s.length) = none

/-- There is no zero byte within the limit of the kernel. -/
def TooLong (mem : GuestMem) (a : Nat) : Prop := ∀ i < 4096, mem.byte (a + i) ≠ some 0

/-- The string at `a` ends within the limit of the reader. -/
def Terminated (mem : GuestMem) (a : Nat) : Prop := ∃ s, mem.GuestString a s ∧ s.length ≤ 4097

section Strings

variable {mem : GuestMem} {a : Nat} {s : Str}

theorem holds_cons {c : Char} : mem.Holds a (c :: s) ↔
    (∃ b, mem.byte a = some b ∧ b ≠ 0 ∧ c = Char.ofNat b.toNat) ∧ mem.Holds (a + 1) s := by
  constructor
  · intro h
    refine ⟨h 0 (by simp), fun i hi => ?_⟩
    obtain ⟨b, hb, h0, hc⟩ := h (i + 1) (by simpa using hi)
    exact ⟨b, by rwa [Nat.add_assoc, Nat.add_comm 1 i], h0, hc⟩
  · rintro ⟨h0, h⟩ i hi
    rcases i with _ | i
    · exact h0
    · obtain ⟨b, hb, hne, hc⟩ := h i (by simpa using hi)
      exact ⟨b, by rwa [Nat.add_assoc, Nat.add_comm 1 i] at hb, hne, hc⟩

/-- What is read is in memory, and the reader stopped because of its limit or of the next byte. -/
theorem cstrFrom_holds (mem : GuestMem) (n a : Nat) :
    mem.Holds a (mem.cstrFrom n a) ∧
      ((mem.cstrFrom n a).length = n ∨ mem.byte (a + (mem.cstrFrom n a).length) = none ∨
        mem.byte (a + (mem.cstrFrom n a).length) = some 0) := by
  induction n generalizing a with
  | zero => exact ⟨fun i hi => absurd hi (by simp [cstrFrom]), .inl rfl⟩
  | succ n ih =>
    have hnil : mem.Holds a [] := fun i hi => absurd hi (by simp)
    rw [cstrFrom]
    rcases hb : mem.byte a with _ | b
    · exact ⟨hnil, .inr (.inl hb)⟩
    dsimp only
    split_ifs with h0
    · exact ⟨hnil, .inr (.inr (by rw [← h0]; exact hb))⟩
    · obtain ⟨hh, hend⟩ := ih (a + 1)
      refine ⟨holds_cons.2 ⟨⟨b, hb, h0, rfl⟩, hh⟩, ?_⟩
      rw [length_cons, show a + ((mem.cstrFrom n (a + 1)).length + 1) =
        a + 1 + (mem.cstrFrom n (a + 1)).length by omega]
      exact hend.imp_left fun h => by rw [h]

theorem cstrFrom_of_holds (h : mem.Holds a s) (n : Nat) :
    mem.cstrFrom (s.length + n) a = s ++ mem.cstrFrom n (a + s.length) := by
  induction s generalizing a with
  | nil => simp
  | cons c s ih =>
    obtain ⟨⟨b, hb, h0, rfl⟩, htail⟩ := holds_cons.1 h
    rw [length_cons, show s.length + 1 + n = (s.length + n) + 1 by omega, cstrFrom, hb]
    simp only [h0, if_false, ih htail, cons_append]
    rw [show a + 1 + s.length = a + (s.length + 1) by omega]

/-- A string that ends within the limit is read whole. -/
theorem readCstr_of_guestString (h : mem.GuestString a s) (hl : s.length ≤ 4097) :
    mem.readCstr a = s := by
  have hn : 4097 = s.length + (4097 - s.length) := by omega
  rw [readCstr, hn, cstrFrom_of_holds h.1]
  rcases 4097 - s.length with _ | k
  · simp [cstrFrom]
  · simp [cstrFrom, h.2]

/-- What is read is the whole string just if the string ends in time. -/
theorem guestString_readCstr : mem.GuestString a (mem.readCstr a) ↔ mem.Terminated a := by
  constructor
  · intro h
    refine ⟨_, h, ?_⟩
    have hlen : ∀ n a, (mem.cstrFrom n a).length ≤ n := by
      intro n
      induction n with
      | zero => intro a; simp [cstrFrom]
      | succ n ih =>
        intro a
        rw [cstrFrom]
        split
        · simp
        · split_ifs
          · simp
          · simpa using ih (a + 1)
    exact hlen 4097 a
  · rintro ⟨s, h, hl⟩
    rw [readCstr_of_guestString h hl]
    exact h

/-- Nothing is read of a string that is not ended, just if its first byte cannot be read. -/
theorem byte_eq_none_of_readCstr (h : mem.readCstr a = []) (hn : ¬mem.Terminated a) :
    mem.byte a = none := by
  obtain ⟨hh, hend⟩ := cstrFrom_holds mem 4097 a
  rw [show mem.cstrFrom 4097 a = [] from h] at hh hend
  rcases hend with hl | hnone | hz
  · cases hl
  · exact hnone
  · exact absurd ⟨[], ⟨hh, hz⟩, by simp⟩ hn

theorem faults_of_byte (h : mem.byte a = none) : mem.Faults a :=
  ⟨[], fun i hi => absurd hi (by simp), h⟩

end Strings

end GuestMem

end Linuxity.Abi

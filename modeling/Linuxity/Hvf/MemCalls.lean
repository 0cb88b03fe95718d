import Linuxity.Hvf.Load
import Linuxity.Logic.Cells

/-!
# Hvf.MemCalls — the memory calls of the macOS backend (`do_memory` in `runtime/darwin/trap.hpp`)

Guest RAM is one flat range in which every page stays accessible.  What is mapped is only kept in
the interval map; what a call stores in RAM is listed beside what it does to that map.
-/

namespace Linuxity.Hvf

open Logic Mem

/-! ## The address space of a new image -/

def tablesLo (ram : ℕ) : ℕ := if hasNonpieWindow ram then nonpieBase + nonpieSize else privEnd ram

def stackGuard : ℕ := 0x10000

def stackReserve : ℕ := 0x800000

variable {β : Type} (size : ℕ) (s : AddressSpace)

/-- `ExecArena::mmap_top`, in 64 bits. -/
def mmapTop : ℕ := wrap (size + 2 ^ 64 - (stackGuard + stackReserve + 0x100000))

/-- `set_arena`: the tables above the window are reserved. -/
def setArena (size imageEnd : ℕ) : AddressSpace :=
  let t := AddressSpace.reset imageEnd (mmapTop size)
  if imageEnd < privEnd size ∧ tablesLo size < privEnd size then
    t.adopt ⟨tablesLo size, privEnd size, ⟨⟨false, false, false⟩, false⟩⟩
  else t

structure Segment where
  lo : ℕ
  hi : ℕ
  prot : GuestProt

def adoptSegment (t : AddressSpace) (sg : Segment) : AddressSpace :=
  t.adopt ⟨pageDown sg.lo, pageUp sg.hi, ⟨sg.prot, false⟩⟩

/-- The stack from its reserve below `sp` to the top of RAM. -/
def adoptStack (t : AddressSpace) (sp size : ℕ) : AddressSpace :=
  t.adopt ⟨wrap (pageDown sp + 2 ^ 64 - stackReserve), pageDown size, ⟨⟨true, true, false⟩, true⟩⟩

def imageSpace (size brkBase : ℕ) (segments : List Segment) (sp : ℕ) : AddressSpace :=
  adoptStack (segments.foldl adoptSegment (setArena size brkBase)) sp size

/-! ## The calls -/

inductive Backing (β : Type) where
  | anon
  | badFd
  | readError (e : ℕ)
  /-- What the file has from the offset on. -/
  | file (content : List β)

def Backing.isAnon : Backing β → Bool
  | .anon => true
  | _ => false

inductive MemCall (β : Type) where
  | brk (want : UInt64)
  | mmap (hint len : UInt64) (prot : GuestProt) (fixed : Bool) (backing : Backing β)
  | munmap (addr len : UInt64)
  | mprotect (addr len : UInt64) (prot : GuestProt)
  | madvise (addr len advice : UInt64)
  | mremap (old oldLen newLen : UInt64) (mayMove : Bool)

structure Effect (β : Type) where
  space : AddressSpace
  puts : List (Put β) := []
  ret : Except ℕ ℕ

def hasSpan (size gpa n : ℕ) : Bool := Machine.hasSpan { size := size } gpa n

def zeroPut (size a n : ℕ) : List (Put β) := if hasSpan size a n then [.clear a n] else []

def doMmap (hint len : ℕ) (prot : GuestProt) (fixed : Bool) (backing : Backing β) : Effect β :=
  match s.map hint len prot fixed backing.isAnon with
  | (none, t) => { space := t, ret := .error 12 }
  | (some at_, t) =>
    if hasSpan size at_ (pageUp len) = false then { space := t, ret := .error 12 }
    else
      match backing with
      | .anon => { space := t, puts := zeroPut size at_ (pageUp len), ret := .ok at_ }
      | .badFd => { space := t, ret := .error 9 }
      | .readError e => { space := t, ret := .error e }
      | .file content =>
        let got := content.take len
        -- the rest of the length that was asked for, not of the last page
        let tail :=
          if got.length < len then zeroPut size (at_ + got.length) (len - got.length) else []
        { space := t, puts := .put at_ got :: tail, ret := .ok at_ }

def doMremap (old oldLen newLen : ℕ) (mayMove : Bool) : Effect β :=
  let oldLen := pageUp oldLen
  let newLen := pageUp newLen
  match s.find old with
  | none => { space := s, ret := .error 14 }
  | some v =>
    if newLen ≤ oldLen then
      { space := s.unmap (wrap (old + newLen)) (oldLen - newLen), ret := .ok old }
    else if mayMove = false then { space := s, ret := .error 12 }
    else
      match s.map 0 newLen v.val.prot false v.val.anonymous with
      | (none, t) => { space := t, ret := .error 12 }
      | (some dst, t) =>
        if hasSpan size old oldLen = false ∨ hasSpan size dst newLen = false then
          { space := t, ret := .error 14 }
        else
          { space := t.unmap old oldLen
            puts := .move dst old oldLen :: zeroPut size (dst + oldLen) (newLen - oldLen)
            ret := .ok dst }

/-- `MADV_DONTNEED` of an address in an anonymous area. -/
def doMadvise (addr len advice : ℕ) : Effect β :=
  { space := s
    puts :=
      if advice = 4 ∧ (s.find addr).any (·.val.anonymous) then zeroPut size addr (pageUp len)
      else []
    ret := .ok 0 }

def doMemory : MemCall β → Effect β
  | .brk want => { space := s.setBrk want.toNat, ret := .ok (s.setBrk want.toNat).brkCur }
  | .mmap hint len prot fixed backing => doMmap size s hint.toNat len.toNat prot fixed backing
  | .munmap addr len => { space := s.unmap addr.toNat len.toNat, ret := .ok 0 }
  | .mprotect addr len prot =>
    let (done, t) := s.protect addr.toNat len.toNat prot
    { space := t, ret := if done then .ok 0 else .error 12 }
  | .madvise addr len advice => doMadvise size s addr.toNat len.toNat advice.toNat
  | .mremap old oldLen newLen mayMove => doMremap size s old.toNat oldLen.toNat newLen.toNat mayMove

/-! ## What a call stores depends on no byte -/

section Map

variable {γ : Type} (f : β → γ)

def Backing.map : Backing β → Backing γ
  | .anon => .anon
  | .badFd => .badFd
  | .readError e => .readError e
  | .file content => .file (content.map f)

def MemCall.map : MemCall β → MemCall γ
  | .brk want => .brk want
  | .mmap hint len prot fixed backing => .mmap hint len prot fixed (backing.map f)
  | .munmap addr len => .munmap addr len
  | .mprotect addr len prot => .mprotect addr len prot
  | .madvise addr len advice => .madvise addr len advice
  | .mremap old oldLen newLen mayMove => .mremap old oldLen newLen mayMove

def Effect.map (e : Effect β) : Effect γ := ⟨e.space, e.puts.map (Put.map f), e.ret⟩

theorem zeroPut_map (size a n : ℕ) : (zeroPut size a n).map (Put.map f) = zeroPut size a n := by
  unfold zeroPut
  split_ifs <;> rfl

theorem doMmap_map (size : ℕ) (s : AddressSpace) (hint len : ℕ) (prot : GuestProt) (fixed : Bool)
    (backing : Backing β) :
    doMmap size s hint len prot fixed (backing.map f) =
      (doMmap size s hint len prot fixed backing).map f := by
  have ha : (backing.map f).isAnon = backing.isAnon := by cases backing <;> rfl
  unfold doMmap
  rw [ha]
  obtain ⟨found, t⟩ := s.map hint len prot fixed backing.isAnon
  cases found with
  | none => rfl
  | some at_ =>
    dsimp only
    by_cases hs : hasSpan size at_ (pageUp len) = false
    · rw [if_pos hs, if_pos hs]
      rfl
    · rw [if_neg hs, if_neg hs]
      cases backing with
      | anon => simp only [Backing.map, Effect.map, zeroPut_map]
      | badFd | readError => rfl
      | file content =>
        simp only [Backing.map, Effect.map, ← List.map_take, List.length_map, List.map_cons,
          Put.map, apply_ite (List.map (Put.map f)), zeroPut_map, List.map_nil]

theorem doMremap_map (size : ℕ) (s : AddressSpace) (old oldLen newLen : ℕ) (mayMove : Bool) :
    doMremap size s old oldLen newLen mayMove =
      (doMremap size s old oldLen newLen mayMove : Effect β).map f := by
  unfold doMremap
  cases s.find old with
  | none => rfl
  | some v =>
    dsimp only
    split_ifs
    · rfl
    · rfl
    · obtain ⟨found, t⟩ := s.map 0 (pageUp newLen) v.val.prot false v.val.anonymous
      cases found with
      | none => rfl
      | some dst =>
        dsimp only
        split_ifs
        · rfl
        · simp only [Effect.map, List.map_cons, Put.map, zeroPut_map]

theorem doMemory_map (size : ℕ) (s : AddressSpace) (c : MemCall β) :
    doMemory size s (c.map f) = (doMemory size s c).map f := by
  cases c with
  | brk want => rfl
  | mmap hint len prot fixed backing => exact doMmap_map f size s _ _ _ _ _
  | munmap | mprotect => rfl
  | madvise addr len advice =>
    simp only [MemCall.map, doMemory, doMadvise, Effect.map, apply_ite (List.map (Put.map f)),
      zeroPut_map, List.map_nil]
  | mremap old oldLen newLen mayMove => exact doMremap_map f size s _ _ _ _

end Map

/-! ## What a mapping call returns -/

theorem hasSpan_part {size g n k m : ℕ} (h : hasSpan size g n) (hk : k < m) (hm : m ≤ n) :
    hasSpan size (g + k) (m - k) := by
  unfold hasSpan at h ⊢
  rw [Machine.hasSpan_iff] at h ⊢
  obtain ⟨h1, h2, h3, h4⟩ := h
  refine ⟨by omega, by omega, by omega, ?_⟩
  rcases h4 with h | ⟨hb, hw⟩
  · exact .inl (by omega)
  · refine .inr ⟨by omega, ?_⟩
    unfold wrap at hw ⊢
    omega

theorem zeroPut_span {size a n : ℕ} (h : hasSpan size a n) :
    (zeroPut size a n : List (Put β)) = [.clear a n] :=
  if_pos h

theorem le_pageUp_of_ne {len : UInt64} (h : pageUp len.toNat ≠ 0) :
    len.toNat ≤ pageUp len.toNat := by
  by_cases hl : len.toNat ≤ 2 ^ 64 - 4096
  · exact le_pageUp hl
  · exact absurd (pageUp_eq_zero (by omega) len.toNat_lt) h

end Linuxity.Hvf

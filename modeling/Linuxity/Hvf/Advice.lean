import Linuxity.Hvf.Fresh
import Linuxity.Mem.PageMap

/-!
# Hvf.Advice — `MADV_DONTNEED` on the macOS backend (`runtime/darwin/trap.hpp`)

The call looks up its first address and clears the whole range or nothing.
-/

namespace Linuxity.Hvf

open Logic Mem Fresh

def anonAt (s : AddressSpace) (x : ℕ) : Bool := (s.pageMap (x / 4096)).any (·.anonymous)

/-- The bytes of the pages that the range of the call meets. -/
def advised (addr len : UInt64) (x : ℕ) : Bool :=
  len ≠ 0 ∧ pageDown addr.toNat ≤ x ∧ x < pageDown (addr.toNat + len.toNat + 4095)

/-- Whatever is stored, the anonymous bytes of these pages read as zero and no other byte
changes. -/
def DontNeedExact (size : ℕ) (s : AddressSpace) (addr len : UInt64) : Prop :=
  ∀ (m : ℕ → Option UInt8) x, ((step size ⟨s, m⟩ (.call (.madvise addr len 4))).mem x).getD 0 =
    if advised addr len x ∧ anonAt s x then 0 else (m x).getD 0

/-- The bytes that the call clears when it clears any: they begin at its address, on a page or
not. -/
def cleared (addr len : UInt64) (x : ℕ) : Bool :=
  addr.toNat ≤ x ∧ x < addr.toNat + pageDown (len.toNat + 4095)

/-- The call clears them if the first is anonymous and the whole range lies in RAM. -/
def Clears (size : ℕ) (s : AddressSpace) (addr len : UInt64) : Prop :=
  anonAt s addr.toNat ∧ hasSpan size addr.toNat (pageUp len.toNat)

instance (size : ℕ) (s : AddressSpace) (addr len : UInt64) : Decidable (Clears size s addr len) :=
  inferInstanceAs (Decidable (_ ∧ _))

variable {size : ℕ} {s : AddressSpace} {addr len : UInt64}

theorem find_anonymous (hs : s.Ok) (x : ℕ) : (s.find x).any (·.val.anonymous) = anonAt s x := by
  unfold anonAt
  rw [← (AddressSpace.finds_of_ok hs x).1]
  cases s.find x <;> rfl

/-- A range that lies in RAM is not empty, and was rounded up within 64 bits. -/
theorem pageUp_of_hasSpan {a : ℕ} (h : hasSpan size a (pageUp len.toNat)) :
    pageUp len.toNat = pageDown (len.toNat + 4095) := by
  have hne : pageUp len.toNat ≠ 0 := bne_iff_ne.1 (Bool.and_eq_true_iff.1 h).2
  exact pageUp_eq (not_lt.1 fun hlt => hne (pageUp_eq_zero hlt len.toNat_lt))

theorem step_madvise (hs : s.Ok) (m : ℕ → Option UInt8) (x : ℕ) :
    (step size ⟨s, m⟩ (.call (.madvise addr len 4))).mem x =
      if cleared addr len x ∧ Clears size s addr len then none else m x := by
  show Put.all (doMadvise size s addr.toNat len.toNat 4).puts m x = _
  unfold doMadvise zeroPut
  rw [find_anonymous hs, if_congr (and_iff_right rfl) rfl rfl]
  by_cases hspan : hasSpan size addr.toNat (pageUp len.toNat)
  · by_cases ha : anonAt s addr.toNat
    · rw [if_pos ha, if_pos hspan]
      show (Put.clear _ _).on m x = _
      rw [pageUp_of_hasSpan hspan]
      by_cases hx : cleared addr len x
      · obtain ⟨h1, h2⟩ := of_decide_eq_true hx
        rw [if_pos ⟨hx, ha, hspan⟩, Put.clear_on h1 h2]
      · have hout : ¬(addr.toNat ≤ x ∧ x < addr.toNat + pageDown (len.toNat + 4095)) :=
          fun h => hx (decide_eq_true h)
        rw [if_neg fun h => hx h.1, Put.clear_on_of_apart (by omega)]
    · rw [if_neg ha, if_neg fun h => ha h.2.1]
      rfl
  · rw [if_neg hspan, ite_self, if_neg fun h => hspan h.2.2]
    rfl

theorem Clears.len_ne (h : Clears size s addr len) : len ≠ 0 := by
  rintro rfl
  exact bne_iff_ne.1 (Bool.and_eq_true_iff.1 h.2).2 rfl

theorem advised_aligned (ha : addr.toNat % 4096 = 0) (hlen : len ≠ 0) (x : ℕ) :
    advised addr len x = cleared addr len x := by
  have hsum :
      pageDown (addr.toNat + len.toNat + 4095) = addr.toNat + pageDown (len.toNat + 4095) := by
    unfold pageDown
    omega
  unfold advised cleared
  rw [pageDown_of_mod ha, hsum]
  simp [hlen]

/-- The first byte of the page of an address is of the kind of the address. -/
theorem anonAt_pageDown (s : AddressSpace) (a : ℕ) : anonAt s (pageDown a) = anonAt s a := by
  unfold anonAt pageDown
  rw [Nat.mul_div_cancel _ (by decide)]

theorem advised_pageDown (hlen : len ≠ 0) : advised addr len (pageDown addr.toNat) := by
  have hpos : len.toNat ≠ 0 := fun h => hlen (UInt64.toNat_inj.1 h)
  refine decide_eq_true ⟨hlen, le_rfl, ?_⟩
  unfold pageDown
  omega

/-- A call that clears from the middle of a page leaves the beginning of the page. -/
theorem aligned_of_exact (hs : s.Ok) (h : DontNeedExact size s addr len)
    (hc : Clears size s addr len) : addr.toNat % 4096 = 0 := by
  by_contra hmod
  have hbegin := h (fun _ => some 1) (pageDown addr.toNat)
  have hout : ¬cleared addr len (pageDown addr.toNat) := by
    intro hx
    have hle := (of_decide_eq_true hx).1
    unfold pageDown at hle
    omega
  rw [step_madvise hs, if_neg fun h => hout h.1, anonAt_pageDown,
    if_pos ⟨advised_pageDown hc.len_ne, hc.1⟩] at hbegin
  cases hbegin

/-- **`MADV_DONTNEED`** does what it should exactly if every byte of the pages it is about is
anonymous where the first one is, on a page of its own and with the range in RAM, and none
elsewhere. -/
theorem dontNeed_exact_iff (size : ℕ) (hs : s.Ok) (addr len : UInt64) :
    DontNeedExact size s addr len ↔
      ∀ x, advised addr len x → (anonAt s x ↔ addr.toNat % 4096 = 0 ∧ Clears size s addr len) := by
  constructor
  · intro h x hx
    have hlen : len ≠ 0 := (of_decide_eq_true hx).1
    have hone := h (fun _ => some 1) x
    rw [step_madvise hs] at hone
    simp only [hx, true_and] at hone
    by_cases hc : Clears size s addr len
    · have ha := aligned_of_exact hs h hc
      rw [if_pos ⟨advised_aligned ha hlen x ▸ hx, hc⟩] at hone
      split_ifs at hone with h2
      · exact iff_of_true h2 ⟨ha, hc⟩
      · cases hone
    · rw [if_neg fun h => hc h.2] at hone
      split_ifs at hone with h2
      · cases hone
      · exact iff_of_false h2 fun h => hc h.2
  · intro h m x
    rw [step_madvise hs]
    by_cases hc : Clears size s addr len
    · have ha : addr.toNat % 4096 = 0 := by
        refine ((h _ (advised_pageDown hc.len_ne)).1 ?_).1
        rw [anonAt_pageDown]
        exact hc.1
      rw [← advised_aligned ha hc.len_ne]
      by_cases hx : advised addr len x
      · rw [if_pos ⟨hx, hc⟩, if_pos ⟨hx, (h x hx).2 ⟨ha, hc⟩⟩]
        rfl
      · rw [if_neg fun h => hx h.1, if_neg fun h => hx h.1]
    · rw [if_neg fun h => hc h.2, if_neg fun hx => hc ((h x hx.1).1 hx.2).2]

theorem dontNeed_exact_iff_onePage : DontNeedExact 0x80000000 onePage 0x400000 0x1000 ↔
    ∀ x, advised 0x400000 0x1000 x →
      (anonAt onePage x ↔ 0x400000 % 4096 = 0 ∧ Clears 0x80000000 onePage 0x400000 0x1000) :=
  dontNeed_exact_iff 0x80000000 ok_onePage 0x400000 0x1000

/-- An anonymous page and a page of a file behind it. -/
def halfFile : AddressSpace where
  vmas :=
    [⟨0x10000000, 0x10001000, ⟨true, true, false⟩, true⟩,
      ⟨0x10001000, 0x10002000, ⟨true, false, false⟩, false⟩]
  arenaLow := 0x10000000
  arenaHigh := 0x20000000
  brkBase := 0x8000000
  brkCur := 0x8000000

theorem dontNeed_clears_file : ¬DontNeedExact 0x80000000 halfFile 0x10000000 0x2000 := by
  intro h
  have hfile := h (fun _ => some 1) 0x10001000
  exact absurd hfile (by decide)

end Linuxity.Hvf

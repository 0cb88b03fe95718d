import Linuxity.Logic.Run
import Linuxity.Logic.Spans
import Mathlib.Algebra.Group.Nat.Defs

/-!
# Mem.Vma — the guest's address space (`runtime/shared/address_space.hpp`)

The virtual memory areas of a guest, the arena that `mmap` places into and the break.  Addresses are
natural numbers below `2 ^ 64`; every sum that the source computes in 64 bits is wrapped here.
-/

namespace Linuxity.Mem

open Logic List

def wrap (a : ℕ) : ℕ := a % 2 ^ 64

def kPageSize : ℕ := 0x1000

def pageDown (a : ℕ) : ℕ := a / 0x1000 * 0x1000

def pageUp (a : ℕ) : ℕ := pageDown (wrap (a + 0xfff))

structure GuestProt where
  read : Bool := false
  write : Bool := false
  exec : Bool := false
  deriving DecidableEq

structure VmaAttr where
  prot : GuestProt
  anonymous : Bool
  deriving DecidableEq

abbrev Vma := Span ℕ VmaAttr

def Vma.size (v : Vma) : ℕ := wrap (v.hi + 2 ^ 64 - v.lo)

structure AddressSpace where
  vmas : List Vma := []
  arenaLow : ℕ
  arenaHigh : ℕ
  brkBase : ℕ
  brkCur : ℕ
  deriving DecidableEq

namespace AddressSpace

def reset (low high : ℕ) : AddressSpace where
  arenaLow := pageUp low
  arenaHigh := pageDown high
  brkBase := pageUp low
  brkCur := pageUp low

variable (s : AddressSpace)

def ceilingAbove (addr : ℕ) : ℕ :=
  ((s.vmas.find? fun v => addr ≤ v.lo).map Span.lo).getD s.arenaHigh

/-- The new break is what the guest is told. -/
def setBrk (want : ℕ) : AddressSpace :=
  if want = 0 then s
  else if want < s.brkBase then s
  else if s.ceilingAbove s.brkBase < pageUp want then s
  else { s with brkCur := want }

/-- First fit below `ceiling`, among the areas from the top down. -/
def gapBelow (len floor : ℕ) : ℕ → List Vma → Option ℕ
  | ceiling, [] => if floor ≤ ceiling ∧ len ≤ ceiling - floor then some (ceiling - len) else none
  | ceiling, v :: vs =>
    if v.hi ≤ ceiling ∧ len ≤ ceiling - v.hi then some (ceiling - len)
    else gapBelow len floor (min ceiling v.lo) vs

def findGap (len : ℕ) : Option ℕ :=
  gapBelow len (max (pageUp s.brkCur) s.arenaLow) s.arenaHigh s.vmas.reverse

/-- `std::lower_bound`, then the neighbours that match are merged. -/
def insert (v : Vma) : AddressSpace := { s with vmas := join (place v s.vmas) }

def unmap (addr len : ℕ) : AddressSpace :=
  let lo := pageDown addr
  let hi := pageUp (wrap (addr + len))
  if hi ≤ lo then s else { s with vmas := carve lo hi s.vmas }

def map (hint len : ℕ) (prot : GuestProt) (fixed anon : Bool) : Option ℕ × AddressSpace :=
  let len := pageUp len
  if len = 0 then (none, s)
  else if fixed ∧ hint ≠ 0 then
    let at_ := pageDown hint
    if at_ < s.arenaLow ∨ s.arenaHigh < wrap (at_ + len) then (none, s)
    else (some at_, (s.unmap at_ len).insert ⟨at_, wrap (at_ + len), prot, anon⟩)
  else match s.findGap len with
    | none => (none, s)
    | some at_ => (some at_, s.insert ⟨at_, wrap (at_ + len), prot, anon⟩)

def mappedFrom (hi : ℕ) : ℕ → List Vma → Bool
  | cursor, [] => hi ≤ cursor
  | cursor, v :: vs =>
    if v.hi ≤ cursor then mappedFrom hi cursor vs
    else if cursor < v.lo then false
    else if hi ≤ v.hi then true
    else mappedFrom hi v.hi vs

def fullyMapped (lo hi : ℕ) : Bool := mappedFrom hi lo s.vmas

def protect (addr len : ℕ) (prot : GuestProt) : Bool × AddressSpace :=
  let lo := pageDown addr
  let hi := pageUp (wrap (addr + len))
  if hi ≤ lo then (true, s)
  else if s.fullyMapped lo hi = false then (false, s)
  else (true, { s with vmas := join (repaint (fun a => { a with prot := prot }) lo hi s.vmas) })

def adopt (v : Vma) : AddressSpace :=
  if v.hi ≤ v.lo then s else (s.unmap v.lo v.size).insert v

/-- `std::upper_bound`, and the area before it if that holds the address. -/
def find (addr : ℕ) : Option Vma :=
  (s.vmas.takeWhile fun v => v.lo ≤ addr).getLast?.filter fun v => addr < v.hi

def mappedBytes : ℕ := s.vmas.foldl (fun n v => wrap (n + v.size)) 0

end AddressSpace

/-! ## Pages -/

theorem pageDown_mod (a : ℕ) : pageDown a % 4096 = 0 := Nat.mul_mod_left _ _

theorem pageDown_le (a : ℕ) : pageDown a ≤ a := Nat.div_mul_le_self a 0x1000

theorem lt_pageDown_add (a : ℕ) : a < pageDown a + 4096 := by
  unfold pageDown
  omega

variable {a : ℕ}

theorem pageDown_of_mod (h : a % 4096 = 0) : pageDown a = a := by
  unfold pageDown
  omega

theorem wrap_lt (a : ℕ) : wrap a < 2 ^ 64 := Nat.mod_lt a (by decide)

theorem wrap_of_lt (h : a < 2 ^ 64) : wrap a = a := Nat.mod_eq_of_lt h

theorem pageUp_mod (a : ℕ) : pageUp a % 4096 = 0 := pageDown_mod _

theorem pageUp_lt (a : ℕ) : pageUp a < 2 ^ 64 := (pageDown_le _).trans_lt (wrap_lt _)

/-- Rounding up is exact unless it leaves the 64 bits. -/
theorem pageUp_eq (h : a ≤ 2 ^ 64 - 4096) : pageUp a = pageDown (a + 4095) := by
  unfold pageUp
  rw [wrap_of_lt (by omega)]

theorem pageUp_eq_zero (h : 2 ^ 64 - 4096 < a) (h' : a < 2 ^ 64) : pageUp a = 0 := by
  unfold pageUp pageDown wrap
  omega

theorem le_pageUp (h : a ≤ 2 ^ 64 - 4096) : a ≤ pageUp a := by
  rw [pageUp_eq h]
  have := lt_pageDown_add (a + 4095)
  omega

theorem pageUp_of_mod (h : a % 4096 = 0) (h' : a < 2 ^ 64) : pageUp a = a := by
  rw [pageUp_eq (by omega)]
  unfold pageDown
  omega

/-! ## Runs -/

structure PageAddr where
  val : ℕ
  lt : val < 2 ^ 64
  aligned : val % 4096 = 0

inductive Op where
  | map (hint len : UInt64) (prot : GuestProt) (fixed anon : Bool)
  | unmap (addr len : UInt64)
  | protect (addr len : UInt64) (prot : GuestProt)
  | adopt (first last : PageAddr) (prot : GuestProt) (anon : Bool)
  | setBrk (want : UInt64)

def AddressSpace.step (s : AddressSpace) : Op → AddressSpace
  | .map hint len prot fixed anon => (s.map hint.toNat len.toNat prot fixed anon).2
  | .unmap addr len => s.unmap addr.toNat len.toNat
  | .protect addr len prot => (s.protect addr.toNat len.toNat prot).2
  | .adopt first last prot anon => s.adopt ⟨first.val, last.val, prot, anon⟩
  | .setBrk want => s.setBrk want.toNat

/-- In order and apart, none empty, and page-aligned. -/
structure AddressSpace.WellFormed (s : AddressSpace) : Prop where
  spans : Spans s.vmas
  aligned : Ends (fun a => a % 4096 = 0) s.vmas

/-- A fixed mapping that passes the check of the arena does not end past the 64 bits. -/
def AddressSpace.NoWrap (s : AddressSpace) : Op → Prop
  | .map hint len _ true _ => hint ≠ 0 → pageUp len.toNat ≠ 0 → s.arenaLow ≤ pageDown hint.toNat →
    wrap (pageDown hint.toNat + pageUp len.toNat) ≤ s.arenaHigh →
    pageDown hint.toNat + pageUp len.toNat < 2 ^ 64
  | _ => True

/-- What every operation keeps: the areas are well formed, within 64 bits, and the top of the arena
is a page. -/
structure AddressSpace.Ok (s : AddressSpace) : Prop extends s.WellFormed where
  within : Ends (· < 2 ^ 64) s.vmas
  arenaHigh_lt : s.arenaHigh < 2 ^ 64
  arenaHigh_mod : s.arenaHigh % 4096 = 0

namespace AddressSpace

variable {s : AddressSpace}

theorem ok_reset (low : ℕ) {high : ℕ} (hh : high < 2 ^ 64) : (reset low high).Ok where
  spans := spans_nil
  aligned := nofun
  within := nofun
  arenaHigh_lt := (pageDown_le high).trans_lt hh
  arenaHigh_mod := pageDown_mod high

variable {l : List Vma} {v : Vma} {lo len : ℕ}

theorem Ok.vmas (hs : s.Ok) (h1 : Spans l) (h2 : Ends (fun a => a % 4096 = 0) l)
    (h3 : Ends (· < 2 ^ 64) l) : ({ s with vmas := l } : AddressSpace).Ok :=
  ⟨⟨h1, h2⟩, h3, hs.arenaHigh_lt, hs.arenaHigh_mod⟩

theorem ok_insert (hs : s.Ok) (hv : v.lo < v.hi) (hlo : v.lo % 4096 = 0) (hhi : v.hi % 4096 = 0)
    (hlt : v.hi < 2 ^ 64) (hd : ∀ u ∈ s.vmas, u.hi ≤ v.lo ∨ v.hi ≤ u.lo) : (s.insert v).Ok := by
  refine hs.vmas ?_ ?_ ?_
  · exact (hs.spans.place hv hd).join
  · exact (hs.aligned.place hlo hhi).join
  · exact (hs.within.place (hv.trans hlt) hlt).join

theorem ok_carve {hi : ℕ} (hs : s.Ok) (hlh : lo ≤ hi) (hlo : lo % 4096 = 0) (hhi : hi % 4096 = 0)
    (hlt : hi < 2 ^ 64) : ({ s with vmas := carve lo hi s.vmas } : AddressSpace).Ok := by
  refine hs.vmas ?_ ?_ ?_
  · exact hs.spans.carve hlh
  · exact hs.aligned.carve hlo hhi
  · exact hs.within.carve (hlh.trans_lt hlt) hlt

theorem ok_unmap (hs : s.Ok) (addr len : ℕ) : (s.unmap addr len).Ok := by
  unfold unmap
  dsimp only
  split_ifs with h
  · exact hs
  · exact ok_carve hs (le_of_not_ge h) (pageDown_mod _) (pageUp_mod _) (pageUp_lt _)

theorem carve_apart {hi : ℕ} (hl : Spans l) (hlh : lo < hi) :
    ∀ u ∈ carve lo hi l, u.hi ≤ lo ∨ hi ≤ u.lo := by
  intro u hu
  by_contra hmeet
  obtain ⟨h1, h2⟩ := not_or.1 hmeet
  have hproper := (hl.carve hlh.le).proper u hu
  -- The later of the two beginnings is a point of both.
  have hx : Covers (carve lo hi l) (max u.lo lo) u.val := by
    refine ⟨u, hu, ⟨le_max_left _ _, ?_⟩, rfl⟩
    omega
  exact (covers_carve.1 hx).2 ⟨le_max_right _ _, by omega⟩

/-- A gap is free, ends below the ceiling and is a whole number of pages. -/
theorem gapBelow_spec {floor : ℕ} {ceiling a : ℕ} (hl : Spans l.reverse)
    (ha : Ends (fun a => a % 4096 = 0) l) (hc : ceiling % 4096 = 0)
    (h : gapBelow len floor ceiling l = some a) :
    a + len ≤ ceiling ∧ (a + len) % 4096 = 0 ∧ ∀ u ∈ l, u.hi ≤ a ∨ a + len ≤ u.lo := by
  induction l generalizing ceiling with
  | nil =>
    rw [gapBelow] at h
    split_ifs at h with hfit
    cases h
    refine ⟨by omega, by omega, nofun⟩
  | cons v l ih =>
    rw [reverse_cons] at hl
    obtain ⟨hrest, hv, hbefore⟩ := spans_append.1 hl
    have hvp : v.lo < v.hi := hv.proper v mem_cons_self
    rw [gapBelow] at h
    split_ifs at h with hfit
    · cases h
      refine ⟨by omega, by omega, fun u hu => ?_⟩
      rcases mem_cons.1 hu with rfl | hu
      · exact Or.inl (by omega)
      · have hle : u.hi ≤ v.lo := hbefore u (mem_reverse.2 hu) v mem_cons_self
        exact Or.inl (by omega)
    · have hmod : min ceiling v.lo % 4096 = 0 := by
        rcases min_choice ceiling v.lo with hm | hm <;> rw [hm]
        · exact hc
        · exact (ha v (.head _)).1
      obtain ⟨h1, h2, h3⟩ := ih hrest (fun u hu => ha u (mem_cons_of_mem v hu)) hmod h
      refine ⟨by omega, h2, fun u hu => ?_⟩
      rcases mem_cons.1 hu with rfl | hu
      · exact Or.inr (by omega)
      · exact h3 u hu

theorem findGap_spec {a : ℕ} (hs : s.Ok) (h : s.findGap len = some a) :
    a + len ≤ s.arenaHigh ∧ (a + len) % 4096 = 0 ∧ ∀ u ∈ s.vmas, u.hi ≤ a ∨ a + len ≤ u.lo := by
  have hends : Ends (fun a => a % 4096 = 0) s.vmas.reverse :=
    fun u hu => hs.aligned u (mem_reverse.1 hu)
  have hspans : Spans s.vmas.reverse.reverse := by
    rw [reverse_reverse]
    exact hs.spans
  obtain ⟨h1, h2, h3⟩ := gapBelow_spec hspans hends hs.arenaHigh_mod h
  exact ⟨h1, h2, fun u hu => h3 u (mem_reverse.2 hu)⟩

theorem unmap_pages (hlo : lo % 4096 = 0) (hlen : len % 4096 = 0) (hpos : len ≠ 0)
    (hlt : lo + len < 2 ^ 64) : s.unmap lo len = { s with vmas := carve lo (lo + len) s.vmas } := by
  unfold unmap
  rw [pageDown_of_mod hlo, wrap_of_lt hlt, pageUp_of_mod (by omega) hlt, if_neg (by omega)]

theorem ok_replace (hs : s.Ok) (hv : v.lo < v.hi) (hlo : v.lo % 4096 = 0) (hhi : v.hi % 4096 = 0)
    (hlt : v.hi < 2 ^ 64) :
    (({ s with vmas := carve v.lo v.hi s.vmas } : AddressSpace).insert v).Ok :=
  ok_insert (ok_carve hs hv.le hlo hhi hlt) hv hlo hhi hlt (carve_apart hs.spans hv)

theorem ok_map {hint : ℕ} {prot : GuestProt} {fixed anon : Bool} (hs : s.Ok)
    (hw : fixed → hint ≠ 0 → pageUp len ≠ 0 → s.arenaLow ≤ pageDown hint →
      wrap (pageDown hint + pageUp len) ≤ s.arenaHigh → pageDown hint + pageUp len < 2 ^ 64) :
    (s.map hint len prot fixed anon).2.Ok := by
  have hmod := pageUp_mod len
  unfold map
  by_cases hlen : pageUp len = 0
  · rw [if_pos hlen]
    exact hs
  rw [if_neg hlen]
  split_ifs with hfix
  · have hdown := pageDown_mod hint
    by_cases hout : pageDown hint < s.arenaLow ∨ s.arenaHigh < wrap (pageDown hint + pageUp len)
    · rw [if_pos hout]
      exact hs
    · rw [if_neg hout]
      obtain ⟨h1, h2⟩ := not_or.1 hout
      have hlt := hw hfix.1 hfix.2 hlen (not_lt.1 h1) (not_lt.1 h2)
      rw [unmap_pages hdown hmod hlen hlt, wrap_of_lt hlt]
      exact ok_replace hs (by dsimp only; omega) hdown (by dsimp only; omega) hlt
  · rcases hg : s.findGap (pageUp len) with _ | a
    · exact hs
    · obtain ⟨h1, h2, h3⟩ := findGap_spec hs hg
      have hhigh := hs.arenaHigh_lt
      dsimp only
      rw [wrap_of_lt (by omega)]
      refine ok_insert hs ?_ ?_ h2 ?_ h3 <;> dsimp only <;> omega

theorem ok_protect (hs : s.Ok) (addr len : ℕ) (prot : GuestProt) :
    (s.protect addr len prot).2.Ok := by
  unfold protect
  dsimp only
  split_ifs with h1 h2
  · exact hs
  · exact hs
  · have hlt := not_le.1 h1
    have hhi := pageUp_lt (wrap (addr + len))
    have hm := pageDown_mod addr
    have hm' := pageUp_mod (wrap (addr + len))
    refine hs.vmas ?_ ?_ ?_
    · exact (hs.spans.repaint hlt).join
    · exact (hs.aligned.repaint hm hm').join
    · exact (hs.within.repaint (hlt.trans hhi) hhi).join

theorem size_of_lt (hv : v.lo < v.hi) (hlt : v.hi < 2 ^ 64) : Vma.size v = v.hi - v.lo := by
  unfold Vma.size wrap
  omega

theorem ok_adopt (hs : s.Ok) (hlo : v.lo % 4096 = 0) (hhi : v.hi % 4096 = 0) (hlt : v.hi < 2 ^ 64) :
    (s.adopt v).Ok := by
  unfold adopt
  split_ifs with h
  · exact hs
  · have hv := not_le.1 h
    have hsum : v.lo + (v.hi - v.lo) = v.hi := by omega
    rw [size_of_lt hv hlt, unmap_pages hlo (by omega) (by omega) (by omega), hsum]
    exact ok_replace hs hv hlo hhi hlt

theorem ok_setBrk (hs : s.Ok) (want : ℕ) : (s.setBrk want).Ok := by
  unfold setBrk
  split_ifs
  · exact hs
  · exact hs
  · exact hs
  · exact ⟨⟨hs.spans, hs.aligned⟩, hs.within, hs.arenaHigh_lt, hs.arenaHigh_mod⟩

theorem ok_step {op : Op} (hs : s.Ok) (hw : s.NoWrap op) : (s.step op).Ok := by
  cases op with
  | map hint len prot fixed anon =>
    refine ok_map hs fun hfix => ?_
    subst hfix
    exact fun h0 => hw fun h => h0 (by rw [h]; rfl)
  | unmap addr len => exact ok_unmap hs addr.toNat len.toNat
  | protect addr len prot => exact ok_protect hs addr.toNat len.toNat prot
  | adopt first last prot anon => exact ok_adopt hs first.aligned last.aligned last.lt
  | setBrk want => exact ok_setBrk hs want.toNat

/-- From any reset, the areas stay well formed as long as no fixed mapping wraps. -/
theorem vmas_stay_wellFormed {low high : UInt64} {ops : List Op}
    (h : Along step NoWrap (reset low.toNat high.toNat) ops) :
    (reset low.toNat high.toNat).WellFormed ∧
      Along step (fun s op => (s.step op).WellFormed) (reset low.toNat high.toNat) ops := by
  have hstart : (reset low.toNat high.toNat).Ok := ok_reset low.toNat high.toNat_lt
  refine ⟨hstart.toWellFormed, Along.of_invariant (fun s op hs hw => ?_) hstart h⟩
  exact ⟨(ok_step hs hw).toWellFormed, ok_step hs hw⟩

end AddressSpace

/-- A mapping, a hole in it, a changed page and a fixed mapping over it. -/
def someOps : List Op :=
  [.map 0 0x4000 ⟨true, true, false⟩ false true, .unmap 0x9fffd000 0x1000,
    .protect 0x9fffe000 0x1000 ⟨true, false, false⟩,
    .map 0x9fffc800 0x1800 ⟨true, false, true⟩ true false, .setBrk 0x410000]

theorem vmas_stay_wellFormed_someOps :
    (AddressSpace.reset 0x400000 0xa0000000).WellFormed ∧
      Along AddressSpace.step (fun s op => (s.step op).WellFormed)
      (AddressSpace.reset 0x400000 0xa0000000) someOps :=
  @AddressSpace.vmas_stay_wellFormed 0x400000 0xa0000000 someOps
    ⟨trivial, trivial, trivial, fun _ _ _ _ => by decide, trivial, trivial⟩

/-- A fixed mapping that fills the address space up to its end: the sum is zero. -/
def wrappingMap : Op := .map 0x500000 0xffffffffffb00000 ⟨true, true, false⟩ true true

theorem fixed_map_wraps :
    ¬Along AddressSpace.step (fun s op => (s.step op).WellFormed)
      (AddressSpace.reset 0x400000 0xa0000000) [wrappingMap] := by
  rintro ⟨h, _⟩
  have hmem : (⟨0x500000, 0, ⟨⟨true, true, false⟩, true⟩⟩ : Vma) ∈
      ((AddressSpace.reset 0x400000 0xa0000000).step wrappingMap).vmas := by decide
  exact absurd (h.spans.proper _ hmem) (by decide)

end Linuxity.Mem

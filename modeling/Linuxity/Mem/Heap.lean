import Linuxity.Mem.Vma

/-!
# Mem.Heap — the break and the mappings share the arena

The heap is not an area: it is `[brkBase, brkCur)`.  A placement asks for the break only below the
lowest area, and the break asks only for the areas that begin above its base.
-/

namespace Linuxity.Mem

open Logic List

def Meets (a b c d : ℕ) : Prop := ∃ x, a ≤ x ∧ x < b ∧ c ≤ x ∧ x < d

namespace AddressSpace

/-- A placed mapping, also a fixed one at no address, is in the arena and off the areas and the
heap, and a break that moves leaves the heap off the areas. -/
def HeapApart (s : AddressSpace) : Op → Prop
  | .map hint len prot fixed anon => fixed = false ∨ hint = 0 →
      ∀ a, (s.map hint.toNat len.toNat prot fixed anon).1 = some a →
        s.arenaLow ≤ a ∧ a + pageUp len.toNat ≤ s.arenaHigh ∧
          (∀ v ∈ s.vmas, ¬Meets a (a + pageUp len.toNat) v.lo v.hi) ∧
          ¬Meets a (a + pageUp len.toNat) s.brkBase s.brkCur
  | .setBrk want => (s.setBrk want.toNat).brkCur ≠ s.brkCur →
      ∀ v ∈ s.vmas, ¬Meets s.brkBase (s.setBrk want.toNat).brkCur v.lo v.hi
  | _ => True

/-- What a placement is to stay above. -/
def floor (s : AddressSpace) : ℕ := max (pageUp s.brkCur) s.arenaLow

def roomEnd (s : AddressSpace) (v : Vma) : ℕ := min s.arenaHigh (s.ceilingAbove v.hi)

def Room (s : AddressSpace) (len : ℕ) (v : Vma) : Prop := v.hi + len ≤ s.roomEnd v

instance (s : AddressSpace) (len : ℕ) (v : Vma) : Decidable (s.Room len v) :=
  inferInstanceAs (Decidable (v.hi + len ≤ s.roomEnd v))

/-- Where the highest room that is large enough begins below the floor, it holds the mapping above
the floor; the break is set within 64 bits, and no area lies across the base of the heap. -/
def HeapRoom (s : AddressSpace) : Op → Prop
  | .map hint len prot fixed anon => s.NoWrap (.map hint len prot fixed anon) ∧
      (fixed = false ∨ hint = 0 → ∀ v ∈ s.vmas, v.hi < s.floor → s.Room (pageUp len.toNat) v →
        (∀ u ∈ s.vmas, v.lo < u.lo → ¬s.Room (pageUp len.toNat) u) →
          s.floor + pageUp len.toNat ≤ s.roomEnd v)
  | .setBrk want => want.toNat ≤ 2 ^ 64 - 4096 ∧
      (s.brkBase < want.toNat → ∀ v ∈ s.vmas, v.lo < s.brkBase → v.hi ≤ s.brkBase)
  | op => s.NoWrap op

variable {s : AddressSpace}

def firstLo (s : AddressSpace) (r : List Vma) : ℕ := (r.head?.map Span.lo).getD s.arenaHigh

theorem ceilingAbove_of_split {l r : List Vma} {v : Vma} (hs : s.Ok)
    (hsplit : s.vmas = l ++ v :: r) :
    s.ceilingAbove v.hi = s.firstLo r := by
  have hspans := hs.spans
  rw [hsplit] at hspans
  obtain ⟨hl, hvr, hbefore⟩ := spans_append.1 hspans
  obtain ⟨hv, hnext, _⟩ := spans_cons.1 hvr
  -- The areas up to `v` begin before it ends.
  have hskip : ∀ u ∈ l, ¬v.hi ≤ u.lo := by
    intro u hu
    have h1 := hl.proper u hu
    have h2 := hbefore u hu v mem_cons_self
    omega
  have hfind : (l ++ v :: r).find? (fun u => v.hi ≤ u.lo) = r.head? := by
    rw [List.find?_append, List.find?_eq_none.2 (by simpa using hskip), Option.none_or,
      List.find?_cons_of_neg (by simpa using hv)]
    cases r with
    | nil => rfl
    | cons w r => exact List.find?_cons_of_pos (by simpa using hnext w (.head _))
  unfold ceilingAbove firstLo
  rw [hsplit, hfind]

/-- Under the condition the first fit is above the floor. -/
theorem floor_le_gapBelow {len : ℕ} {l r : List Vma} {a : ℕ} (hs : s.Ok)
    (hsplit : s.vmas = l.reverse ++ r) (hnone : ∀ u ∈ r, ¬s.Room len u)
    (hroom : ∀ v ∈ s.vmas, v.hi < s.floor → s.Room len v →
        (∀ u ∈ s.vmas, v.lo < u.lo → ¬s.Room len u) → s.floor + len ≤ s.roomEnd v)
    (h : gapBelow len s.floor (min s.arenaHigh (s.firstLo r)) l = some a) : s.floor ≤ a := by
  induction l generalizing r with
  | nil =>
    rw [gapBelow] at h
    split_ifs at h with hfit
    cases h
    omega
  | cons v l ih =>
    rw [reverse_cons, append_assoc, singleton_append] at hsplit
    have hspans := hs.spans
    rw [hsplit] at hspans
    obtain ⟨hl, hvr, hbefore⟩ := spans_append.1 hspans
    obtain ⟨hv, hnext, _⟩ := spans_cons.1 hvr
    have hend : s.roomEnd v = min s.arenaHigh (s.firstLo r) := by
      rw [roomEnd, ceilingAbove_of_split hs hsplit]
    have hmem : v ∈ s.vmas := by
      rw [hsplit]
      exact mem_append_right _ mem_cons_self
    rw [gapBelow, ← hend] at h
    split_ifs at h with hfit
    · cases h
      have hv_room : s.Room len v := by
        unfold Room
        omega
      by_cases hlow : v.hi < s.floor
      · have hhigher : ∀ u ∈ s.vmas, v.lo < u.lo → ¬s.Room len u := by
          intro u hu hlt
          rw [hsplit] at hu
          rcases mem_append.1 hu with hu | hu
          · have h1 := hbefore u hu v mem_cons_self
            have h2 := hl.proper u hu
            omega
          · rcases mem_cons.1 hu with rfl | hu
            · exact absurd hlt (lt_irrefl _)
            · exact hnone u hu
        have := hroom v hmem hlow hv_room hhigher
        omega
      · omega
    · have hlo : min (s.roomEnd v) v.lo = min s.arenaHigh (s.firstLo (v :: r)) := by
        rw [hend]
        cases r with
        | nil => simp [firstLo]
        | cons w r =>
          have hw := hnext w mem_cons_self
          simp only [firstLo, List.head?_cons, Option.map_some, Option.getD_some]
          omega
      rw [hlo] at h
      refine ih hsplit (fun u hu => ?_) h
      rcases mem_cons.1 hu with rfl | hu
      · intro hroom
        unfold Room at hroom
        omega
      · exact hnone u hu

theorem map_placed {hint len : ℕ} {prot : GuestProt} {fixed anon : Bool}
    (h : fixed = false ∨ hint = 0) :
    (s.map hint len prot fixed anon).1 =
      if pageUp len = 0 then none else s.findGap (pageUp len) := by
  have hfix : ¬(fixed ∧ hint ≠ 0) := by
    rintro ⟨h1, h2⟩
    obtain h | h := h
    · exact nomatch h1.symm.trans h
    · exact h2 h
  unfold map
  dsimp only
  rw [if_neg hfix]
  split_ifs
  · rfl
  · cases s.findGap (pageUp len) <;> rfl

/-- The break is not so high that it rounds to zero. -/
def BrkBelow (s : AddressSpace) : Prop := s.brkCur ≤ 2 ^ 64 - 4096

theorem map_apart {hint len : ℕ} {prot : GuestProt} {fixed anon : Bool} {a : ℕ} (hs : s.Ok)
    (hb : s.BrkBelow) (hplace : fixed = false ∨ hint = 0)
    (hroom : ∀ v ∈ s.vmas, v.hi < s.floor → s.Room (pageUp len) v →
      (∀ u ∈ s.vmas, v.lo < u.lo → ¬s.Room (pageUp len) u) → s.floor + pageUp len ≤ s.roomEnd v)
    (h : (s.map hint len prot fixed anon).1 = some a) :
    s.arenaLow ≤ a ∧ a + pageUp len ≤ s.arenaHigh ∧
      (∀ v ∈ s.vmas, ¬Meets a (a + pageUp len) v.lo v.hi) ∧
      ¬Meets a (a + pageUp len) s.brkBase s.brkCur := by
  rw [map_placed hplace] at h
  split_ifs at h with hlen
  have hgap := h
  obtain ⟨h1, _, h3⟩ := findGap_spec hs hgap
  have hfloor : s.floor ≤ a := by
    refine floor_le_gapBelow (l := s.vmas.reverse) hs (by rw [reverse_reverse, append_nil])
      (fun u hu => absurd hu not_mem_nil)
      hroom ?_
    rw [show min s.arenaHigh (s.firstLo []) = s.arenaHigh from min_self s.arenaHigh]
    exact hgap
  have hbrk : s.brkCur ≤ pageUp s.brkCur := le_pageUp hb
  unfold floor at hfloor
  refine ⟨by omega, h1, fun v hv => ?_, ?_⟩
  · rintro ⟨x, hx⟩
    rcases h3 v hv with h | h <;> omega
  · rintro ⟨x, hx⟩
    omega

/-! ## Placement is from the top -/

/-- The page-aligned range at `a` lies in the arena above the heap, and no area meets it. -/
structure Free (s : AddressSpace) (len a : ℕ) : Prop where
  aligned : a % 4096 = 0
  low : s.arenaLow ≤ a
  high : a + len ≤ s.arenaHigh
  heap : s.brkCur ≤ a
  apart : ∀ v ∈ s.vmas, v.hi ≤ a ∨ a + len ≤ v.lo

/-- The first fit is at or above every fit. -/
theorem le_gapBelow {len floor ceiling b : ℕ} {l : List Vma} (hb : floor ≤ b)
    (hc : b + len ≤ ceiling) (hfree : ∀ v ∈ l, v.hi ≤ b ∨ b + len ≤ v.lo) :
    ∃ a, gapBelow len floor ceiling l = some a ∧ b ≤ a := by
  induction l generalizing ceiling with
  | nil => exact ⟨ceiling - len, if_pos ⟨by omega, by omega⟩, by omega⟩
  | cons v l ih =>
    rw [gapBelow]
    by_cases hfit : v.hi ≤ ceiling ∧ len ≤ ceiling - v.hi
    · exact ⟨ceiling - len, if_pos hfit, by omega⟩
    · -- The area is not below the range, so the range is below the area.
      rw [if_neg hfit]
      have hv := hfree v (.head _)
      exact ih (by omega) fun u hu => hfree u (.tail _ hu)

theorem Free.rounded {len a : ℕ} (hs : s.Ok) (hlen : len ≤ 2 ^ 64 - 4096) :
    s.Free (pageUp len) a ↔ s.Free len a := by
  have hle := le_pageUp hlen
  have hmod := pageUp_mod len
  have hup : pageUp len < len + 4096 := by
    rw [pageUp_eq hlen]
    unfold pageDown
    omega
  have hhigh := hs.arenaHigh_mod
  constructor
  · exact fun h =>
      ⟨h.aligned, h.low, by have := h.high; omega, h.heap,
      fun v hv => (h.apart v hv).imp_right (by omega)⟩
  · refine fun h =>
      ⟨h.aligned, h.low, ?_, h.heap, fun v hv => (h.apart v hv).imp_right fun hle => ?_⟩
    · have h1 := h.high
      have h2 := h.aligned
      omega
    · have h1 : v.lo % 4096 = 0 := (hs.aligned v hv).1
      have h2 := h.aligned
      omega

theorem le_findGap {len b : ℕ} (h : s.Free len b) : ∃ a, s.findGap len = some a ∧ b ≤ a := by
  refine le_gapBelow ?_ h.high fun v hv => h.apart v (mem_reverse.1 hv)
  have hup : pageUp s.brkCur < s.brkCur + 4096 := by
    unfold pageUp pageDown wrap
    omega
  have h1 := pageUp_mod s.brkCur
  have h2 := h.aligned
  have h3 := h.heap
  have h4 := h.low
  omega

/-- Where there is room in the arena above the heap, a mapping that is not fixed gets the
highest. -/
theorem map_places_highest {hint len b : ℕ} {fixed : Bool} (hs : s.Ok) (hlen : len ≠ 0)
    (hround : len ≤ 2 ^ 64 - 4096) (hplace : fixed = false ∨ hint = 0) (hfree : s.Free len b)
    (prot : GuestProt) (anon : Bool) :
    ∃ a, (s.map hint len prot fixed anon).1 = some a ∧ s.Free len a ∧ ∀ c, s.Free len c →
      c ≤ a := by
  have hrounded := fun a => Free.rounded (a := a) hs hround
  have hup := le_pageUp hround
  obtain ⟨a, ha, hba⟩ := le_findGap ((hrounded b).2 hfree)
  obtain ⟨h1, h2, h3⟩ := findGap_spec hs ha
  refine ⟨a, by rw [map_placed hplace, if_neg (by omega), ha], (hrounded a).1 ?_, fun c hc => ?_⟩
  · have hmod := pageUp_mod len
    exact ⟨by omega, hfree.low.trans hba, h1, hfree.heap.trans hba, h3⟩
  · obtain ⟨a', ha', hle⟩ := le_findGap ((hrounded c).2 hc)
    cases ha.symm.trans ha'
    exact hle

/-- The first area at or above an address is the lowest of them. -/
theorem ceilingAbove_le {addr : ℕ} {v : Vma} (hs : s.Ok) (hv : v ∈ s.vmas) (hlo : addr ≤ v.lo) :
    s.ceilingAbove addr ≤ v.lo := by
  have hspans := hs.spans
  unfold ceilingAbove
  rcases hf : s.vmas.find? fun u => decide (addr ≤ u.lo) with _ | u
  · exact absurd (decide_eq_true hlo) (List.find?_eq_none.1 hf v hv)
  · obtain ⟨_, l, r, hsplit, hbefore⟩ := List.find?_eq_some_iff_append.1 hf
    rw [hf, Option.map_some, Option.getD_some]
    rw [hsplit] at hv hspans
    obtain ⟨_, hur, _⟩ := spans_append.1 hspans
    obtain ⟨hu, hnext, _⟩ := spans_cons.1 hur
    rcases mem_append.1 hv with hv | hv
    · exact absurd (decide_eq_true hlo) (by simpa using hbefore v hv)
    · rcases mem_cons.1 hv with rfl | hv
      · exact le_rfl
      · exact hu.le.trans (hnext v hv)

theorem setBrk_apart {want : ℕ} (hs : s.Ok) (hw : want ≤ 2 ^ 64 - 4096)
    (hbase : s.brkBase < want → ∀ v ∈ s.vmas, v.lo < s.brkBase → v.hi ≤ s.brkBase)
    (hmoved : (s.setBrk want).brkCur ≠ s.brkCur) :
    ∀ v ∈ s.vmas, ¬Meets s.brkBase (s.setBrk want).brkCur v.lo v.hi := by
  unfold setBrk at hmoved ⊢
  split_ifs at hmoved ⊢ with h0 h1 h2
  · exact absurd rfl hmoved
  · exact absurd rfl hmoved
  · exact absurd rfl hmoved
  · rintro v hv ⟨x, hx1, hx2, hx3, hx4⟩
    dsimp only at hx2
    by_cases hlo : s.brkBase ≤ v.lo
    · have hceil := ceilingAbove_le hs hv hlo
      have hup := le_pageUp hw
      omega
    · have := hbase (by omega) v hv (not_le.1 hlo)
      omega

theorem HeapRoom.noWrap {op : Op} (h : s.HeapRoom op) : s.NoWrap op := by
  cases op with
  | map hint len prot fixed anon => exact h.1
  | setBrk want => trivial
  | unmap | protect | adopt => exact h

theorem insert_brkCur (v : Vma) : (s.insert v).brkCur = s.brkCur := rfl

theorem unmap_brkCur (addr len : ℕ) : (s.unmap addr len).brkCur = s.brkCur := by
  unfold unmap
  dsimp only
  split_ifs <;> rfl

theorem step_brkCur {op : Op} (h : ∀ want, op ≠ .setBrk want) : (s.step op).brkCur = s.brkCur := by
  cases op with
  | map hint len prot fixed anon =>
    unfold step map
    dsimp only
    split_ifs
    · rfl
    · rfl
    · exact (insert_brkCur _).trans (unmap_brkCur _ _)
    · split <;> rfl
  | unmap addr len => exact unmap_brkCur _ _
  | protect addr len prot =>
    unfold step protect
    dsimp only
    split_ifs <;> rfl
  | adopt first last prot anon =>
    unfold step adopt
    dsimp only
    split_ifs
    · rfl
    · exact (insert_brkCur _).trans (unmap_brkCur _ _)
  | setBrk want => exact absurd rfl (h want)

theorem brkBelow_step {op : Op} (hb : s.BrkBelow) (h : s.HeapRoom op) : (s.step op).BrkBelow := by
  by_cases hop : ∃ want, op = .setBrk want
  · obtain ⟨want, rfl⟩ := hop
    unfold BrkBelow step setBrk
    dsimp only
    split_ifs
    · exact hb
    · exact hb
    · exact hb
    · exact h.1
  · unfold BrkBelow
    rw [step_brkCur fun want heq => hop ⟨want, heq⟩]
    exact hb

/-- From any reset, mappings are placed off the heap and the break is kept off the areas, as long as
the room that is chosen is above the break and no area lies across the base of the heap. -/
theorem heap_stays_apart {low high : UInt64} {ops : List Op}
    (h : Along step HeapRoom (reset low.toNat high.toNat) ops) :
    Along step HeapApart (reset low.toNat high.toNat) ops := by
  have hstart : (reset low.toNat high.toNat).Ok ∧ (reset low.toNat high.toNat).BrkBelow := by
    refine ⟨ok_reset low.toNat high.toNat_lt, ?_⟩
    have h1 := pageUp_lt low.toNat
    have h2 := pageUp_mod low.toNat
    unfold BrkBelow reset
    dsimp only
    omega
  refine Along.of_invariant (I := fun s => s.Ok ∧ s.BrkBelow) (fun s op hs hroom => ?_) hstart h
  refine ⟨?_, ok_step hs.1 hroom.noWrap, brkBelow_step hs.2 hroom⟩
  cases op with
  | map hint len prot fixed anon =>
    intro hplace a ha
    exact map_apart hs.1 hs.2 (hplace.imp_right fun h => by rw [h]; rfl) (hroom.2 hplace) ha
  | setBrk want => exact setBrk_apart hs.1 hroom.1 hroom.2
  | unmap | protect | adopt => trivial

end AddressSpace

/-- An area below the arena, one near its top, one above it, and a break that has moved. -/
def mixedSpace : AddressSpace where
  vmas :=
    [⟨0x400000, 0x401000, ⟨true, false, true⟩, false⟩,
      ⟨0x4f0000, 0x500000, ⟨true, true, false⟩, true⟩,
      ⟨0x600000, 0x601000, ⟨true, true, false⟩, true⟩]
  arenaLow := 0x401000
  arenaHigh := 0x501000
  brkBase := 0x401000
  brkCur := 0x410800

/-- One page above the second area is too little, so the mapping goes below it. -/
theorem map_places_highest_mixedSpace :
    (mixedSpace.map 0 0x1800 ⟨true, true, false⟩ false true).1 = some 0x4ee000 ∧
      mixedSpace.Free 0x1800 0x4ee000 ∧ ∀ c, mixedSpace.Free 0x1800 c → c ≤ 0x4ee000 := by
  have hok : mixedSpace.Ok :=
    ⟨⟨⟨by decide, by decide⟩, by unfold Ends; decide⟩, by unfold Ends; decide, by decide, by decide⟩
  have hfree : mixedSpace.Free 0x1800 0x411000 :=
    ⟨by decide, by decide, by decide, by decide, by decide⟩
  obtain ⟨a, ha, hfree, hhigh⟩ := AddressSpace.map_places_highest hok (by decide) (by decide)
    (.inl rfl : false = false ∨ 0 = 0) hfree ⟨true, true, false⟩ true
  obtain rfl : 0x4ee000 = a := Option.some.inj ((by decide : _ = some 0x4ee000).symm.trans ha)
  exact ⟨ha, hfree, hhigh⟩

/-- The image below the heap, a heap of half the arena, and a mapping above it. -/
def heapOps (len : UInt64) : List Op :=
  [.adopt ⟨0x400000, by decide, by decide⟩ ⟨0x401000, by decide, by decide⟩
      ⟨true, false, true⟩ false,
    .setBrk 0x481000, .map 0 len ⟨true, true, false⟩ false true]

theorem heap_stays_apart_heapOps :
    Along AddressSpace.step AddressSpace.HeapApart (AddressSpace.reset 0x401000 0x501000)
      (heapOps 0x8000) := by
  refine @AddressSpace.heap_stays_apart 0x401000 0x501000 (heapOps 0x8000)
    ⟨trivial, ⟨by decide, ?_⟩, ⟨trivial, ?_⟩, trivial⟩
  · decide
  · decide

/-- The room above the image reaches under the break; and an area that lies across the base of the
heap is not seen by the break. -/
theorem placed_in_heap :
    ¬Along AddressSpace.step AddressSpace.HeapApart (AddressSpace.reset 0x401000 0x501000)
      (heapOps 0xff000) ∧
      ¬Along AddressSpace.step AddressSpace.HeapApart (AddressSpace.reset 0x401000 0x501000)
      [.adopt ⟨0x400000, by decide, by decide⟩ ⟨0x402000, by decide, by decide⟩ ⟨true, true, false⟩
      false, .setBrk 0x401800] := by
  refine ⟨?_, ?_⟩
  · rintro ⟨_, _, h, _⟩
    exact (h (.inl rfl) 0x402000 (by decide)).2.2.2 ⟨0x402000, by decide⟩
  · rintro ⟨_, h, _⟩
    exact h (by decide) ⟨0x400000, 0x402000, ⟨⟨true, true, false⟩, false⟩⟩ (by decide)
      ⟨0x401000, by decide⟩

end Linuxity.Mem

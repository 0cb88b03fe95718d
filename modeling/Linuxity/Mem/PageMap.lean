import Linuxity.Mem.Vma
import Mathlib.Data.Set.Card
import Mathlib.Order.Interval.Finset.Nat

/-!
# Mem.PageMap — the areas as a map from pages to attributes

The purpose of the areas is a partial function from pages to attributes.  An operation is right if
it changes that function at the pages of its range and nowhere else.
-/

namespace Linuxity.Mem

open Logic List Option

namespace AddressSpace

def pageMap (s : AddressSpace) (p : ℕ) : Option VmaAttr := valueAt s.vmas (p * 4096)

end AddressSpace

def PageOf (addr len p : ℕ) : Prop := ∃ x, addr ≤ x ∧ x < addr + len ∧ x / 4096 = p

/-- The map `m'` gives the pages of the range what `f` says, and the others what `m` gave them. -/
def ChangesOnly (m m' : ℕ → Option VmaAttr) (range : ℕ → Prop) (f : ℕ → Option VmaAttr) : Prop :=
  ∀ p, (range p → m' p = f p) ∧ (¬range p → m' p = m p)

/-- What the operation is to do to the map. -/
def AddressSpace.Does (s : AddressSpace) : Op → Prop
  | .map hint len prot fixed anon =>
    match s.map hint.toNat len.toNat prot fixed anon with
    | (none, s') => s'.pageMap = s.pageMap
    | (some a, s') =>
      ChangesOnly s.pageMap s'.pageMap (PageOf a len.toNat) fun _ => some ⟨prot, anon⟩
  | .unmap addr len =>
    ChangesOnly s.pageMap (s.unmap addr.toNat len.toNat).pageMap (PageOf addr.toNat len.toNat)
      fun _ => none
  | .protect addr len prot =>
    match s.protect addr.toNat len.toNat prot with
    | (false, s') => s'.pageMap = s.pageMap
    | (true, s') => ChangesOnly s.pageMap s'.pageMap (PageOf addr.toNat len.toNat) fun p =>
        (s.pageMap p).map fun a => { a with prot := prot }
  | .adopt first last prot anon =>
    ChangesOnly s.pageMap (s.adopt ⟨first.val, last.val, prot, anon⟩).pageMap
      (PageOf first.val (last.val - first.val)) fun _ => some ⟨prot, anon⟩
  | .setBrk want => (s.setBrk want.toNat).pageMap = s.pageMap

/-- The area that is found holds the page, and one is found exactly when the page is mapped. -/
def AddressSpace.Finds (s : AddressSpace) : Prop :=
  ∀ a, (s.find a).map Span.val = s.pageMap (a / 4096) ∧
    ∀ v, s.find a = some v → v ∈ s.vmas ∧ v.lo ≤ pageDown a ∧ pageDown a + 4096 ≤ v.hi

def AddressSpace.Counts (s : AddressSpace) : Prop :=
  s.mappedBytes = Set.ncard {p | s.pageMap p ≠ none} * kPageSize

/-- The operation, the lookup and the count agree with the map. -/
structure AddressSpace.Refines (s : AddressSpace) (op : Op) : Prop where
  does : s.Does op
  finds : s.Finds
  counts : s.Counts

def Op.InRange : Op → Prop
  | .map hint len _ true _ => hint ≠ 0 → pageDown hint.toNat + len.toNat ≤ 2 ^ 64
  | .unmap addr len | .protect addr len _ => addr.toNat + len.toNat ≤ 2 ^ 64
  | _ => True

/-- The end of the range, rounded up, is below `2 ^ 64`, or nothing is to be done; and the page of
an empty range that begins inside it is not to be changed. -/
def AddressSpace.Rounds (s : AddressSpace) : Op → Prop
  | .map hint len _ true _ => hint ≠ 0 → pageUp len.toNat ≠ 0 → s.arenaLow ≤ pageDown hint.toNat →
    pageDown hint.toNat + pageUp len.toNat < 2 ^ 64
  | .unmap addr len =>
    (len = 0 → addr.toNat % 4096 = 0 ∨ s.pageMap (addr.toNat / 4096) = none) ∧
    (2 ^ 64 - 4096 < addr.toNat + len.toNat → ∀ p, PageOf addr.toNat len.toNat p →
        s.pageMap p = none)
  | .protect addr len prot =>
    (len = 0 → addr.toNat % 4096 = 0 ∨ ∀ a, s.pageMap (addr.toNat / 4096) = some a →
        a.prot = prot) ∧
    (2 ^ 64 - 4096 < addr.toNat + len.toNat → ∀ p, PageOf addr.toNat len.toNat p →
        ∀ a, s.pageMap p = some a → a.prot = prot)
  | _ => True

/-! ## Pages of a range -/

variable {addr p : ℕ}

theorem pageOf_iff {len : ℕ} (hlen : len ≠ 0) :
    PageOf addr len p ↔ pageDown addr ≤ p * 4096 ∧ p * 4096 < addr + len := by
  unfold PageOf pageDown
  constructor
  · rintro ⟨x, h1, h2, rfl⟩
    omega
  · rintro ⟨h1, h2⟩
    exact ⟨max addr (p * 4096), by omega, by omega, by omega⟩

theorem not_pageOf_zero : ¬PageOf addr 0 p := by
  rintro ⟨x, h1, h2, _⟩
  omega

theorem pageOf_pages {len : ℕ} (haddr : addr % 4096 = 0) (hlen : pageUp len ≠ 0)
    (hlt : len < 2 ^ 64) : PageOf addr len p ↔ addr ≤ p * 4096 ∧ p * 4096 < addr + pageUp len := by
  have hle : len ≤ 2 ^ 64 - 4096 := by
    by_contra h
    exact hlen (pageUp_eq_zero (not_le.1 h) hlt)
  have h0 : len ≠ 0 := by
    rintro rfl
    exact hlen (by decide)
  rw [pageOf_iff h0, pageDown_of_mod haddr, pageUp_eq hle]
  unfold pageDown
  omega

namespace AddressSpace

variable {s : AddressSpace}

/-! ## Lookup and count -/

variable {l : List Vma} {v : Vma} {p hi lo addr len : ℕ} {prot : GuestProt}

/-- The last area that begins at or before the address is the only one that can hold it. -/
theorem lastFrom_eq_some (hl : Spans l) {a : ℕ} :
    ((l.takeWhile fun v => v.lo ≤ a).getLast?.filter fun v => a < v.hi) = some v ↔
      v ∈ l ∧ v.Holds a := by
  induction l with
  | nil => simp
  | cons u l ih =>
    obtain ⟨hu, hfirst, hl⟩ := spans_cons.1 hl
    by_cases hua : u.lo ≤ a
    · rw [takeWhile_cons_of_pos (by simpa using hua)]
      rcases ht : l.takeWhile fun v => decide (v.lo ≤ a) with _ | ⟨w, t⟩
      · -- No later area begins in time.
        have hlater : ∀ v ∈ l, ¬v.Holds a := by
          intro v hv hva
          rcases l with _ | ⟨x, l⟩
          · exact nomatch hv
          have hx : ¬x.lo ≤ a := by
            intro hx
            rw [takeWhile_cons_of_pos (by simpa using hx)] at ht
            cases ht
          obtain ⟨hxp, hxl, _⟩ := spans_cons.1 hl
          obtain ⟨h1, h2⟩ := hva
          rcases mem_cons.1 hv with rfl | hv
          · exact hx h1
          · have := hxl v hv
            omega
        rw [ht, List.getLast?_singleton, filter_some]
        constructor
        · intro h
          split_ifs at h with hlt
          cases h
          exact ⟨.head _, hua, by simpa using hlt⟩
        · rintro ⟨hv, hva⟩
          rcases mem_cons.1 hv with rfl | hv
          · exact if_pos (by simpa using hva.2)
          · exact absurd hva (hlater v hv)
      · have hw : w ∈ l ∧ w.lo ≤ a := by
          have hmem : w ∈ l.takeWhile fun v => decide (v.lo ≤ a) := by
            rw [ht]
            exact mem_cons_self
          exact ⟨takeWhile_subset _ hmem, by simpa using mem_takeWhile_imp hmem⟩
        rw [ht, List.getLast?_cons_cons, ← ht, ih hl]
        have hnot : ¬u.Holds a := by
          rintro ⟨_, h2⟩
          have := hfirst w hw.1
          omega
        constructor
        · exact fun h => ⟨mem_cons_of_mem u h.1, h.2⟩
        · rintro ⟨hv, hva⟩
          rcases mem_cons.1 hv with rfl | hv
          · exact absurd hva hnot
          · exact ⟨hv, hva⟩
    · rw [takeWhile_cons_of_neg (by simpa using hua)]
      simp only [List.getLast?_nil, filter_none, reduceCtorEq, false_iff, not_and]
      rintro hv ⟨h1, h2⟩
      rcases mem_cons.1 hv with rfl | hv
      · exact hua h1
      · have := hfirst v hv
        omega

theorem find_eq_some (hs : s.Ok) {a : ℕ} : s.find a = some v ↔ v ∈ s.vmas ∧ v.Holds a :=
  lastFrom_eq_some hs.spans

theorem holds_page (hs : s.Ok) (hv : v ∈ s.vmas) (a : ℕ) :
    v.Holds (a / 4096 * 4096) ↔ v.Holds a := by
  have hlo : v.lo % 4096 = 0 := (hs.aligned v hv).1
  have hhi : v.hi % 4096 = 0 := (hs.aligned v hv).2
  unfold Span.Holds
  omega

theorem pageMap_eq_some (hs : s.Ok) {b : VmaAttr} :
    s.pageMap p = some b ↔ ∃ v ∈ s.vmas, v.Holds (p * 4096) ∧ v.val = b :=
  valueAt_eq_some hs.spans

theorem finds_of_ok (hs : s.Ok) : s.Finds := by
  intro a
  refine ⟨Option.ext fun b => ?_, fun v hv => ?_⟩
  · rw [map_eq_some_iff, pageMap_eq_some hs]
    constructor
    · rintro ⟨v, hv, rfl⟩
      obtain ⟨hmem, hva⟩ := (find_eq_some hs).1 hv
      exact ⟨v, hmem, (holds_page hs hmem a).2 hva, rfl⟩
    · rintro ⟨v, hmem, hva, rfl⟩
      exact ⟨v, (find_eq_some hs).2 ⟨hmem, (holds_page hs hmem a).1 hva⟩, rfl⟩
  · obtain ⟨hmem, h1, h2⟩ := (find_eq_some hs).1 hv
    have hlo : v.lo % 4096 = 0 := (hs.aligned v hmem).1
    have hhi : v.hi % 4096 = 0 := (hs.aligned v hmem).2
    unfold pageDown
    exact ⟨hmem, by omega, by omega⟩

def totalSize (l : List Vma) : ℕ := (l.map fun v => v.hi - v.lo).sum

theorem totalSize_lt (hl : Spans l) (hw : Ends (· < 2 ^ 64) l) {c : ℕ} (hc : c < 2 ^ 64)
    (hfrom : ∀ v ∈ l, c ≤ v.lo) : c + totalSize l < 2 ^ 64 := by
  induction l generalizing c with
  | nil => exact hc
  | cons v l ih =>
    obtain ⟨hv, hfirst, hl⟩ := spans_cons.1 hl
    have hlt : v.hi < 2 ^ 64 := (hw v (.head _)).2
    have hle : c ≤ v.lo := hfrom v mem_cons_self
    have hrest := ih hl (fun u hu => hw u (mem_cons_of_mem v hu)) hlt hfirst
    unfold totalSize at hrest ⊢
    rw [map_cons, sum_cons]
    omega

theorem foldl_size (hl : Spans l) (hw : Ends (· < 2 ^ 64) l) {n : ℕ}
    (hn : n + totalSize l < 2 ^ 64) :
    l.foldl (fun n v => wrap (n + Vma.size v)) n = n + totalSize l := by
  induction l generalizing n with
  | nil => rfl
  | cons v l ih =>
    obtain ⟨hv, _, hl⟩ := spans_cons.1 hl
    unfold totalSize at hn ih ⊢
    rw [map_cons, sum_cons] at hn ⊢
    have hstep : wrap (n + Vma.size v) = n + (v.hi - v.lo) := by
      unfold Vma.size wrap
      omega
    rw [foldl_cons, hstep, ih hl (fun u hu => hw u (mem_cons_of_mem v hu)) (by omega)]
    omega

theorem size_pages (hlo : lo % 4096 = 0) (hhi : hi % 4096 = 0) :
    (hi / 4096 - lo / 4096) * 4096 = hi - lo := by omega

theorem ncard_pages (hl : Spans l) (ha : Ends (fun a => a % 4096 = 0) l) :
    {p | ∃ v ∈ l, v.Holds (p * 4096)}.Finite ∧
      Set.ncard {p | ∃ v ∈ l, v.Holds (p * 4096)} * 4096 = totalSize l := by
  induction l with
  | nil => simp [totalSize]
  | cons v l ih =>
    obtain ⟨hv, hfirst, hl⟩ := spans_cons.1 hl
    obtain ⟨hfin, hcard⟩ := ih hl fun u hu => ha u (mem_cons_of_mem v hu)
    have hlo : v.lo % 4096 = 0 := (ha v (.head _)).1
    have hhi : v.hi % 4096 = 0 := (ha v (.head _)).2
    have hset : {p | ∃ u ∈ v :: l, u.Holds (p * 4096)} =
        ↑(Finset.Ico (v.lo / 4096) (v.hi / 4096)) ∪ {p | ∃ u ∈ l, u.Holds (p * 4096)} := by
      ext p
      have hp : v.Holds (p * 4096) ↔ v.lo / 4096 ≤ p ∧ p < v.hi / 4096 := by
        unfold Span.Holds
        omega
      simp only [mem_cons, exists_eq_or_imp, Set.mem_ofPred_eq, Finset.coe_Ico, Set.mem_union,
        Set.mem_Ico, hp]
    have hdisj : Disjoint (↑(Finset.Ico (v.lo / 4096) (v.hi / 4096)) : Set ℕ)
        {p | ∃ u ∈ l, u.Holds (p * 4096)} := by
      rw [Set.disjoint_left]
      rintro p hp ⟨u, hu, h1, _⟩
      have hp' := (Finset.mem_Ico.1 (Finset.mem_coe.1 hp)).2
      have hle := hfirst u hu
      omega
    rw [hset]
    refine ⟨(Finset.finite_toSet _).union hfin, ?_⟩
    rw [Set.ncard_union_eq hdisj (Finset.finite_toSet _) hfin, Set.ncard_coe_finset, Nat.card_Ico,
      Nat.add_mul, hcard, size_pages hlo hhi]
    rfl

theorem counts_of_ok (hs : s.Ok) : s.Counts := by
  have hset : {p | s.pageMap p ≠ none} = {p | ∃ v ∈ s.vmas, v.Holds (p * 4096)} := by
    ext p
    rw [Set.mem_ofPred_eq, ne_none_iff_exists']
    simp only [pageMap_eq_some hs, Set.mem_ofPred_eq]
    exact ⟨fun ⟨_, v, hv, h, _⟩ => ⟨v, hv, h⟩, fun ⟨v, hv, h⟩ => ⟨v.val, v, hv, h, rfl⟩⟩
  have htotal :=
    totalSize_lt hs.spans hs.within (by decide : 0 < 2 ^ 64) fun v _ => Nat.zero_le v.lo
  unfold Counts mappedBytes kPageSize
  rw [hset, (ncard_pages hs.spans hs.aligned).2, foldl_size hs.spans hs.within htotal, Nat.zero_add]

/-! ## The operations -/

theorem pageMap_carve (hs : s.Ok) (hlh : lo ≤ hi) (p : ℕ) :
    ({ s with vmas := carve lo hi s.vmas } : AddressSpace).pageMap p =
      if lo ≤ p * 4096 ∧ p * 4096 < hi then none else s.pageMap p :=
  valueAt_carve hlh hs.spans (p * 4096)

theorem pageMap_insert (hs : s.Ok) (hv : v.lo < v.hi) (hd : ∀ u ∈ s.vmas, u.hi ≤ v.lo ∨ v.hi ≤ u.lo)
    (p : ℕ) : (s.insert v).pageMap p = if v.Holds (p * 4096) then some v.val else s.pageMap p :=
  (valueAt_join (hs.spans.place hv hd) (p * 4096)).trans (valueAt_place hv hs.spans hd (p * 4096))

theorem pageMap_replace (hs : s.Ok) (hv : v.lo < v.hi) (hlo : v.lo % 4096 = 0)
    (hhi : v.hi % 4096 = 0) (hlt : v.hi < 2 ^ 64) (p : ℕ) :
    (({ s with vmas := carve v.lo v.hi s.vmas } : AddressSpace).insert v).pageMap p =
      if v.Holds (p * 4096) then some v.val else s.pageMap p := by
  rw [pageMap_insert (ok_carve hs hv.le hlo hhi hlt) hv (carve_apart hs.spans hv),
    pageMap_carve hs hv.le]
  by_cases hp : v.Holds (p * 4096)
  · rw [if_pos hp, if_pos hp]
  · rw [if_neg hp, if_neg hp]
    exact if_neg hp

theorem changesOnly_of_ite {m m' f : ℕ → Option VmaAttr} {range : ℕ → Prop} {c : ℕ → Prop}
    [DecidablePred c] (hm : ∀ p, m' p = if c p then f p else m p) (hc : ∀ p, range p ↔ c p) :
    ChangesOnly m m' range f := by
  intro p
  refine ⟨fun hp => ?_, fun hp => ?_⟩
  · rw [hm, if_pos ((hc p).1 hp)]
  · rw [hm, if_neg fun h => hp ((hc p).2 h)]

/-- The last page of the address space is never mapped: no area ends after it. -/
theorem pageMap_last (hw : Ends (· < 2 ^ 64) l) (ha : Ends (fun a => a % 4096 = 0) l)
    (hp : 2 ^ 64 - 4096 ≤ p * 4096) : valueAt l (p * 4096) = none := by
  rw [valueAt_eq_none]
  rintro b ⟨v, hv, ⟨_, h2⟩, _⟩
  have hlt : v.hi < 2 ^ 64 := (hw v hv).2
  have hmod : v.hi % 4096 = 0 := (ha v hv).2
  omega

/-- The pages that a cut or a protection is about in fact. -/
def Rounded (addr len p : ℕ) : Prop :=
  pageDown addr ≤ p * 4096 ∧ p * 4096 < pageUp (wrap (addr + len))

instance : DecidablePred (Rounded addr len) := fun _ => inferInstanceAs (Decidable (_ ∧ _))

/-- They are those of the range, unless its end is rounded past the 64 bits; and an empty range that
begins inside a page is rounded to that page. -/
theorem rounded_iff (hr : addr + len ≤ 2 ^ 64) :
    Rounded addr len p ↔ addr + len ≤ 2 ^ 64 - 4096 ∧
      (PageOf addr len p ∨ len = 0 ∧ addr % 4096 ≠ 0 ∧ p = addr / 4096) := by
  unfold Rounded pageUp pageDown wrap
  by_cases hlen : len = 0
  · subst hlen
    rw [or_iff_right not_pageOf_zero]
    omega
  · rw [pageOf_iff hlen]
    unfold pageDown
    omega

/-- A change of the rounded range is one of the range alone if it changes nothing that is in only
one of them. -/
theorem changesOnly_rounded_iff {m m' : ℕ → Option VmaAttr} {f : Option VmaAttr → Option VmaAttr}
    (hr : addr + len ≤ 2 ^ 64) (hm : ∀ p, m' p = if Rounded addr len p then f (m p) else m p)
    (hlast : ∀ p, 2 ^ 64 - 4096 ≤ p * 4096 → m p = f (m p)) :
    ChangesOnly m m' (PageOf addr len) (fun p => f (m p)) ↔
      (len = 0 → addr % 4096 = 0 ∨ m (addr / 4096) = f (m (addr / 4096))) ∧
      (2 ^ 64 - 4096 < addr + len → ∀ p, PageOf addr len p → m p = f (m p)) := by
  constructor
  · refine fun h => ⟨fun hlen => or_iff_not_imp_left.2 fun hmod => ?_, fun hw p hp => ?_⟩
    · by_cases hw : addr + len ≤ 2 ^ 64 - 4096
      · have hkeep := (h (addr / 4096)).2 (hlen ▸ not_pageOf_zero)
        rw [hm, if_pos ((rounded_iff hr).2 ⟨hw, .inr ⟨hlen, hmod, rfl⟩⟩)] at hkeep
        exact hkeep.symm
      · exact hlast _ (by omega)
    · have hset := (h p).1 hp
      rwa [hm, if_neg fun hround => absurd ((rounded_iff hr).1 hround).1 (not_le.2 hw)] at hset
  · rintro ⟨hempty, hwrap⟩ p
    rw [hm]
    split_ifs with hround
    · obtain ⟨-, hp | ⟨hlen, hmod, rfl⟩⟩ := (rounded_iff hr).1 hround
      · exact ⟨fun _ => rfl, fun h => absurd hp h⟩
      · exact ⟨fun h => absurd (hlen ▸ h) not_pageOf_zero,
          fun _ => ((hempty hlen).resolve_left hmod).symm⟩
    · refine ⟨fun hp => hwrap ?_ p hp, fun _ => rfl⟩
      by_contra hw
      exact hround ((rounded_iff hr).2 ⟨not_lt.1 hw, .inl hp⟩)

theorem pageMap_unmap (hs : s.Ok) (p : ℕ) :
    (s.unmap addr len).pageMap p = if Rounded addr len p then none else s.pageMap p := by
  unfold unmap
  dsimp only
  split_ifs with hle hp hp
  · exact absurd hp.2 (by unfold Rounded at hp; omega)
  · rfl
  · exact (pageMap_carve hs (not_le.1 hle).le p).trans (if_pos hp)
  · exact (pageMap_carve hs (not_le.1 hle).le p).trans (if_neg hp)

/-- The walk over the areas sees a hole if there is one. -/
theorem mappedFrom_iff (hl : Spans l) {cursor : ℕ} (hc : cursor < hi) :
    mappedFrom hi cursor l ↔ ∀ x, cursor ≤ x → x < hi → ∃ v ∈ l, v.Holds x := by
  induction l generalizing cursor with
  | nil =>
    rw [mappedFrom, decide_eq_true_iff]
    refine ⟨fun h => absurd h (not_le.2 hc), fun h => ?_⟩
    obtain ⟨v, hv, _⟩ := h cursor le_rfl hc
    exact nomatch hv
  | cons v l ih =>
    obtain ⟨hv, hfirst, hl⟩ := spans_cons.1 hl
    rw [mappedFrom]
    split_ifs with h1 h2 h3
    · rw [ih hl hc]
      refine forall_congr' fun x => imp_congr_right fun hx => imp_congr_right fun _ => ?_
      simp only [mem_cons, exists_eq_or_imp]
      refine (or_iff_right ?_).symm
      rintro ⟨_, h⟩
      omega
    · refine iff_of_false (by decide) fun h => ?_
      obtain ⟨u, hu, hlo, _⟩ := h cursor le_rfl hc
      rcases mem_cons.1 hu with rfl | hu
      · omega
      · have := hfirst u hu
        omega
    · refine iff_of_true rfl fun x hx hxh => ⟨v, .head _, ?_, ?_⟩ <;> omega
    · rw [ih hl (by omega)]
      constructor
      · intro h x hx hxh
        rcases Nat.lt_or_ge x v.hi with hlt | hge
        · exact ⟨v, .head _, by omega, hlt⟩
        · obtain ⟨u, hu, hux⟩ := h x hge hxh
          exact ⟨u, mem_cons_of_mem v hu, hux⟩
      · intro h x hx hxh
        obtain ⟨u, hu, hux⟩ := h x (by omega) hxh
        rcases mem_cons.1 hu with rfl | hu
        · exact absurd hux.2 (by omega)
        · exact ⟨u, hu, hux⟩

theorem fullyMapped_iff (hs : s.Ok) (hlo : lo % 4096 = 0) (hlh : lo < hi) :
    s.fullyMapped lo hi ↔ ∀ p, lo ≤ p * 4096 → p * 4096 < hi → s.pageMap p ≠ none := by
  unfold fullyMapped
  rw [mappedFrom_iff hs.spans hlh]
  simp only [ne_none_iff_exists', pageMap_eq_some hs]
  constructor
  · intro h p h1 h2
    obtain ⟨v, hv, hvp⟩ := h (p * 4096) h1 h2
    exact ⟨v.val, v, hv, hvp, rfl⟩
  · intro h x hx hxh
    obtain ⟨_, v, hv, hvx, _⟩ := h (x / 4096) (by omega) (by omega)
    exact ⟨v, hv, (holds_page hs hv x).1 hvx⟩

theorem pageMap_repaint {f : VmaAttr → VmaAttr} (hs : s.Ok) (hlh : lo < hi) (p : ℕ) :
    ({ s with vmas := join (repaint f lo hi s.vmas) } : AddressSpace).pageMap p =
      if lo ≤ p * 4096 ∧ p * 4096 < hi then (s.pageMap p).map f else s.pageMap p :=
  (valueAt_join (hs.spans.repaint hlh) (p * 4096)).trans (valueAt_repaint hlh hs.spans (p * 4096))

theorem map_prot_eq {o : Option VmaAttr} :
    o = o.map (fun a => { a with prot := prot }) ↔ ∀ a, o = some a → a.prot = prot := by
  cases o with
  | none => simp
  | some a =>
    obtain ⟨q, anon⟩ := a
    simp

/-- What a protection did to the map, by its answer. -/
def Protects (s : AddressSpace) (addr len : ℕ) (prot : GuestProt) : Bool × AddressSpace → Prop
  | (false, s') => s'.pageMap = s.pageMap
  | (true, s') => ChangesOnly s.pageMap s'.pageMap (PageOf addr len) fun p =>
      (s.pageMap p).map fun a => { a with prot := prot }

/-- A protection fails where a page of its rounded range is not mapped, and changes nothing then. -/
theorem protect_cases (addr len : ℕ) (prot : GuestProt) (hs : s.Ok) :
    ((∃ p, Rounded addr len p ∧ s.pageMap p = none) ∧ s.protect addr len prot = (false, s)) ∨
      (∀ p, Rounded addr len p → s.pageMap p ≠ none) ∧ ∃ s', s.protect addr len prot = (true, s') ∧
      ∀ p, s'.pageMap p =
        if Rounded addr len p then (s.pageMap p).map (fun a => { a with prot := prot })
      else s.pageMap p := by
  unfold protect
  by_cases hle : pageUp (wrap (addr + len)) ≤ pageDown addr
  · have hnone : ∀ p, ¬Rounded addr len p := fun p ⟨h1, h2⟩ => by omega
    rw [if_pos hle]
    exact .inr ⟨fun p hp => absurd hp (hnone p), s, rfl, fun p => (if_neg (hnone p)).symm⟩
  have hlt := not_le.1 hle
  have hfull := fullyMapped_iff hs (pageDown_mod addr) hlt
  rw [if_neg hle]
  by_cases hmapped : s.fullyMapped (pageDown addr) (pageUp (wrap (addr + len)))
  · rw [if_neg (by rw [hmapped]; decide)]
    exact .inr ⟨fun p hp => hfull.1 hmapped p hp.1 hp.2, _, rfl, pageMap_repaint hs hlt⟩
  · rw [if_pos (Bool.eq_false_of_not_eq_true hmapped)]
    refine .inl ⟨?_, rfl⟩
    by_contra hall
    exact hmapped (hfull.2 fun p h1 h2 h0 => hall ⟨p, ⟨h1, h2⟩, h0⟩)

theorem protect_iff (hs : s.Ok) (hr : addr + len ≤ 2 ^ 64) :
    s.Protects addr len prot (s.protect addr len prot) ↔
      (len = 0 → addr % 4096 = 0 ∨ ∀ a, s.pageMap (addr / 4096) = some a → a.prot = prot) ∧
      (2 ^ 64 - 4096 < addr + len → ∀ p, PageOf addr len p → ∀ a, s.pageMap p = some a →
        a.prot = prot) := by
  obtain ⟨⟨p, hp, hnone⟩, heq⟩ | ⟨-, s', heq, hmap⟩ := protect_cases addr len prot hs
  · obtain ⟨hw, hp⟩ := (rounded_iff hr).1 hp
    rw [heq]
    refine iff_of_true rfl ⟨fun hlen => or_iff_not_imp_left.2 fun _ a ha => ?_,
      fun h => absurd hw (not_le.2 h)⟩
    obtain hp | ⟨-, -, rfl⟩ := hp
    · exact absurd (hlen ▸ hp) not_pageOf_zero
    · exact nomatch hnone.symm.trans ha
  · simp only [← map_prot_eq, heq]
    refine changesOnly_rounded_iff hr hmap fun p hp => ?_
    have hnone : s.pageMap p = none := pageMap_last hs.within hs.aligned hp
    rw [hnone]
    rfl

/-! ## A protection is one step -/

/-- It fails exactly when a page of the range is not mapped, and then leaves the areas alone;
otherwise every page of the range has the protection. -/
def ProtectsAtOnce (s : AddressSpace) (addr len : ℕ) (prot : GuestProt) : Prop :=
  ((s.protect addr len prot).1 = false ↔ ∃ p, PageOf addr len p ∧ s.pageMap p = none) ∧
    ((s.protect addr len prot).1 = false → (s.protect addr len prot).2 = s) ∧
    ((s.protect addr len prot).1 → ∀ p, PageOf addr len p →
      ∃ a, (s.protect addr len prot).2.pageMap p = some a ∧ a.prot = prot)

/-- The end of the range can be rounded up, and the page of an empty range that begins inside it is
mapped. -/
def Roundable (s : AddressSpace) (addr len : ℕ) : Prop :=
  (len ≠ 0 → addr + len ≤ 2 ^ 64 - 4096) ∧
    (len = 0 → addr % 4096 = 0 ∨ 2 ^ 64 - 4096 < addr ∨ s.pageMap (addr / 4096) ≠ none)

theorem protects_at_once_iff (hs : s.Ok) (hr : addr + len < 2 ^ 64) (prot : GuestProt) :
    s.ProtectsAtOnce addr len prot ↔ s.Roundable addr len := by
  have hround := fun p => rounded_iff (p := p) hr.le
  obtain ⟨⟨p, hp, hnone⟩, heq⟩ | ⟨hall, s', heq, hmap⟩ := protect_cases addr len prot hs
  · obtain ⟨hw, hp⟩ := (hround p).1 hp
    unfold ProtectsAtOnce
    rw [heq]
    obtain hp | ⟨hlen, hmod, rfl⟩ := hp
    · refine iff_of_true ⟨iff_of_true rfl ⟨p, hp, hnone⟩, fun _ => rfl, nofun⟩
        ⟨fun _ => hw, fun hlen => ?_⟩
      exact absurd (hlen ▸ hp) not_pageOf_zero
    · -- The range has no page, and the one it is rounded to is not mapped.
      refine iff_of_false (fun h => ?_) fun h => ?_
      · obtain ⟨q, hq, -⟩ := h.1.1 rfl
        exact not_pageOf_zero (hlen ▸ hq)
      · obtain h | h | h := h.2 hlen
        · exact hmod h
        · omega
        · exact h hnone
  · unfold ProtectsAtOnce
    rw [heq]
    constructor
    · refine fun h =>
        ⟨fun hlen => ?_, fun hlen => or_iff_not_imp_left.2 fun hmod =>
        or_iff_not_imp_left.2 fun hlow => ?_⟩
      · by_contra hw
        -- The last page of the address space is in the range.
        have hlast : PageOf addr len (2 ^ 52 - 1) :=
          ⟨max addr (2 ^ 64 - 4096), by omega, by omega, by omega⟩
        exact nomatch h.1.2 ⟨_, hlast, pageMap_last hs.within hs.aligned (by decide)⟩
      · exact hall _ ((hround _).2 ⟨by omega, .inr ⟨hlen, hmod, rfl⟩⟩)
    · intro h
      have hrounded : ∀ p, PageOf addr len p → Rounded addr len p := fun p hp =>
        (hround p).2 ⟨h.1 fun hlen => not_pageOf_zero (hlen ▸ hp), .inl hp⟩
      refine ⟨iff_of_false nofun fun ⟨p, hp, hnone⟩ => hall p (hrounded p hp) hnone, nofun,
        fun _ p hp => ?_⟩
      obtain ⟨a, ha⟩ := ne_none_iff_exists'.1 (hall p (hrounded p hp))
      rw [hmap, if_pos (hrounded p hp), ha]
      exact ⟨_, rfl, rfl⟩

/-- What a mapping did to the map, by its answer. -/
def Maps (s : AddressSpace) (len : ℕ) (attr : VmaAttr) : Option ℕ × AddressSpace → Prop
  | (none, s') => s'.pageMap = s.pageMap
  | (some a, s') => ChangesOnly s.pageMap s'.pageMap (PageOf a len) fun _ => some attr

theorem map_iff (hs : s.Ok) {hint : ℕ} {fixed anon : Bool} (hlt : len < 2 ^ 64)
    (hr : fixed → hint ≠ 0 → pageDown hint + len ≤ 2 ^ 64) :
    s.Maps len ⟨prot, anon⟩ (s.map hint len prot fixed anon) ↔
      (fixed → hint ≠ 0 → pageUp len ≠ 0 → s.arenaLow ≤ pageDown hint →
        pageDown hint + pageUp len < 2 ^ 64) := by
  have hmod := pageUp_mod len
  unfold map
  dsimp only
  by_cases hlen : pageUp len = 0
  · rw [if_pos hlen]
    exact iff_of_true rfl fun _ _ h => absurd hlen h
  rw [if_neg hlen]
  by_cases hfix : fixed ∧ hint ≠ 0
  · rw [if_pos hfix]
    have hdown := pageDown_mod hint
    have hr := hr hfix.1 hfix.2
    have hle : len ≤ 2 ^ 64 - 4096 := by
      by_contra h
      exact hlen (pageUp_eq_zero (not_le.1 h) hlt)
    have hup : pageUp len < len + 4096 := by
      rw [pageUp_eq hle]
      unfold pageDown
      omega
    by_cases hlow : pageDown hint < s.arenaLow
    · rw [if_pos (Or.inl hlow)]
      exact iff_of_true rfl fun _ _ _ h => absurd hlow (not_lt.2 h)
    by_cases hsum : pageDown hint + pageUp len < 2 ^ 64
    · refine iff_of_true ?_ fun _ _ _ _ => hsum
      split_ifs
      · rfl
      · rw [unmap_pages hdown hmod hlen hsum, wrap_of_lt hsum]
        refine changesOnly_of_ite (pageMap_replace hs ?_ hdown ?_ hsum) fun p => ?_
        · dsimp only
          omega
        · dsimp only
          omega
        · exact pageOf_pages hdown hlen hlt
    · -- The sum is zero: the area ends before it begins, and the last page is not mapped.
      have htop : pageDown hint + pageUp len = 2 ^ 64 := by omega
      have hzero : wrap (pageDown hint + pageUp len) = 0 := by
        rw [htop]
        decide
      rw [hzero, if_neg (by omega)]
      refine iff_of_false (fun h => ?_) fun h => hsum (h hfix.1 hfix.2 hlen (not_lt.1 hlow))
      have hpage : PageOf (pageDown hint) len (2 ^ 52 - 1) :=
        ⟨2 ^ 64 - 4096, by omega, by omega, by omega⟩
      have hends :
          ((s.unmap (pageDown hint) (pageUp len)).insert ⟨pageDown hint, 0, prot, anon⟩).pageMap
          (2 ^ 52 - 1) = none :=
        pageMap_last
          ((ok_unmap hs _ _).within.place (by dsimp only; omega) (by dsimp only; decide)).join
          ((ok_unmap hs _ _).aligned.place hdown rfl).join (by decide)
      rw [(h _).1 hpage] at hends
      cases hends
  · rw [if_neg hfix]
    refine iff_of_true ?_ fun h1 h2 => absurd ⟨h1, h2⟩ hfix
    rcases hg : s.findGap (pageUp len) with _ | a
    · rfl
    · obtain ⟨h1, h2, h3⟩ := findGap_spec hs hg
      have hhigh := hs.arenaHigh_lt
      dsimp only
      rw [wrap_of_lt (by omega)]
      refine changesOnly_of_ite (pageMap_insert hs (by dsimp only; omega) h3) fun p => ?_
      exact pageOf_pages (by omega) hlen hlt

theorem adopt_does (hs : s.Ok) (hlo : v.lo % 4096 = 0) (hhi : v.hi % 4096 = 0)
    (hlt : v.hi < 2 ^ 64) :
    ChangesOnly s.pageMap (s.adopt v).pageMap (PageOf v.lo (v.hi - v.lo)) fun _ => some v.val := by
  unfold adopt
  split_ifs with h
  · have hzero : v.hi - v.lo = 0 := by omega
    rw [hzero]
    exact fun p => ⟨fun hp => absurd hp not_pageOf_zero, fun _ => rfl⟩
  · have hv := not_le.1 h
    have hsum : v.lo + (v.hi - v.lo) = v.hi := by omega
    rw [size_of_lt hv hlt, unmap_pages hlo (by omega) (by omega) (by omega), hsum]
    refine changesOnly_of_ite (pageMap_replace hs hv hlo hhi hlt) fun p => ?_
    rw [pageOf_iff (by omega), pageDown_of_mod hlo, hsum]
    rfl

/-- The areas refine the page map, for the operations whose rounded end is not past the 64 bits. -/
theorem refines_iff (hs : s.Ok) {op : Op} (hr : op.InRange) : s.Refines op ↔ s.Rounds op := by
  have hdoes : s.Does op ↔ s.Rounds op := by
    cases op with
    | map hint len prot fixed anon =>
      have hz : hint ≠ 0 ↔ hint.toNat ≠ 0 := by
        rw [ne_eq, ← UInt64.toNat_inj]
        rfl
      have hmaps : s.Does (.map hint len prot fixed anon) ↔
          s.Maps len.toNat ⟨prot, anon⟩ (s.map hint.toNat len.toNat prot fixed anon) := by
        unfold Does Maps
        split <;> simp_all
      rw [hmaps]
      cases fixed with
      | false =>
        exact (map_iff hs len.toNat_lt fun h => by cases h).trans
          (iff_of_true (fun h => by cases h) trivial)
      | true =>
        refine (map_iff hs len.toNat_lt fun _ h => hr (hz.2 h)).trans ?_
        rw [forall_prop_of_true rfl, ← hz]
        exact Iff.rfl
    | unmap addr len =>
      have hz : len = 0 ↔ len.toNat = 0 := by
        rw [← UInt64.toNat_inj]
        rfl
      unfold Does Rounds
      dsimp only
      rw [hz]
      exact changesOnly_rounded_iff (f := fun _ => none) hr (pageMap_unmap hs)
        fun _ => pageMap_last hs.within hs.aligned
    | protect addr len prot =>
      have hz : len = 0 ↔ len.toNat = 0 := by
        rw [← UInt64.toNat_inj]
        rfl
      have hprot : s.Does (.protect addr len prot) ↔
          s.Protects addr.toNat len.toNat prot (s.protect addr.toNat len.toNat prot) := by
        unfold Does Protects
        split <;> simp_all
      rw [hprot]
      unfold Rounds
      dsimp only
      rw [hz]
      exact protect_iff hs hr
    | adopt first last prot anon =>
      exact iff_of_true
        (adopt_does (v := ⟨first.val, last.val, prot, anon⟩) hs first.aligned last.aligned last.lt)
        trivial
    | setBrk want =>
      exact iff_of_true (by unfold Does setBrk; dsimp only; split_ifs <;> rfl) trivial
  exact ⟨fun h => hdoes.1 h.does, fun h => ⟨hdoes.2 h, finds_of_ok hs, counts_of_ok hs⟩⟩

end AddressSpace

def onePage : AddressSpace where
  vmas := [⟨0x400000, 0x401000, ⟨true, true, false⟩, true⟩]
  arenaLow := 0x400000
  arenaHigh := 0xa0000000
  brkBase := 0x400000
  brkCur := 0x400000

theorem ok_onePage : onePage.Ok where
  spans := spans_singleton (by decide)
  aligned := fun v hv => by rw [mem_singleton.1 hv]; decide
  within := fun v hv => by rw [mem_singleton.1 hv]; decide
  arenaHigh_lt := by decide
  arenaHigh_mod := by decide

theorem refines_iff_onePage :
    onePage.Refines (.map 0x400800 0x1001 ⟨true, false, true⟩ true false) ↔
      onePage.Rounds (.map 0x400800 0x1001 ⟨true, false, true⟩ true false) :=
  AddressSpace.refines_iff ok_onePage fun _ => by decide

/-- The range reaches to the end of the address space, and the page stays. -/
theorem unmap_to_top_keeps : onePage.Ok ∧ (Op.unmap 0x400000 0xffffffffffc00000).InRange ∧
    ¬onePage.Refines (.unmap 0x400000 0xffffffffffc00000) := by
  refine ⟨ok_onePage, by unfold Op.InRange; decide, fun h => ?_⟩
  have hpage : PageOf 0x400000 0xffffffffffc00000 0x400 :=
    ⟨0x400000, by decide, by decide, by decide⟩
  exact absurd ((h.does 0x400).1 hpage) (by decide)

/-- Two areas of two pages, which meet. -/
def twoAreas : AddressSpace :=
  { onePage with
    vmas := [⟨0x400000, 0x402000, ⟨true, true, false⟩, true⟩,
      ⟨0x402000, 0x404000, ⟨true, false, true⟩, false⟩] }

theorem ok_twoAreas : twoAreas.Ok where
  spans := ⟨by decide, by decide⟩
  aligned := fun v hv => by revert v; decide
  within := fun v hv => by revert v; decide
  arenaHigh_lt := by decide
  arenaHigh_mod := by decide

/-- The range takes the second page of the one area and a part of the first page of the other. -/
theorem protects_at_once_twoAreas : twoAreas.ProtectsAtOnce 0x401000 0x1001 ⟨true, false, false⟩ :=
  (AddressSpace.protects_at_once_iff ok_twoAreas (by decide) _).2 ⟨fun _ => by decide, nofun⟩

/-- The last page of the address space is not mapped, and the protection is granted. -/
theorem protect_top_granted :
    onePage.Ok ∧ ¬onePage.ProtectsAtOnce 0xfffffffffffff000 1 ⟨true, true, false⟩ := by
  refine ⟨ok_onePage, fun h => ?_⟩
  have hpage : PageOf 0xfffffffffffff000 1 0xfffffffffffff :=
    ⟨0xfffffffffffff000, by decide, by decide, by decide⟩
  exact absurd (h.1.2 ⟨_, hpage, by decide⟩) (by decide)

end Linuxity.Mem

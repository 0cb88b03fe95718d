import Linuxity.Hvf.Load

/-!
# Hvf.Tables — the page tables of the macOS backend (`build_page_tables`, `GuestRam::permits`)

The tables are built once, as an identity map of guest RAM in three levels.  Whether a supervisor
call may touch a guest address is decided without them, by arithmetic on the layout.
-/

namespace Linuxity.Hvf

open Logic Mem Loader List

def page : ℕ := 0x1000

def l1Table : ℕ := 0x1000

def l2Tables : ℕ := 0x2000

def kTable : ℕ := 3

def kPage : ℕ := 3

def kAf : ℕ := 1 <<< 10

def kSh : ℕ := 3 <<< 8

/-- The entry of a page: with `AP[1]` the guest may use it. -/
def pageEntry (ram pa : ℕ) : ℕ :=
  let ap := if pa < privEnd ram ∧ ¬(hasNonpieWindow ram ∧ isNonpieWindow pa) then 0 else 1
  pa ||| kAf ||| kSh ||| (ap <<< 6) ||| kPage

def buildBlock (ram base l3 : ℕ) (mem : Memory) : Memory :=
  let mem :=
    putWord mem (l2Tables + base / gib * page + (base >>> 21 &&& 0x1ff) * 8) (l3 ||| kTable)
  (List.range (block / page)).foldl (fun mem i =>
      putWord mem (l3 + ((i * page) >>> 12) * 8) (pageEntry ram (base + i * page))) mem

variable (mem : Memory) (ram : ℕ)

def buildL1 : Memory :=
  (List.range (nL2 ram)).foldl (fun mem g =>
      putWord mem (l1Table + g * 8) ((l2Tables + g * page) ||| kTable)) mem

def buildBlocks (ram : ℕ) : ℕ → ℕ → ℕ → Memory → Memory
  | 0, _, _, mem => mem
  | n + 1, base, l3, mem =>
    buildBlocks ram n (base + block) (l3 + page) (buildBlock ram base l3 mem)

def buildPageTables : Memory :=
  buildBlocks ram ((ram + block - 1) / block) 0 (l3Tables ram) (buildL1 mem ram)

/-! ## The walk of the hardware: 39 bits of address, pages of 4 KiB -/

def next (e : ℕ) : Option ℕ := if e % 4 = 3 then some (e % 2 ^ 48 / 4096 * 4096) else none

def walk (va : ℕ) : Option ℕ :=
  (next (word mem (l1Table + va / 2 ^ 30 % 512 * 8))).bind fun l2 =>
    (next (word mem (l2 + va / 2 ^ 21 % 512 * 8))).bind fun l3 =>
      let e := word mem (l3 + va / 2 ^ 12 % 512 * 8)
      (next e).map fun _ => e

/-- Code of the guest may access the address: `AP[1]`, and the access flag. -/
def el0 (va : ℕ) : Bool :=
  match walk mem va with
  | some e => e / 2 ^ 6 % 2 == 1 && e / 2 ^ 10 % 2 == 1
  | none => false

/-! ## What is stored -/

def l1Words : List (ℕ × ℕ) :=
  (List.range (nL2 ram)).map fun g => (l1Table + g * 8, (l2Tables + g * page) ||| kTable)

def blockWords (ram k : ℕ) : List (ℕ × ℕ) :=
  (l2Tables + k * block / gib * page + ((k * block) >>> 21 &&& 0x1ff) * 8,
      (l3Tables ram + k * page) ||| kTable) :: (List.range (block / page)).map fun i =>
      (l3Tables ram + k * page + ((i * page) >>> 12) * 8, pageEntry ram (k * block + i * page))

def tableWords : List (ℕ × ℕ) :=
  l1Words ram ++ (List.range ((ram + block - 1) / block)).flatMap (blockWords ram)

theorem buildBlock_eq (ram k : ℕ) (mem : Memory) :
    buildBlock ram (k * block) (l3Tables ram + k * page) mem = putWords mem (blockWords ram k) := by
  rw [buildBlock, blockWords, putWords, foldl_cons, foldl_map]

theorem buildBlocks_eq (ram n k : ℕ) (mem : Memory) :
    buildBlocks ram n (k * block) (l3Tables ram + k * page) mem =
      putWords mem ((List.range' k n).flatMap (blockWords ram)) := by
  induction n generalizing k mem with
  | zero => rw [buildBlocks, List.range'_zero, flatMap_nil, putWords, foldl_nil]
  | succ n ih =>
    rw [buildBlocks, buildBlock_eq, ← Nat.succ_mul, Nat.add_assoc, ← Nat.succ_mul, ih,
      List.range'_succ, flatMap_cons, putWords_append]

theorem buildL1_eq : buildL1 mem ram = putWords mem (l1Words ram) := by
  rw [buildL1, putWords, l1Words, foldl_map]

theorem buildPageTables_eq : buildPageTables mem ram = putWords mem (tableWords ram) := by
  have hblocks := buildBlocks_eq ram ((ram + block - 1) / block) 0 (buildL1 mem ram)
  rw [Nat.zero_mul, Nat.zero_mul, Nat.add_zero, ← range_eq_range'] at hblocks
  rw [buildPageTables, tableWords, putWords_append, ← buildL1_eq, hblocks]

/-! ## Where it is stored -/

section Places

variable {ram : ℕ} {mem : Memory}

theorem l3Tables_ge (ram : ℕ) :
    0x4000 + nL2 ram * 0x1000 ≤ l3Tables ram ∧ l3Tables ram % 4096 = 0 := by
  have hwin : nonpieBase + nonpieSize = 0x8000000 := rfl
  rw [l3Tables, hwin]
  split_ifs <;> omega

theorem pageEntry_eq {pa : ℕ} (h : pa % 4096 = 0) :
    pageEntry ram pa = pa +
      (0x703 + if pa < privEnd ram ∧ ¬(hasNonpieWindow ram ∧ isNonpieWindow pa) then 0
        else 64) := by
  rw [pageEntry, Nat.or_assoc, Nat.or_assoc, Nat.or_assoc]
  split_ifs
  · exact or_low h (by decide)
  · exact or_low h (by decide)

theorem mem_tableWords {w : ℕ × ℕ} :
    w ∈ tableWords ram ↔ (∃ g < nL2 ram, w = (0x1000 + g * 8, 0x2003 + g * 4096)) ∨
      ∃ k < (ram + block - 1) / block, w = (0x2000 + k * 8, l3Tables ram + k * 4096 + 3) ∨
      ∃ i < 512, w = (l3Tables ram + k * 4096 + i * 8,
      pageEntry ram (k * 0x200000 + i * 4096)) := by
  have hl3 := (l3Tables_ge ram).2
  have hgib : gib = 0x40000000 := rfl
  have hblock : block = 0x200000 := rfl
  have hpage : page = 4096 := rfl
  have hl2 : ∀ k, l2Tables + k * block / gib * page + ((k * block) >>> 21 &&& 0x1ff) * 8 =
      0x2000 + k * 8 := by
    intro k
    rw [show (0x1ff : ℕ) = 2 ^ 9 - 1 from rfl, Nat.and_two_pow_sub_one_eq_mod,
      Nat.shiftRight_eq_div_pow, hgib, hblock, hpage, show l2Tables = 0x2000 from rfl]
    omega
  have hi : ∀ i, (i * page) >>> 12 * 8 = i * 8 := by
    intro i
    rw [Nat.shiftRight_eq_div_pow, hpage]
    omega
  rw [tableWords, mem_append, l1Words, mem_map, mem_flatMap]
  refine or_congr ?_ ?_
  · refine exists_congr fun g => ?_
    rw [mem_range, hpage, or_low (by rw [show l2Tables = 0x2000 from rfl]; omega) (by decide),
      eq_comm]
    rw [show l2Tables + g * 4096 + kTable =
      0x2003 + g * 4096 by rw [show l2Tables = 0x2000 from rfl, show kTable = 3 from rfl]; omega]
    rfl
  · refine exists_congr fun k => ?_
    rw [mem_range, blockWords, mem_cons, mem_map, hl2, hpage, or_low (by omega) (by decide),
      ← hpage]
    refine and_congr_right fun _ => or_congr Iff.rfl (exists_congr fun i => ?_)
    rw [mem_range, hi, eq_comm]
    rfl

theorem nL2_le (hram : ram ≤ 2 ^ 36) : nL2 ram ≤ 64 := by
  rw [nL2, show gib = 0x40000000 from rfl]
  omega

theorem blocks_le (ram : ℕ) : (ram + block - 1) / block ≤ 512 * nL2 ram := by
  rw [nL2, show gib = 0x40000000 from rfl, show block = 0x200000 from rfl]
  omega

theorem l3Tables_lt (hram : ram ≤ 2 ^ 36) : l3Tables ram < 2 ^ 40 := by
  have hn2 := nL2_le hram
  have hwin : nonpieBase + nonpieSize = 0x8000000 := rfl
  rw [l3Tables, hwin]
  split_ifs <;> omega

theorem word_tables {p v : ℕ} (hram : ram ≤ 2 ^ 36) (h : (p, v) ∈ tableWords ram) :
    word (buildPageTables mem ram) p = v := by
  have hl3 := l3Tables_ge ram
  have hlow : l3Tables ram < 2 ^ 40 := l3Tables_lt hram
  have hn2 : nL2 ram ≤ 64 := nL2_le hram
  have hblocks := blocks_le ram
  rw [buildPageTables_eq]
  refine word_putWords (fun w hw => ?_) h fun u hu => ?_
  · obtain ⟨g, hg, rfl⟩ | ⟨k, hk, rfl | ⟨i, hi, rfl⟩⟩ := mem_tableWords.1 hw
    · omega
    · omega
    · have hlt : pageEntry ram (k * 0x200000 + i * 4096) < 2 ^ 64 := by
        rw [pageEntry_eq (by omega)]
        split_ifs <;> omega
      exact ⟨by dsimp only; omega, hlt⟩
  · obtain ⟨g, hg, heq⟩ | ⟨k, hk, heq | ⟨i, hi, heq⟩⟩ := mem_tableWords.1 h <;>
      obtain ⟨g', hg', heq'⟩ | ⟨k', hk', heq' | ⟨i', hi', heq'⟩⟩ := mem_tableWords.1 hu <;>
      obtain ⟨hp, hv⟩ := Prod.mk.inj heq <;> obtain ⟨hp', hu⟩ := Prod.mk.inj heq'
    all_goals try omega
    -- both are entries of pages
    obtain rfl : k = k' := by omega
    obtain rfl : i = i' := by omega
    exact hu.trans hv.symm

theorem walk_l2 {va : ℕ} (hram : ram ≤ 2 ^ 36) (hg : va / 2 ^ 30 < nL2 ram) :
    walk (buildPageTables mem ram) va =
      (next (word (buildPageTables mem ram) (0x2000 + va / 2 ^ 21 * 8))).bind fun l3 =>
      (next (word (buildPageTables mem ram) (l3 + va / 2 ^ 12 % 512 * 8))).map fun _ =>
      word (buildPageTables mem ram) (l3 + va / 2 ^ 12 % 512 * 8) := by
  have hn2 := nL2_le hram
  have h1 : word (buildPageTables mem ram) (l1Table + va / 2 ^ 30 % 512 * 8) =
      0x2003 + va / 2 ^ 30 * 4096 := by
    refine word_tables hram (mem_tableWords.2 (.inl ⟨va / 2 ^ 30, hg, ?_⟩))
    rw [show l1Table = 0x1000 from rfl, Nat.mod_eq_of_lt (by omega)]
  have hnext1 : next (0x2003 + va / 2 ^ 30 * 4096) = some (0x2000 + va / 2 ^ 30 * 4096) := by
    rw [next, if_pos (by omega)]
    exact congrArg some (by omega)
  rw [walk, h1, hnext1, Option.bind_some,
    show 0x2000 + va / 2 ^ 30 * 4096 + va / 2 ^ 21 % 512 * 8 = 0x2000 + va / 2 ^ 21 * 8 by omega]

/-- The walk of an address in RAM ends at the entry of its page. -/
theorem walk_tables {va : ℕ} (hram : ram ≤ 2 ^ 36) (hva : va < ram) :
    walk (buildPageTables mem ram) va = some (pageEntry ram (va / 4096 * 4096)) := by
  have hl3 := l3Tables_ge ram
  have hlow : l3Tables ram < 2 ^ 40 := l3Tables_lt hram
  have hg : va / 2 ^ 30 < nL2 ram := by
    rw [nL2, show gib = 0x40000000 from rfl]
    omega
  have hk : va / 2 ^ 21 < (ram + block - 1) / block := by
    rw [show block = 0x200000 from rfl]
    omega
  have h2 : word (buildPageTables mem ram) (0x2000 + va / 2 ^ 21 * 8) =
      l3Tables ram + va / 2 ^ 21 * 4096 + 3 :=
    word_tables hram (mem_tableWords.2 (.inr ⟨va / 2 ^ 21, hk, .inl rfl⟩))
  have h3 : word (buildPageTables mem ram)
      (l3Tables ram + va / 2 ^ 21 * 4096 + va / 2 ^ 12 % 512 * 8) =
      pageEntry ram (va / 4096 * 4096) := by
    refine word_tables hram
      (mem_tableWords.2 (.inr ⟨va / 2 ^ 21, hk, .inr ⟨va / 2 ^ 12 % 512, by omega, ?_⟩⟩))
    rw [show va / 2 ^ 21 * 0x200000 + va / 2 ^ 12 % 512 * 4096 = va / 4096 * 4096 by omega]
  have hnext2 :
      next (l3Tables ram + va / 2 ^ 21 * 4096 + 3) = some (l3Tables ram + va / 2 ^ 21 * 4096) := by
    rw [next, if_pos (by omega)]
    exact congrArg some (by omega)
  have hvalid : pageEntry ram (va / 4096 * 4096) % 4 = 3 := by
    rw [pageEntry_eq (Nat.mul_mod_left _ _)]
    split_ifs <;> omega
  rw [walk_l2 hram hg, h2, hnext2, Option.bind_some, h3, next, if_pos hvalid, Option.map_some]

theorem word_zero {p : ℕ} (hz : ∀ x, p ≤ x → x < p + 8 → mem x = 0) : word mem p = 0 := by
  rw [← word_zeroed (m := mem) (n := 8) le_rfl le_rfl]
  refine word_congr fun x h1 h2 => ?_
  rw [hz x h1 h2, zeroed, if_pos ⟨h1, h2⟩]

theorem walk_past {va : ℕ} (hram : ram ≤ 2 ^ 36) (hblk : ram % 0x200000 = 0) (hva : ram ≤ va)
    (hlt : va < 2 ^ 39) (hz : ∀ x, 0x1000 ≤ x → x < 0x2000 + nL2 ram * 0x1000 → mem x = 0) :
    walk (buildPageTables mem ram) va = none := by
  have hl3 := l3Tables_ge ram
  have hn2 := nL2_le hram
  have hnone : next 0 = none := rfl
  by_cases hg : va / 2 ^ 30 < nL2 ram
  · have h2 : word (buildPageTables mem ram) (0x2000 + va / 2 ^ 21 * 8) = 0 := by
      rw [buildPageTables_eq, word_putWords_of_apart,
        word_zero fun x h1 h2 => hz x (by omega) (by omega)]
      intro w hw
      obtain ⟨g, hg', rfl⟩ | ⟨k, hk, rfl | ⟨i, hi, rfl⟩⟩ := mem_tableWords.1 hw
      · dsimp only
        omega
      · rw [show block = 0x200000 from rfl] at hk
        dsimp only
        omega
      · dsimp only
        omega
    rw [walk_l2 hram hg, h2, hnone, Option.bind_none]
  · have h1 : word (buildPageTables mem ram) (l1Table + va / 2 ^ 30 % 512 * 8) = 0 := by
      rw [show l1Table = 0x1000 from rfl, buildPageTables_eq, word_putWords_of_apart,
        word_zero fun x h1 h2 => hz x (by omega) (by omega)]
      intro w hw
      obtain ⟨g, hg', rfl⟩ | ⟨k, hk, rfl | ⟨i, hi, rfl⟩⟩ := mem_tableWords.1 hw
      · dsimp only
        omega
      · dsimp only
        omega
      · dsimp only
        omega
    rw [walk, h1, hnone, Option.bind_none]

theorem privEnd_mod (ram : ℕ) : privEnd ram % 0x200000 = 0 := by
  rw [privEnd, show block = 0x200000 from rfl]
  exact Nat.mul_mod_left _ _

/-- The guest may access what is not private. -/
theorem el0_tables {vm : Machine} {mem : Memory} {va : ℕ} (hram : vm.size ≤ 2 ^ 36)
    (hva : va < vm.size) : el0 (buildPageTables mem vm.size) va ↔ ¬vm.Private va := by
  have hmod := privEnd_mod vm.size
  have hwindow : ∀ a, isNonpieWindow a ↔ 0x400000 ≤ a ∧ a < 0x8000000 := by
    intro a
    rw [isNonpieWindow, Bool.and_eq_true, decide_eq_true_eq, decide_eq_true_eq]
    rfl
  have hpage : (va / 4096 * 4096 < privEnd vm.size ∧
      ¬(hasNonpieWindow vm.size ∧ isNonpieWindow (va / 4096 * 4096))) ↔ vm.Private va := by
    rw [Machine.Private, hwindow, hwindow]
    refine and_congr (by omega) (not_congr (and_congr_right fun _ => ?_))
    omega
  rw [el0, walk_tables hram hva]
  rw [pageEntry_eq (Nat.mul_mod_left _ _), Bool.and_eq_true, beq_iff_eq, beq_iff_eq]
  by_cases hp : vm.Private va
  · rw [if_pos (hpage.2 hp)]
    refine ⟨fun h => absurd h.1 (by omega), fun h => absurd hp h⟩
  · rw [if_neg fun h => hp (hpage.1 h)]
    exact ⟨fun _ => hp, fun _ => by omega⟩

/-- The page that the walk ends at, and the place in it; the hardware takes 39 bits of an
address. -/
def translate (mem : Memory) (va : ℕ) : Option ℕ :=
  if va < 2 ^ 39 then (walk mem va).map fun e => e % 2 ^ 48 / 4096 * 4096 + va % 4096 else none

/-- The vectors, the tables of the three levels and the table of fast calls. -/
def areas (ram : ℕ) : List (ℕ × ℕ) :=
  [(0, l1Table), (l1Table, l2Tables), (l2Tables, l2Tables + nL2 ram * page),
    (l2Tables + nL2 ram * page, l2Tables + nL2 ram * page + 512 * 16),
    (l3Tables ram, l3Tables ram + ram / block * page)]

/-- The tables of guest RAM that was all zero where they are. -/
structure IdentityMap (mem : Memory) (ram : ℕ) : Prop where
  translates : ∀ va, translate (buildPageTables mem ram) va = if va < ram then some va else none
  apart : (areas ram).Pairwise fun a b => a.2 ≤ b.1 ∨ b.2 ≤ a.1
  inside : ∀ a ∈ areas ram, a.2 ≤ ram
  el0 : ∀ va, va < ram →
    (el0 (buildPageTables mem ram) va = false ↔ (⟨ram, mem⟩ : Machine).Private va)

theorem areas_spec (hblk : ram % 0x200000 = 0) (hpos : 0 < ram) :
    (areas ram).Pairwise (fun a b => a.2 ≤ b.1 ∨ b.2 ≤ a.1) ∧ ∀ a ∈ areas ram, a.2 ≤ ram := by
  have hl3 := l3Tables_ge ram
  have hend : l3Tables ram + ram / block * page ≤ ram := by
    rw [l3Tables, nL2, show nonpieBase + nonpieSize = 0x8000000 from rfl,
      show gib = 0x40000000 from rfl, show block = 0x200000 from rfl, show page = 0x1000 from rfl]
    split_ifs <;> omega
  simp only [areas, show l1Table = 0x1000 from rfl, show l2Tables = 0x2000 from rfl,
    show page = 0x1000 from rfl] at hend ⊢
  constructor
  · simp only [pairwise_cons, forall_mem_cons, not_mem_nil, false_imp_iff, forall_true_iff,
      Pairwise.nil, and_true]
    omega
  · simp only [forall_mem_cons, not_mem_nil, false_imp_iff, forall_true_iff, and_true]
    omega

/-- **The identity map.** -/
theorem page_tables_identity (mem : Memory) (ram : ℕ) (hblk : ram % 0x200000 = 0) (hpos : 0 < ram)
    (hram : ram ≤ 2 ^ 36) (hz : ∀ x, 0x1000 ≤ x → x < 0x2000 + nL2 ram * 0x1000 → mem x = 0) :
    IdentityMap mem ram := by
  refine ⟨fun va => ?_, (areas_spec hblk hpos).1, (areas_spec hblk hpos).2, fun va hva => ?_⟩
  · unfold translate
    by_cases hva : va < ram
    · rw [if_pos (by omega), if_pos hva, walk_tables hram hva, pageEntry_eq (Nat.mul_mod_left _ _),
        Option.map_some]
      congr 1
      split_ifs <;> omega
    · rw [if_neg hva]
      split_ifs with hlt
      · rw [walk_past hram hblk (by omega) hlt hz, Option.map_none]
      · rfl
  · rw [← Bool.not_eq_true, @el0_tables ⟨ram, mem⟩ mem va hram hva, not_not]

theorem page_tables_identity_small : IdentityMap (fun _ => 0) 0x200000 :=
  page_tables_identity (fun _ => 0) 0x200000 (by decide) (by decide) (by decide) fun _ _ _ => rfl

end Places

namespace Machine

/-- The private area begins before what is above the window, and there is some. -/
theorem holeEnd_lt_privEnd {vm : Machine} (h : vm.Sized) : vm.holeEnd < privEnd vm.size := by
  obtain ⟨size, m⟩ := vm
  obtain ⟨hmod, hpos, -⟩ := h
  rw [show block = 0x200000 from rfl] at hmod
  dsimp only at hmod hpos
  dsimp only [holeEnd]
  rw [privEnd, show block = 0x200000 from rfl, show nonpieBase + nonpieSize = 0x8000000 from rfl]
  split_ifs with hwin
  · rw [hasNonpieWindow, decide_eq_true_eq,
      show nonpieBase + nonpieSize = 0x8000000 from rfl] at hwin
    omega
  · omega

theorem guest_bytes_iff {size gpa n : ℕ} {m : Memory} (hsize : (⟨size, m⟩ : Machine).Sized)
    (hn : 0 < n) :
    (∀ a, gpa ≤ a → a < gpa + n → a < size ∧ ¬(⟨size, m⟩ : Machine).Private a) ↔
      gpa + n ≤ size ∧
      (privEnd size ≤ gpa ∨ (⟨size, m⟩ : Machine).holeBeg ≤ gpa ∧
        gpa + n ≤ (⟨size, m⟩ : Machine).holeEnd) := by
  have hhole := holeEnd_lt_privEnd hsize
  simp only [private_iff]
  obtain ⟨hwin, hb, he, hpe⟩ | ⟨hwin, hb, he⟩ := @hole_cases m size
  · rw [he] at hhole
    rw [hb, he]
    simp only [hwin, true_and]
    constructor
    · intro h
      have hfirst := h gpa le_rfl (by omega)
      have hlast := h (gpa + n - 1) (by omega) (by omega)
      dsimp only at hhole
      refine ⟨by omega, ?_⟩
      by_contra hout
      -- the first byte after the window is one of them, and private
      have hedge := h 0x8000000 (by omega) (by omega)
      omega
    · rintro ⟨hin, h⟩ a h1 h2
      omega
  · rw [hb, he]
    simp only [hwin, Bool.false_eq_true, false_and, not_false_eq_true, and_true]
    constructor
    · intro h
      have hfirst := h gpa le_rfl (by omega)
      have hlast := h (gpa + n - 1) (by omega) (by omega)
      omega
    · rintro ⟨hin, h⟩ a h1 h2
      omega

/-- **The check agrees with the tables exactly where its subtraction does not wrap.** -/
theorem permits_exact_iff (vm : Machine) (hsize : vm.Sized) (mem : Memory) (gpa n : ℕ)
    (hn : 0 < n) :
    (vm.permits gpa n = true ↔ ∀ a, gpa ≤ a → a < gpa + n →
        a < vm.size ∧ el0 (buildPageTables mem vm.size) a = true) ↔
      ¬(vm.holeEnd < gpa ∧ gpa < privEnd vm.size ∧ gpa + n ≤ vm.size) := by
  have hmap : (∀ a, gpa ≤ a → a < gpa + n → a < vm.size ∧ el0 (buildPageTables mem vm.size) a) ↔
      ∀ a, gpa ≤ a → a < gpa + n → a < vm.size ∧ ¬vm.Private a :=
    forall_congr' fun a => forall_congr' fun _ => forall_congr' fun _ =>
      and_congr_right fun h => el0_tables hsize.2.2 h
  have hspan : vm.permits gpa n ↔ vm.hasSpan gpa n := by
    rw [hasSpan, Bool.and_eq_true, bne_iff_ne]
    exact ⟨fun h => ⟨h, by omega⟩, And.left⟩
  have hhole := holeEnd_lt_privEnd hsize
  have hlarge := hsize.2.2
  have hbeg : vm.holeBeg ≤ vm.holeEnd ∧ vm.holeEnd ≤ 0x8000000 := by
    rw [holeBeg, holeEnd]
    split_ifs <;> decide
  rw [hmap, hspan, hasSpan_iff]
  obtain ⟨size, m⟩ := vm
  rw [guest_bytes_iff hsize hn]
  generalize (⟨size, m⟩ : Machine).holeEnd = hi at *
  dsimp only at hhole hlarge ⊢
  rw [wrap]
  by_cases hwrap : hi < gpa ∧ gpa < privEnd size ∧ gpa + n ≤ size
  · refine iff_of_false (fun h => ?_) (fun h => h hwrap)
    omega
  · refine iff_of_true ?_ hwrap
    constructor
    · rintro ⟨h1, h2, -, h3⟩
      omega
    · rintro ⟨h1, h2⟩
      omega

theorem permits_exact_nonpiePage :
    (⟨0x80000000, fun _ => 0⟩ : Machine).permits 0x400000 4096 = true ↔
      ∀ a, 0x400000 ≤ a → a < 0x400000 + 4096 →
      a < 0x80000000 ∧ el0 (buildPageTables (fun _ => 0) 0x80000000) a = true :=
  (permits_exact_iff ⟨0x80000000, fun _ => 0⟩ (by unfold Sized; decide) (fun _ => 0) 0x400000 4096
      (by decide)).2 (by decide)

/-- The second page of the tables of a machine with 2 GiB. -/
theorem permits_private_page :
    (⟨0x80000000, fun _ => 0⟩ : Machine).permits 0x8001000 8 = true ∧
      el0 (buildPageTables (fun _ => 0) (⟨0x80000000, fun _ => 0⟩ : Machine).size) 0x8001000 =
        false := by
  refine ⟨by decide, ?_⟩
  rw [← Bool.not_eq_true, el0_tables (by decide) (by decide), not_not, private_iff]
  decide

end Machine

end Linuxity.Hvf

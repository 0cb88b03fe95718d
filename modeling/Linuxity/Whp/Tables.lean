import Linuxity.Logic.Trie
import Linuxity.Whp.Machine

/-!
# Whp.Tables — the page tables as a map from pages to entries

The four levels of tables are a tree in guest RAM.  As long as the tree is `Ok`, mapping a page
changes the entry of that page and no other, and nothing in RAM but the tables.
-/

namespace Linuxity.Whp

open Logic Mem List Option

/-! ## The bits of an entry -/

/-- The address field. -/
def addr (e : ℕ) : ℕ := e % 2 ^ 52 / 4096 * 4096

theorem and_bit (e i : ℕ) : e &&& (1 <<< i) ≠ 0 ↔ e / 2 ^ i % 2 = 1 := by
  rw [Nat.one_shiftLeft, Nat.and_two_pow, Nat.testBit_eq_decide_div_mod_eq]
  by_cases h : e / 2 ^ i % 2 = 1
  · simp [h]
  · simp [h]

theorem present_iff (e : ℕ) : e &&& kPtePresent ≠ 0 ↔ e % 2 = 1 := by
  rw [kPtePresent, and_bit, pow_zero, Nat.div_one]

theorem and_addrMask (e : ℕ) : e &&& kPteAddrMask = addr e := by
  refine Nat.eq_of_testBit_eq fun i => ?_
  have hmask : kPteAddrMask = (2 ^ 40 - 1) <<< 12 := by decide
  rw [addr, show (4096 : ℕ) = 2 ^ 12 from rfl, ← Nat.shiftRight_eq_div_pow, ← Nat.shiftLeft_eq,
    Nat.testBit_and, hmask, Nat.testBit_shiftLeft, Nat.testBit_shiftLeft,
    Nat.testBit_two_pow_sub_one, Nat.testBit_shiftRight, Nat.testBit_mod_two_pow]
  by_cases h : 12 ≤ i
  · rw [show 12 + (i - 12) = i by omega, decide_eq_true h, Bool.true_and, Bool.true_and,
      Bool.and_comm]
    congr 1
    exact decide_eq_decide.2 (by omega)
  · rw [decide_eq_false h, Bool.false_and, Bool.false_and, Bool.and_false]

theorem link_eq {f : ℕ} (hf : f % 4096 = 0) :
    f ||| kPtePresent ||| kPteWrite ||| kPteUser = f + 7 := by
  rw [Nat.or_assoc, Nat.or_assoc]
  exact or_low hf (by decide)

theorem addr_link {f : ℕ} (hf : f % 4096 = 0) (hlt : f < 2 ^ 52) : addr (f + 7) = f := by
  rw [addr]
  omega

theorem addr_mod (e : ℕ) : addr e % 4096 = 0 := Nat.mul_mod_left _ _

theorem leafEntry_eq {gpa : ℕ} (hg : gpa % 4096 = 0) (hlt : gpa < 2 ^ 52)
    (writable executable : Bool) :
    Machine.leafEntry gpa writable executable =
      gpa + 5 + (if writable then 2 else 0) + (if executable then 0 else 2 ^ 63) := by
  have hmask : gpa &&& kPteAddrMask = gpa := by
    rw [and_addrMask, addr]
    omega
  have hlow : gpa ||| kPtePresent ||| kPteUser ||| (if writable then kPteWrite else 0) =
      gpa + 5 + (if writable then 2 else 0) := by
    rw [Nat.or_assoc, Nat.or_assoc, or_low hg (by cases writable <;> decide)]
    cases writable <;> rfl
  have hlt' : gpa + 5 + (if writable then 2 else 0) < 2 ^ 63 := by
    split_ifs <;> omega
  rw [Machine.leafEntry, hmask, hlow]
  cases executable with
  | true => exact Nat.or_zero _
  | false =>
    have := Nat.two_pow_add_eq_or_of_lt hlt' 1
    rw [Nat.or_comm] at this
    rw [if_neg Bool.false_ne_true, if_neg Bool.false_ne_true, kPteNx, Nat.one_shiftLeft]
    rw [Nat.mul_one] at this
    omega

/-! ## The tree -/

def entryAt (m : Memory) (t : ℕ) (i : Fin 512) : ℕ := word m (t + i * 8)

def child (m : Memory) (t : ℕ) (i : Fin 512) : Option ℕ :=
  if entryAt m t i % 2 = 1 then some (addr (entryAt m t i)) else none

/-- The index of an address in a table of the level with this shift. -/
def index (gva shift : ℕ) : Fin 512 := ⟨gva / 2 ^ shift % 512, Nat.mod_lt _ (by decide)⟩

/-- The way to the last table of an address. -/
def path (gva : ℕ) : List (Fin 512) := [index gva 39, index gva 30, index gva 21]

@[simp] theorem length_path (gva : ℕ) : (path gva).length = 3 := rfl

/-- The number of the page in the 48-bit space. -/
def pageNo (gva : ℕ) : ℕ := gva / 4096 % 2 ^ 36

theorem pageNo_eq_iff (g h : ℕ) :
    pageNo g = pageNo h ↔ path g = path h ∧ index g 12 = index h 12 := by
  simp only [path, List.cons.injEq, and_true, index, Fin.mk.injEq, pageNo]
  constructor
  · intro hp
    refine ⟨⟨?_, ?_, ?_⟩, ?_⟩ <;> omega
  · rintro ⟨⟨h1, h2, h3⟩, h4⟩
    omega

namespace Machine

/-- Where the next table will end. -/
def top (vm : Machine) : ℕ := if vm.next = 0 then vm.bytes else vm.next

/-- The entry that maps the page of an address. -/
def leafAt (vm : Machine) (gva : ℕ) : Option ℕ :=
  (reach (child vm.ram) 0 (path gva)).bind fun t =>
    if entryAt vm.ram t (index gva 12) % 2 = 1 then some (entryAt vm.ram t (index gva 12)) else none

structure Ok (vm : Machine) : Prop where
  aligned : vm.bytes % 4096 = 0
  large : kGuestFloor < vm.bytes
  small : vm.bytes ≤ 2 ^ 47
  next : vm.next = 0 ∨ vm.tableArenaBase ≤ vm.next ∧ vm.next ≤ vm.bytes ∧ vm.next % 4096 = 0
  frame : ∀ p t, p ≠ [] → p.length ≤ 3 → reach (child vm.ram) 0 p = some t →
    vm.top ≤ t ∧ t + 4096 ≤ vm.bytes
  apart : Apart (child vm.ram) 0 3
  link : ∀ p t i, p.length ≤ 2 → reach (child vm.ram) 0 p = some t → entryAt vm.ram t i % 2 = 1 →
    entryAt vm.ram t i % 4096 = 7 ∧ entryAt vm.ram t i < 2 ^ 52

/-- The bytes that hold tables, or may come to. -/
def TableByte (vm : Machine) (b : ℕ) : Prop := b < 4096 ∨ vm.tableArenaBase ≤ b

/-- The tables have grown: no page is mapped otherwise than before, and no other byte has
changed. -/
structure Grown (vm vm' : Machine) : Prop where
  ok : vm'.Ok
  bytes : vm'.bytes = vm.bytes
  leaf : ∀ g, vm'.leafAt g = vm.leafAt g
  frame : ∀ b, ¬vm.TableByte b → vm'.ram b = vm.ram b

section Ok

variable {vm vm' vm'' : Machine} {p : List (Fin 512)} {t f : ℕ} {i : Fin 512}

theorem Ok.arena (hv : vm.Ok) :
    vm.tableArenaBase = vm.bytes - 0x200000 ∧ 4096 ≤ vm.tableArenaBase := by
  have h1 := hv.large
  have h2 := hv.aligned
  have hsize : kTableArenaSize = 0x200000 := rfl
  rw [kGuestFloor] at h1
  rw [tableArenaBase, hsize, if_pos h1]
  omega

theorem Ok.top_spec (hv : vm.Ok) :
    vm.tableArenaBase ≤ vm.top ∧ vm.top ≤ vm.bytes ∧ vm.top % 4096 = 0 := by
  have h1 := hv.arena
  have h2 := hv.aligned
  rw [top]
  split_ifs with h
  · omega
  · exact hv.next.resolve_left h

theorem reach_mod (hp : p ≠ []) (ht : reach (child vm.ram) 0 p = some t) : t % 4096 = 0 := by
  obtain ⟨q, i, rfl⟩ := (eq_nil_or_concat p).resolve_left hp
  rw [concat_eq_append, reach_snoc] at ht
  obtain ⟨s, _, hs⟩ := bind_eq_some_iff.1 ht
  rw [child] at hs
  split_ifs at hs
  cases hs
  exact addr_mod _

theorem Ok.node (hv : vm.Ok) (hp : p.length ≤ 3) (ht : reach (child vm.ram) 0 p = some t) :
    t % 4096 = 0 ∧ (t = 0 ∨ vm.top ≤ t) ∧ t + 4096 ≤ vm.bytes := by
  by_cases h0 : p = []
  · subst h0
    cases ht
    have := hv.large
    rw [kGuestFloor] at this
    omega
  · exact ⟨reach_mod h0 ht, .inr (hv.frame p t h0 hp ht).1, (hv.frame p t h0 hp ht).2⟩

theorem Ok.inRam_entry (hv : vm.Ok) (hp : p.length ≤ 3) (ht : reach (child vm.ram) 0 p = some t)
    (i : Fin 512) : vm.inRam (t + i * 8) 8 := by
  have := hv.node hp ht
  rw [inRam, Bool.and_eq_true, decide_eq_true_eq, decide_eq_true_eq]
  omega

section Congr

variable {m : Memory}

theorem Ok.entry_congr (hv : vm.Ok) (h : ∀ b, b < 4096 ∨ vm.top ≤ b → m b = vm.ram b)
    (hp : p.length ≤ 3) (ht : reach (child vm.ram) 0 p = some t) (i : Fin 512) :
    entryAt m t i = entryAt vm.ram t i := by
  have := hv.node hp ht
  exact word_congr fun b h1 h2 => h b (by omega)

theorem Ok.reach_congr (hv : vm.Ok) (h : ∀ b, b < 4096 ∨ vm.top ≤ b → m b = vm.ram b)
    (hp : p.length ≤ 3) : reach (child m) 0 p = reach (child vm.ram) 0 p := by
  refine Logic.reach_congr fun q t i hq ht => ?_
  rw [child, child, hv.entry_congr h (by omega) ht]

theorem Ok.congr (hv : vm.Ok) (hb : vm'.bytes = vm.bytes)
    (h : ∀ b, b < 4096 ∨ vm.top ≤ b → vm'.ram b = vm.ram b)
    (hn : vm'.next = 0 ∨ vm'.tableArenaBase ≤ vm'.next ∧ vm'.next ≤ vm'.bytes ∧ vm'.next % 4096 = 0)
    (htop : vm'.top ≤ vm.top) : vm'.Ok where
  aligned := by rw [hb]; exact hv.aligned
  large := by rw [hb]; exact hv.large
  small := by rw [hb]; exact hv.small
  next := hn
  frame := fun p t h0 hp ht => by
    rw [hv.reach_congr h hp] at ht
    have := hv.frame p t h0 hp ht
    omega
  apart := hv.apart.congr fun q t i hq ht => by
    rw [child, child, hv.entry_congr h (by omega) ht]
  link := fun p t i hp ht => by
    rw [hv.reach_congr h (by omega)] at ht
    rw [hv.entry_congr h (by omega) ht]
    exact hv.link p t i hp ht

theorem Ok.leaf_congr (hv : vm.Ok) (h : ∀ b, b < 4096 ∨ vm.top ≤ b → vm'.ram b = vm.ram b) (g : ℕ) :
    vm'.leafAt g = vm.leafAt g := by
  have hlen : (path g).length ≤ 3 := le_rfl
  rw [leafAt, leafAt, hv.reach_congr h hlen]
  cases ht : reach (child vm.ram) 0 (path g) with
  | none => simp only [bind_none]
  | some t => simp only [bind_some, hv.entry_congr h hlen ht]

end Congr

theorem Grown.refl (hv : vm.Ok) : vm.Grown vm := ⟨hv, rfl, fun _ => rfl, fun _ _ => rfl⟩

theorem Grown.trans (h : vm.Grown vm') (h' : vm'.Grown vm'') : vm.Grown vm'' where
  ok := h'.ok
  bytes := h'.bytes.trans h.bytes
  leaf := fun g => (h'.leaf g).trans (h.leaf g)
  frame := fun b hb => by
    have : ¬vm'.TableByte b := by
      rw [TableByte, tableArenaBase, h.bytes]
      exact hb
    rw [h'.frame b this, h.frame b hb]

/-- A page for a new table, zeroed and not yet in the tree. -/
structure Fresh (vm : Machine) (f : ℕ) : Prop where
  mod : f % 4096 = 0
  pos : f ≠ 0
  arena : vm.tableArenaBase ≤ f
  inside : f + 4096 ≤ vm.bytes
  below : vm.top ≤ f
  unreached : ∀ q, q.length ≤ 3 → reach (child vm.ram) 0 q ≠ some f
  bare : ∀ i, entryAt vm.ram f i = 0

theorem Ok.taken_spec (hv : vm.Ok) (hroom : vm.tableArenaBase + 4096 ≤ vm.top)
    (hb : vm'.bytes = vm.bytes) (hn : vm'.next = vm.top - 4096)
    (hr : vm'.ram = zeroed vm.ram (vm.top - 4096) 4096) : vm.Grown vm' ∧
    (∀ b, b < 4096 ∨ vm.top ≤ b → vm'.ram b = vm.ram b) ∧ vm'.Fresh (vm.top - 4096) := by
  obtain ⟨_, hpage⟩ := hv.arena
  obtain ⟨_, htop2, htop3⟩ := hv.top_spec
  have harena : vm'.tableArenaBase = vm.tableArenaBase := by rw [tableArenaBase, tableArenaBase, hb]
  have hram : ∀ b, b < 4096 ∨ vm.top ≤ b → vm'.ram b = vm.ram b := by
    intro b hb'
    rw [hr]
    exact zeroed_of_apart (by omega)
  have hnew : vm'.top = vm.top - 4096 := by
    rw [top, if_neg (by omega), hn]
  have hok : vm'.Ok := hv.congr hb hram (.inr ⟨by omega, by omega, by omega⟩) (by omega)
  refine ⟨⟨hok, hb, hv.leaf_congr hram, fun b hb' => ?_⟩, hram, ?_⟩
  · rw [TableByte] at hb'
    rw [hr]
    exact zeroed_of_apart (by omega)
  · refine ⟨by omega, by omega, by omega, by omega, by omega, fun q hq h => ?_, fun i => ?_⟩
    · -- every table lies above the old top
      rw [hv.reach_congr hram hq] at h
      have := hv.node hq h
      omega
    · have := i.isLt
      rw [hr]
      exact word_zeroed (by omega) (by omega)

theorem allocTable_spec (hv : vm.Ok) (h : vm.allocTable = (f, vm')) :
    vm.Grown vm' ∧ (∀ b, b < 4096 ∨ vm.top ≤ b → vm'.ram b = vm.ram b) ∧ (f = 0 ∨ vm'.Fresh f) := by
  obtain ⟨_, hpage⟩ := hv.arena
  obtain ⟨htop1, htop2, htop3⟩ := hv.top_spec
  have hset :
      (if vm.next = 0 then { vm with next := vm.bytes } else vm) = { vm with next := vm.top } := by
    rw [top]
    split_ifs <;> rfl
  have hfull : ({ vm with next := vm.top } : Machine).top = vm.top := by
    rw [top]
    split_ifs with h0
    · have : vm.top = 0 := h0
      omega
    · rfl
  rw [allocTable, hset] at h
  rw [show ({ vm with next := vm.top } : Machine).tableArenaBase = vm.tableArenaBase from rfl,
    kPageSize] at h
  by_cases hex : vm.top < vm.tableArenaBase + 0x1000
  · rw [if_pos hex] at h
    obtain ⟨rfl, rfl⟩ := Prod.mk.inj h
    refine ⟨⟨?_, rfl, fun g => rfl, fun b _ => rfl⟩, fun b _ => rfl, .inl rfl⟩
    exact hv.congr rfl (fun _ _ => rfl) (.inr ⟨htop1, htop2, htop3⟩) hfull.le
  rw [if_neg hex, if_pos] at h
  · obtain ⟨rfl, rfl⟩ := Prod.mk.inj h
    refine And.imp_right (And.imp_right .inr) (hv.taken_spec (by omega) ?_ ?_ ?_)
    all_goals dsimp only
  · rw [inRam, Bool.and_eq_true, decide_eq_true_eq, decide_eq_true_eq]
    dsimp only
    omega

/-! ## One entry is written -/

section Write

variable {e : ℕ}

/-- The cell of an entry lies apart from every other cell of the tree. -/
theorem Ok.entry_put (hv : vm.Ok) {q : List (Fin 512)} {s : ℕ} {j : Fin 512} (hp : p.length ≤ 3)
    (hq : q.length ≤ 3) (ht : reach (child vm.ram) 0 p = some t)
    (hs : reach (child vm.ram) 0 q = some s) (hne : ¬(s = t ∧ j = i)) :
    entryAt (putWord vm.ram (t + i * 8) e) s j = entryAt vm.ram s j := by
  have h1 := hv.node hp ht
  have h2 := hv.node hq hs
  refine word_putWord_of_apart ?_
  by_cases hst : s = t
  · have hij : (j : ℕ) ≠ i := fun h => hne ⟨hst, Fin.ext h⟩
    omega
  · omega

theorem entryAt_put (he : e < 2 ^ 64) : entryAt (putWord vm.ram (t + i * 8) e) t i = e :=
  word_putWord he

theorem Ok.put_frame (hv : vm.Ok) (hp : p.length ≤ 3) (ht : reach (child vm.ram) 0 p = some t)
    {b : ℕ} (hb : ¬vm.TableByte b) : putWord vm.ram (t + i * 8) e b = vm.ram b := by
  have := hv.node hp ht
  have := hv.top_spec
  rw [TableByte] at hb
  exact putWord_of_apart (by omega)

/-- A fresh table is linked into the tree. -/
theorem Ok.link_spec (hv : vm.Ok) (hp : p.length ≤ 2) (ht : reach (child vm.ram) 0 p = some t)
    (hfree : entryAt vm.ram t i % 2 ≠ 1) (hf : vm.Fresh f) :
    vm.Grown { vm with ram := putWord vm.ram (t + i * 8) (f + 7) } ∧
      reach (child (putWord vm.ram (t + i * 8) (f + 7))) 0 (p ++ [i]) = some f := by
  have hsmall := hv.small
  have hinside := hf.inside
  have hmod := hf.mod
  have hput : entryAt (putWord vm.ram (t + i * 8) (f + 7)) t i = f + 7 := entryAt_put (by omega)
  have hft : t ≠ f := by
    rintro rfl
    exact hf.unreached p (by omega) ht
  have hnode := hv.node (by omega) ht
  -- the new table keeps its zeros
  have hbare : ∀ j, entryAt (putWord vm.ram (t + i * 8) (f + 7)) f j = 0 := by
    intro j
    rw [← hf.bare j]
    exact word_putWord_of_apart (by omega)
  have hchild : ∀ q s j, q.length ≤ 3 → reach (child vm.ram) 0 q = some s → ¬(s = t ∧ j = i) →
      child (putWord vm.ram (t + i * 8) (f + 7)) s j = child vm.ram s j := by
    intro q s j hq hs hne
    rw [child, child, hv.entry_put (by omega) hq ht hs hne]
  have hlinks : Links (child vm.ram) (child (putWord vm.ram (t + i * 8) (f + 7))) 0 3 p t f i :=
    { node := ht
      above := by omega
      free := if_neg hfree
      fresh := hf.unreached
      link := by rw [child, hput, if_pos (by omega), addr_link hmod (by omega)]
      bare := fun j => by rw [child, hbare, if_neg (by decide)]
      rest := fun q s j hq => hchild q s j (by omega) }
  have hreach : ∀ {q : List (Fin 512)}, q.length ≤ 3 → q ≠ p ++ [i] →
      reach (child (putWord vm.ram (t + i * 8) (f + 7))) 0 q = reach (child vm.ram) 0 q := by
    intro q hq hne
    rw [hlinks.reach_eq hv.apart hq, if_neg hne]
  have hnew : reach (child (putWord vm.ram (t + i * 8) (f + 7))) 0 (p ++ [i]) = some f := by
    rw [hlinks.reach_eq hv.apart (by simp; omega), if_pos rfl]
  -- a table of the new tree is the fresh one or a table of the old tree
  have hcases : ∀ {q : List (Fin 512)} {s : ℕ}, q.length ≤ 3 →
      reach (child (putWord vm.ram (t + i * 8) (f + 7))) 0 q = some s →
      q = p ++ [i] ∧ s = f ∨ q ≠ p ++ [i] ∧ reach (child vm.ram) 0 q = some s := by
    intro q s hq hs
    by_cases h : q = p ++ [i]
    · rw [h, hnew] at hs
      exact .inl ⟨h, (Option.some.inj hs).symm⟩
    · rw [hreach hq h] at hs
      exact .inr ⟨h, hs⟩
  refine ⟨⟨⟨hv.aligned, hv.large, hv.small, hv.next, ?_, hlinks.apart hv.apart, ?_⟩, rfl, ?_, ?_⟩,
    hnew⟩
  · intro q s h0 hq hs
    obtain ⟨_, rfl⟩ | ⟨_, hs⟩ := hcases hq hs
    · exact ⟨hf.below, hf.inside⟩
    · exact hv.frame q s h0 hq hs
  · intro q s j hq hs hodd
    obtain ⟨_, rfl⟩ | ⟨_, hs⟩ := hcases (by omega) hs
    · rw [hbare] at hodd
      omega
    · by_cases hcell : s = t ∧ j = i
      · obtain ⟨rfl, rfl⟩ := hcell
        rw [hput]
        omega
      · rw [hv.entry_put (by omega) (by omega) ht hs hcell] at hodd ⊢
        exact hv.link q s j hq hs hodd
  · intro g
    have hlen : (path g).length ≤ 3 := le_rfl
    rw [leafAt, leafAt]
    by_cases h : path g = p ++ [i]
    · -- no page is mapped in the new table, as none was below its place
      rw [h, hnew, reach_snoc, ht, bind_some, bind_some, hbare, if_neg (by decide), hlinks.free]
      rfl
    · rw [hreach hlen h]
      cases hs : reach (child vm.ram) 0 (path g) with
      | none => simp only [bind_none]
      | some s =>
        have hcell : ¬(s = t ∧ index g 12 = i) := by
          rintro ⟨rfl, _⟩
          have := hv.apart _ _ _ hlen (by omega) hs ht
          rw [← this, length_path] at hp
          omega
        simp only [bind_some, hv.entry_put (by omega) hlen ht hs hcell]
  · intro b hb
    exact hv.put_frame (by omega) ht hb

theorem Ok.leaf_spec (hv : vm.Ok) {gva : ℕ} (ht : reach (child vm.ram) 0 (path gva) = some t)
    (he : e < 2 ^ 64) :
    ({ vm with ram := putWord vm.ram (t + index gva 12 * 8) e } : Machine).Ok ∧
      (∀ g, ({ vm with ram := putWord vm.ram (t + index gva 12 * 8) e } : Machine).leafAt g =
        if pageNo g = pageNo gva then (if e % 2 = 1 then some e else none) else vm.leafAt g) ∧
      ∀ b, ¬vm.TableByte b → putWord vm.ram (t + index gva 12 * 8) e b = vm.ram b := by
  have hlen : ∀ g, (path g).length ≤ 3 := fun _ => le_rfl
  -- the tables above the last level are not touched
  have hcell : ∀ {q : List (Fin 512)} {s : ℕ}, q.length ≤ 2 → reach (child vm.ram) 0 q = some s →
      s ≠ t := by
    rintro q s hq hs rfl
    have := hv.apart _ _ _ (by omega) (hlen gva) hs ht
    rw [this, length_path] at hq
    omega
  have hentry : ∀ {q : List (Fin 512)} {s : ℕ} (j : Fin 512), q.length ≤ 2 →
      reach (child vm.ram) 0 q = some s →
      entryAt (putWord vm.ram (t + index gva 12 * 8) e) s j = entryAt vm.ram s j :=
    fun j hq hs => hv.entry_put (hlen gva) (by omega) ht hs fun h => hcell hq hs h.1
  have hchild : ∀ q s j, q.length < 3 → reach (child vm.ram) 0 q = some s →
      child (putWord vm.ram (t + index gva 12 * 8) e) s j = child vm.ram s j := by
    intro q s j hq hs
    rw [child, child, hentry j (by omega) hs]
  have hreach : ∀ {q : List (Fin 512)}, q.length ≤ 3 →
      reach (child (putWord vm.ram (t + index gva 12 * 8) e)) 0 q = reach (child vm.ram) 0 q :=
    fun hq => Logic.reach_congr fun q s j h => hchild q s j (by omega)
  refine ⟨⟨hv.aligned, hv.large, hv.small, hv.next, ?_, hv.apart.congr hchild, ?_⟩, fun g => ?_,
    fun b hb => ?_⟩
  · intro q s h0 hq hs
    rw [hreach hq] at hs
    exact hv.frame q s h0 hq hs
  · intro q s j hq hs
    rw [hreach (by omega)] at hs
    rw [hentry j hq hs]
    exact hv.link q s j hq hs
  · rw [leafAt, leafAt]
    rw [hreach (hlen g)]
    by_cases hpage : pageNo g = pageNo gva
    · obtain ⟨h1, h2⟩ := (pageNo_eq_iff g gva).1 hpage
      rw [if_pos hpage, h1, h2, ht, bind_some, entryAt_put he]
    · rw [if_neg hpage]
      cases hs : reach (child vm.ram) 0 (path g) with
      | none => simp only [bind_none]
      | some s =>
        have hne : ¬(s = t ∧ index g 12 = index gva 12) := by
          rintro ⟨rfl, h2⟩
          exact hpage ((pageNo_eq_iff g gva).2 ⟨hv.apart _ _ _ (hlen g) (hlen gva) hs ht, h2⟩)
        simp only [bind_some, hv.entry_put (hlen gva) (hlen g) ht hs hne]
  · exact hv.put_frame (hlen gva) ht hb

end Write

/-! ## The walks -/

theorem Ok.readEntry_eq (hv : vm.Ok) (hp : p.length ≤ 3) (ht : reach (child vm.ram) 0 p = some t)
    (i : Fin 512) : vm.readEntry t i = some (entryAt vm.ram t i) := if_pos (hv.inRam_entry hp ht i)

theorem Ok.writeEntry_eq (hv : vm.Ok) (hp : p.length ≤ 3) (ht : reach (child vm.ram) 0 p = some t)
    (i : Fin 512) (e : ℕ) :
    vm.writeEntry t i e = some { vm with ram := putWord vm.ram (t + i * 8) e } :=
  if_pos (hv.inRam_entry hp ht i)

theorem pageSize_of_link {e : ℕ} (h : e % 4096 = 7) : e &&& kPtePageSize = 0 := by
  by_contra hne
  have := (and_bit e 7).1 hne
  omega

theorem Ok.entrySplit_eq (hv : vm.Ok) (hp : p.length ≤ 2) (ht : reach (child vm.ram) 0 p = some t)
    (i : Fin 512) (shift : ℕ) : vm.entrySplit t i shift = (.ok (entryAt vm.ram t i), vm) := by
  rw [entrySplit, hv.readEntry_eq (by omega) ht]
  refine if_neg ?_
  rintro ⟨h1, h2⟩
  exact h2 (pageSize_of_link (hv.link p t i hp ht ((present_iff _).1 h1)).1)

/-- The tables of an address are there after `map_one` has gone down its levels, and otherwise the
tables have only grown. -/
theorem mapLevels_spec {gva : ℕ} {shifts : List ℕ} {r : Except VmErrno ℕ} (hv : vm.Ok)
    (hp : p.length + shifts.length ≤ 3) (ht : reach (child vm.ram) 0 p = some t)
    (h : mapLevels gva shifts t vm = (r, vm')) : vm.Grown vm' ∧ ∀ t', r = .ok t' →
    reach (child vm'.ram) 0 (p ++ shifts.map (index gva)) = some t' := by
  induction shifts generalizing vm p t with
  | nil =>
    obtain ⟨rfl, rfl⟩ := Prod.mk.inj h
    refine ⟨.refl hv, ?_⟩
    rintro t' h
    rw [map_nil, append_nil, ht, Except.ok.inj h]
  | cons shift shifts ih =>
    rw [length_cons] at hp
    rw [map_cons, append_cons]
    rw [mapLevels] at h
    rw [show gva / 2 ^ shift % 512 = (index gva shift : ℕ) from rfl,
      hv.entrySplit_eq (by omega) ht] at h
    dsimp only at h
    have hlen : (p ++ [index gva shift]).length + shifts.length ≤ 3 := by
      rw [length_append, length_singleton]
      omega
    by_cases hpres : entryAt vm.ram t (index gva shift) % 2 = 1
    · rw [if_pos ((present_iff _).2 hpres), and_addrMask] at h
      exact ih hv hlen (by rw [reach_snoc, ht, bind_some, child, if_pos hpres]) h
    rw [if_neg fun h => hpres ((present_iff _).1 h)] at h
    obtain ⟨⟨f, vm1⟩, ha⟩ : ∃ x, vm.allocTable = x := ⟨_, rfl⟩
    obtain ⟨hg, hram, hf⟩ := allocTable_spec hv ha
    rw [ha] at h
    obtain rfl | hf := hf
    · rw [if_pos rfl] at h
      obtain ⟨rfl, rfl⟩ := Prod.mk.inj h
      exact ⟨hg, by rintro _ ⟨⟩⟩
    have ht1 : reach (child vm1.ram) 0 p = some t := by rw [hv.reach_congr hram (by omega), ht]
    have hfree : entryAt vm1.ram t (index gva shift) % 2 ≠ 1 := by
      rwa [hv.entry_congr hram (by omega) ht]
    have hlt : f < 2 ^ 52 := by
      have := hf.inside
      have := hg.ok.small
      omega
    rw [if_neg hf.pos, link_eq hf.mod, hg.ok.writeEntry_eq (by omega) ht1, and_addrMask,
      addr_link hf.mod hlt] at h
    obtain ⟨hl, hnew⟩ := hg.ok.link_spec (by omega) ht1 hfree hf
    obtain ⟨h1, h2⟩ := ih hl.ok hlen hnew h
    exact ⟨(hg.trans hl).trans h1, h2⟩

/-- The page of `gva` is mapped with the entry `e` and no other page has changed. -/
structure Maps (vm vm' : Machine) (gva : ℕ) (e : Option ℕ) : Prop where
  ok : vm'.Ok
  bytes : vm'.bytes = vm.bytes
  leaf : ∀ g, vm'.leafAt g = if pageNo g = pageNo gva then e else vm.leafAt g
  frame : ∀ b, ¬vm.TableByte b → vm'.ram b = vm.ram b

theorem Grown.maps {gva : ℕ} {e : Option ℕ} (hg : vm.Grown vm') (h : vm'.Maps vm'' gva e) :
    vm.Maps vm'' gva e where
  ok := h.ok
  bytes := h.bytes.trans hg.bytes
  leaf := fun g => by rw [h.leaf, hg.leaf]
  frame := fun b hb => by
    have : ¬vm'.TableByte b := by
      rw [TableByte, tableArenaBase, hg.bytes]
      exact hb
    rw [h.frame b this, hg.frame b hb]

theorem mapOne_spec {gva gpa : ℕ} {writable executable : Bool} {st : Status} (hv : vm.Ok)
    (hg : gpa % 4096 = 0) (hlt : gpa < 2 ^ 52)
    (h : mapOne gva gpa writable executable vm = (st, vm')) :
    (st = .ok () ∧ vm.Maps vm' gva (some (leafEntry gpa writable executable))) ∨
      ((∃ err, st = .error err) ∧ vm.Grown vm') := by
  rw [mapOne] at h
  obtain ⟨⟨r, vm1⟩, hl⟩ : ∃ x, mapLevels gva [39, 30, 21] kPml4Gpa vm = x := ⟨_, rfl⟩
  obtain ⟨hgrown, hreach⟩ := mapLevels_spec hv (p := []) le_rfl rfl hl
  rw [hl] at h
  cases r with
  | error err =>
    obtain ⟨rfl, rfl⟩ := Prod.mk.inj h
    exact .inr ⟨⟨err, rfl⟩, hgrown⟩
  | ok t =>
    have ht : reach (child vm1.ram) 0 (path gva) = some t := hreach t rfl
    have heq := leafEntry_eq hg hlt writable executable
    have he : leafEntry gpa writable executable < 2 ^ 64 := by
      rw [heq]
      split_ifs <;> omega
    have hodd : leafEntry gpa writable executable % 2 = 1 := by
      rw [heq]
      split_ifs <;> omega
    dsimp only at h
    rw [show gva / 2 ^ 12 % 512 = (index gva 12 : ℕ) from rfl,
      hgrown.ok.writeEntry_eq le_rfl ht] at h
    obtain ⟨rfl, rfl⟩ := Prod.mk.inj h
    obtain ⟨h1, h2, h3⟩ := hgrown.ok.leaf_spec ht he
    refine .inl ⟨rfl, hgrown.maps ⟨h1, rfl, fun g => ?_, h3⟩⟩
    rw [h2, if_pos hodd]

/-- What a walk that ends at the entry `e` answers. -/
def walkOf (gva e : ℕ) : Walk where
  gpa := addr e + gva % 4096
  writable := e / 2 % 2 = 1
  user := e / 4 % 2 = 1
  toPageEnd := 4096 - gva % 4096

theorem writable_eq (e : ℕ) : (e &&& kPteWrite != 0) = decide (e / 2 % 2 = 1) := by
  rw [Bool.eq_iff_iff, bne_iff_ne, decide_eq_true_eq]
  exact and_bit e 1

theorem user_eq (e : ℕ) : (e &&& kPteUser != 0) = decide (e / 4 % 2 = 1) := by
  rw [Bool.eq_iff_iff, bne_iff_ne, decide_eq_true_eq]
  exact and_bit e 2

theorem Ok.walkFrom_up (hv : vm.Ok) (hp : p.length ≤ 2) (ht : reach (child vm.ram) 0 p = some t)
    {gva shift : ℕ} {shifts : List ℕ} (hs : shifts ≠ []) :
    vm.walkFrom gva (shift :: shifts) t true true =
      (child vm.ram t (index gva shift)).bind fun t' => vm.walkFrom gva shifts t' true true := by
  rw [walkFrom, show gva / 2 ^ shift % 512 = (index gva shift : ℕ) from rfl,
    hv.readEntry_eq (by omega) ht]
  dsimp only
  rw [child]
  by_cases hpres : entryAt vm.ram t (index gva shift) % 2 = 1
  · obtain ⟨hlow, _⟩ := hv.link p t _ hp ht hpres
    have hleaf : ¬(shifts = [] ∨ entryAt vm.ram t (index gva shift) &&& kPtePageSize ≠ 0) := by
      rintro (h | h)
      · exact hs h
      · exact h (pageSize_of_link hlow)
    rw [if_neg ((present_iff _).2 hpres), if_neg hleaf, if_pos hpres, bind_some, and_addrMask,
      writable_eq, user_eq, decide_eq_true (by omega), decide_eq_true (by omega)]
    rfl
  · rw [if_pos (not_not.1 fun h => hpres ((present_iff _).1 h)), if_neg hpres]
    rfl

theorem Ok.walkFrom_last (hv : vm.Ok) (hp : p.length ≤ 3) (ht : reach (child vm.ram) 0 p = some t)
    (gva : ℕ) :
    vm.walkFrom gva [12] t true true =
      (if entryAt vm.ram t (index gva 12) % 2 = 1 then some (entryAt vm.ram t (index gva 12))
        else none).map (walkOf gva) := by
  rw [walkFrom, show gva / 2 ^ 12 % 512 = (index gva 12 : ℕ) from rfl, hv.readEntry_eq hp ht]
  dsimp only
  by_cases hpres : entryAt vm.ram t (index gva 12) % 2 = 1
  · rw [if_neg ((present_iff _).2 hpres), if_pos (.inl rfl), if_pos hpres, and_addrMask,
      writable_eq, user_eq, Bool.true_and, Bool.true_and]
    have hdown : addr (entryAt vm.ram t (index gva 12)) / 2 ^ 12 * 2 ^ 12 =
        addr (entryAt vm.ram t (index gva 12)) := by
      have := addr_mod (entryAt vm.ram t (index gva 12))
      omega
    rw [hdown]
    rfl
  · rw [if_pos (not_not.1 fun h => hpres ((present_iff _).1 h)), if_neg hpres]
    rfl

theorem Ok.translate_eq (hv : vm.Ok) {gva : ℕ} (hg : gva / 2 ^ 47 = 0 ∨ gva / 2 ^ 47 = 0x1ffff) :
    vm.translate gva = (vm.leafAt gva).map (walkOf gva) := by
  have hpath : path gva = [] ++ [index gva 39] ++ [index gva 30] ++ [index gva 21] := rfl
  rw [translate, if_neg (by tauto), leafAt, hpath, reach_snoc, reach_snoc, reach_snoc, reach_nil,
    kPml4Gpa, hv.walkFrom_up (p := []) (by decide) rfl (by simp), bind_some]
  cases h1 : child vm.ram 0 (index gva 39) with
  | none => rfl
  | some t1 =>
    have hr1 : reach (child vm.ram) 0 ([] ++ [index gva 39]) = some t1 := by
      rw [reach_snoc, reach_nil, bind_some, h1]
    rw [bind_some, bind_some, hv.walkFrom_up (by simp) hr1 (by simp)]
    cases h2 : child vm.ram t1 (index gva 30) with
    | none => rfl
    | some t2 =>
      have hr2 : reach (child vm.ram) 0 ([] ++ [index gva 39] ++ [index gva 30]) = some t2 := by
        rw [reach_snoc, hr1, bind_some, h2]
      rw [bind_some, bind_some, hv.walkFrom_up (by simp) hr2 (by simp)]
      cases h3 : child vm.ram t2 (index gva 21) with
      | none => rfl
      | some t3 =>
        have hr3 : reach (child vm.ram) 0
            ([] ++ [index gva 39] ++ [index gva 30] ++ [index gva 21]) = some t3 := by
          rw [reach_snoc, hr2, bind_some, h3]
        rw [bind_some, bind_some, hv.walkFrom_last (by simp) hr3]

/-! ## A range of pages -/

/-- The pages of `[lo, hi)` are mapped with the entries that `e` gives, and no other page has
changed. -/
structure MapsRange (vm vm' : Machine) (lo hi : ℕ) (e : ℕ → ℕ) : Prop where
  ok : vm'.Ok
  bytes : vm'.bytes = vm.bytes
  leaf : ∀ g < 2 ^ 48, vm'.leafAt g = if lo ≤ g ∧ g < hi then some (e (pageDown g)) else vm.leafAt g
  frame : ∀ b, ¬vm.TableByte b → vm'.ram b = vm.ram b

theorem pageNo_eq_page {g a : ℕ} (hg : g < 2 ^ 48) (ha : a < 2 ^ 48) (hmod : a % 4096 = 0) :
    pageNo g = pageNo a ↔ a ≤ g ∧ g < a + 4096 := by
  rw [pageNo, pageNo]
  omega

theorem mapRun_spec {writable executable : Bool} {n a : ℕ} (hv : vm.Ok) (hmod : a % 4096 = 0)
    (hlt : a + n * 4096 ≤ 2 ^ 48) (h : mapRun writable executable n a vm = (.ok (), vm')) :
    vm.MapsRange vm' a (a + n * 4096) (leafEntry · writable executable) := by
  induction n generalizing a vm with
  | zero =>
    obtain ⟨_, rfl⟩ := Prod.mk.inj h
    refine ⟨hv, rfl, fun g _ => ?_, fun b _ => rfl⟩
    rw [if_neg (by omega)]
  | succ n ih =>
    rw [mapRun] at h
    obtain ⟨⟨st, vm1⟩, h1⟩ : ∃ x, mapOne a a writable executable vm = x := ⟨_, rfl⟩
    rw [h1] at h
    obtain ⟨rfl, hm⟩ | ⟨⟨err, rfl⟩, _⟩ := mapOne_spec hv hmod (by omega) h1
    · obtain ⟨hok, hb, hleaf, hframe⟩ :=
        ih hm.ok (by rw [kPageSize]; omega) (by rw [kPageSize]; omega) h
      refine ⟨hok, hb.trans hm.bytes, fun g hg => ?_, fun b hb' => ?_⟩
      · have hpage := pageNo_eq_page hg (show a < 2 ^ 48 by omega) hmod
        rw [hleaf g hg, hm.leaf, kPageSize]
        by_cases h2 : a + 0x1000 ≤ g ∧ g < a + 0x1000 + n * 4096
        · rw [if_pos h2, if_pos (by omega)]
        rw [if_neg h2]
        by_cases h3 : a ≤ g ∧ g < a + 4096
        · have hdown : pageDown g = a := by
            rw [pageDown]
            omega
          rw [if_pos (hpage.2 h3), if_pos (by omega), hdown]
        · rw [if_neg fun h => h3 (hpage.1 h), if_neg (by omega)]
      · have : ¬vm1.TableByte b := by
          rw [TableByte, tableArenaBase, hm.bytes]
          exact hb'
        rw [hframe b this, hm.frame b hb']
    · cases h

end Ok

end Machine

end Linuxity.Whp

import Linuxity.Logic.Memory
import Linuxity.Mem.Vma

/-!
# Whp.Machine — guest RAM and its page tables (`runtime/windows/vm.hpp`, `runtime/windows/mem.hpp`)

The machine of the Windows backend.  The page tables are words of guest RAM itself: the root at
address zero, the others taken from the arena at the top, from the last page down.
-/

namespace Linuxity.Whp

open Logic Mem

def kPtePresent : ℕ := 1 <<< 0

def kPteWrite : ℕ := 1 <<< 1

def kPteUser : ℕ := 1 <<< 2

def kPtePageSize : ℕ := 1 <<< 7

def kPteNx : ℕ := 1 <<< 63

def kPteAddrMask : ℕ := 0x000ffffffffff000

def kPml4Gpa : ℕ := 0

def kGuestFloor : ℕ := 0x200000

def kGdtGpa : ℕ := 0x3000

def kTableArenaSize : ℕ := 2 <<< 20

structure Machine where
  /-- `ram_bytes_`. -/
  bytes : ℕ
  /-- `table_next_`: zero before the first table. -/
  next : ℕ := 0
  ram : Memory := fun _ => 0

/-- What `Mmu::translate` answers for a page that is present. -/
structure Walk where
  gpa : ℕ
  writable : Bool
  user : Bool
  toPageEnd : ℕ
  deriving DecidableEq

/-- The errors of the backend's start-up. -/
inductive VmErrno where
  | enoent | enoexec | enomem | efault | eio
  deriving DecidableEq

abbrev Status := Except VmErrno Unit

namespace Machine

/-- `build_gdt` on zeroed RAM. -/
def buildGdt : Memory :=
  putWord (putWord (fun _ => 0) (kGdtGpa + 24) 0x00cff2000000ffff) (kGdtGpa + 32) 0x00affa000000ffff

/-- `create`: no host has RAM for a size that rounds to zero or for more than 47 bits of
addresses. -/
def create (bytes : UInt64) : Option Machine :=
  if bytes.toNat ≤ kGuestFloor ∨ pageUp bytes.toNat = 0 ∨ 2 ^ 47 < pageUp bytes.toNat then none
  else some { bytes := pageUp bytes.toNat, ram := buildGdt }

variable (vm : Machine)

/-- `at_table` has a span: the range lies in RAM. -/
def inRam (gpa n : ℕ) : Bool := gpa < vm.bytes && n ≤ vm.bytes - gpa

/-- `GuestRam::permits`. -/
def permits (gpa n : ℕ) : Bool := vm.inRam gpa n && kGuestFloor ≤ gpa

/-- The span of `GuestRam::at` is not empty. -/
def hasSpan (gpa n : ℕ) : Bool := vm.permits gpa n && n != 0

def tableArenaBase : ℕ := if kTableArenaSize < vm.bytes then vm.bytes - kTableArenaSize else 0

def readEntry (table idx : ℕ) : Option ℕ :=
  if vm.inRam (table + idx * 8) 8 then some (word vm.ram (table + idx * 8)) else none

def writeEntry (table idx e : ℕ) : Option Machine :=
  if vm.inRam (table + idx * 8) 8 then some { vm with ram := putWord vm.ram (table + idx * 8) e }
  else none

/-- The new table, or zero when the arena is exhausted. -/
def allocTable : ℕ × Machine :=
  let vm := if vm.next = 0 then { vm with next := vm.bytes } else vm
  if vm.next < vm.tableArenaBase + kPageSize then (0, vm)
  else
    let vm := { vm with next := vm.next - kPageSize }
    if vm.inRam vm.next kPageSize then (vm.next, { vm with ram := zeroed vm.ram vm.next kPageSize })
    else (0, vm)

/-- The loop of `split_large_leaf` over the entries `i`, `i + 1`, …, 511. -/
def splitFrom (fresh base childSize attrs : ℕ) : ℕ → ℕ → Machine → Option Machine
  | 0, _, vm => some vm
  | n + 1, i, vm => (vm.writeEntry fresh i ((base + i * childSize) ||| attrs)).bind
      (splitFrom fresh base childSize attrs n (i + 1))

def splitLargeLeaf (parentTable parentIdx leaf leafShift : ℕ) : Status × Machine :=
  let (fresh, vm) := vm.allocTable
  if fresh = 0 then (.error .enomem, vm)
  else
    let leafSize := 2 ^ leafShift
    let base := (leaf &&& kPteAddrMask) / leafSize * leafSize
    let attrs := leaf &&& (kPtePresent ||| kPteWrite ||| kPteUser ||| kPteNx)
    let childShift := leafShift - 9
    let attrs := if childShift = 12 then attrs else attrs ||| kPtePageSize
    match splitFrom fresh base (2 ^ childShift) attrs 512 0 vm with
    | none => (.error .efault, vm)
    | some vm =>
      match vm.writeEntry parentTable parentIdx
        (fresh ||| kPtePresent ||| kPteWrite ||| kPteUser) with
      | none => (.error .efault, vm)
      | some vm => (.ok (), vm)

/-- The entry of a level above the last, after a large page in it has been split. -/
def entrySplit (table idx shift : ℕ) : Except VmErrno ℕ × Machine :=
  match vm.readEntry table idx with
  | none => (.error .efault, vm)
  | some e =>
    if e &&& kPtePresent ≠ 0 ∧ e &&& kPtePageSize ≠ 0 then
      match vm.splitLargeLeaf table idx e shift with
      | (.error err, vm) => (.error err, vm)
      | (.ok _, vm) =>
        match vm.readEntry table idx with
        | none => (.error .efault, vm)
        | some e => (.ok e, vm)
    else (.ok e, vm)

/-- The loop of `map_one` over the levels above the last: the table of the last level. -/
def mapLevels (gva : ℕ) : List ℕ → ℕ → Machine → Except VmErrno ℕ × Machine
  | [], table, vm => (.ok table, vm)
  | shift :: shifts, table, vm =>
    let idx := gva / 2 ^ shift % 512
    match vm.entrySplit table idx shift with
    | (.error err, vm) => (.error err, vm)
    | (.ok e, vm) =>
      if e &&& kPtePresent ≠ 0 then mapLevels gva shifts (e &&& kPteAddrMask) vm
      else
        let (fresh, vm) := vm.allocTable
        if fresh = 0 then (.error .enomem, vm)
        else
          let e := fresh ||| kPtePresent ||| kPteWrite ||| kPteUser
          match vm.writeEntry table idx e with
          | none => (.error .efault, vm)
          | some vm => mapLevels gva shifts (e &&& kPteAddrMask) vm

def leafEntry (gpa : ℕ) (writable executable : Bool) : ℕ :=
  (gpa &&& kPteAddrMask) ||| kPtePresent ||| kPteUser ||| (if writable then kPteWrite else 0) |||
    (if executable then 0 else kPteNx)

def mapOne (gva gpa : ℕ) (writable executable : Bool) (vm : Machine) : Status × Machine :=
  match mapLevels gva [39, 30, 21] kPml4Gpa vm with
  | (.error err, vm) => (.error err, vm)
  | (.ok table, vm) =>
    match vm.writeEntry table (gva / 2 ^ 12 % 512) (leafEntry gpa writable executable) with
    | none => (.error .efault, vm)
    | some vm => (.ok (), vm)

/-- `n` turns of the loop of `map_pages` from `a` on. -/
def mapRun (writable executable : Bool) : ℕ → ℕ → Machine → Status × Machine
  | 0, _, vm => (.ok (), vm)
  | n + 1, a, vm =>
    match mapOne a a writable executable vm with
    | (.error err, vm) => (.error err, vm)
    | (.ok _, vm) => mapRun writable executable n (a + kPageSize) vm

def mapPages (gva len : ℕ) (writable executable : Bool) (vm : Machine) : Status × Machine :=
  let first := pageDown gva
  let last := pageUp (wrap (gva + len))
  mapRun writable executable ((last - first) / kPageSize) first vm

/-- The loop of `Mmu::translate`. -/
def walkFrom (vm : Machine) (gva : ℕ) : List ℕ → ℕ → Bool → Bool → Option Walk
  | [], _, _, _ => none
  | shift :: shifts, table, writable, user =>
    match vm.readEntry table (gva / 2 ^ shift % 512) with
    | none => none
    | some e =>
      if e &&& kPtePresent = 0 then none
      else
        let writable := writable && e &&& kPteWrite != 0
        let user := user && e &&& kPteUser != 0
        if shifts = [] ∨ e &&& kPtePageSize ≠ 0 then
          let leafSize := 2 ^ shift
          some { gpa := (e &&& kPteAddrMask) / leafSize * leafSize + gva % leafSize
                 writable := writable
                 user := user
                 toPageEnd := leafSize - gva % leafSize }
        else walkFrom vm gva shifts (e &&& kPteAddrMask) writable user

def translate (gva : ℕ) : Option Walk :=
  if gva / 2 ^ 47 ≠ 0 ∧ gva / 2 ^ 47 ≠ 0x1ffff then none
  else vm.walkFrom gva [39, 30, 21, 12] kPml4Gpa true true

/-! ## The size of RAM stays -/

section Bytes

variable {vm vm' : Machine}

theorem writeEntry_bytes {table idx e : ℕ} (h : vm.writeEntry table idx e = some vm') :
    vm'.bytes = vm.bytes := by
  rw [writeEntry] at h
  split_ifs at h
  cases h
  rfl

/-- The end of `alloc_table`, with the new `table_next_` a variable: in the function it is a
difference, and comparing two machines by their fields would unfold it. -/
theorem zeroTable_bytes (vm : Machine) (n : ℕ) :
    (let vm : Machine := { vm with next := n }
        if vm.inRam vm.next kPageSize then
        (vm.next, { vm with ram := zeroed vm.ram vm.next kPageSize }) else (0, vm)).2.bytes =
      vm.bytes := by
  dsimp only
  split_ifs <;> rfl

theorem allocTable_bytes : vm.allocTable.2.bytes = vm.bytes := by
  have hset : (if vm.next = 0 then { vm with next := vm.bytes } else vm).bytes = vm.bytes := by
    split_ifs <;> rfl
  rw [allocTable]
  generalize (if vm.next = 0 then { vm with next := vm.bytes } else vm) = vm1 at hset
  have hzero := (zeroTable_bytes vm1 (vm1.next - kPageSize)).trans hset
  revert hzero
  generalize (let vm : Machine := { vm1 with next := vm1.next - kPageSize }
      if vm.inRam vm.next kPageSize then
      (vm.next, { vm with ram := zeroed vm.ram vm.next kPageSize }) else (0, vm)) = r
  intro hzero
  split_ifs
  · exact hset
  · exact hzero

theorem splitFrom_bytes {fresh base childSize attrs n i : ℕ}
    (h : splitFrom fresh base childSize attrs n i vm = some vm') : vm'.bytes = vm.bytes := by
  induction n generalizing i vm with
  | zero =>
    cases h
    rfl
  | succ n ih =>
    obtain ⟨vm1, h1, h2⟩ := Option.bind_eq_some_iff.1 h
    exact (ih h2).trans (writeEntry_bytes h1)

theorem splitLargeLeaf_bytes {table idx leaf shift : ℕ} :
    (vm.splitLargeLeaf table idx leaf shift).2.bytes = vm.bytes := by
  rw [splitLargeLeaf]
  have halloc := @allocTable_bytes vm
  generalize vm.allocTable = r at halloc
  obtain ⟨fresh, vm1⟩ := r
  dsimp only at halloc ⊢
  split_ifs
  · exact halloc
  all_goals
    split
    · exact halloc
    · rename_i vm2 h2
      split
      · exact (splitFrom_bytes h2).trans halloc
      · rename_i vm3 h3
        exact (writeEntry_bytes h3).trans ((splitFrom_bytes h2).trans halloc)

theorem entrySplit_bytes {table idx shift : ℕ} :
    (vm.entrySplit table idx shift).2.bytes = vm.bytes := by
  rw [entrySplit]
  split
  · rfl
  · split_ifs
    · have hsplit := @splitLargeLeaf_bytes vm table idx
      split <;> rename_i h1
      · exact (congrArg (fun r => r.2.bytes) h1).symm.trans hsplit
      · split
        · exact (congrArg (fun r => r.2.bytes) h1).symm.trans hsplit
        · exact (congrArg (fun r => r.2.bytes) h1).symm.trans hsplit
    · rfl

theorem mapLevels_bytes {gva table : ℕ} {shifts : List ℕ} :
    (mapLevels gva shifts table vm).2.bytes = vm.bytes := by
  induction shifts generalizing table vm with
  | nil => rfl
  | cons shift shifts ih =>
    rw [mapLevels]
    have hentry := @entrySplit_bytes vm table (gva / 2 ^ shift % 512) shift
    generalize vm.entrySplit table (gva / 2 ^ shift % 512) shift = r at hentry
    obtain ⟨_ | e, vm1⟩ := r
    · exact hentry
    · have halloc := @allocTable_bytes vm1
      dsimp only at hentry ⊢
      split_ifs
      · exact ih.trans hentry
      · exact halloc.trans hentry
      · split
        · exact halloc.trans hentry
        · rename_i vm2 h2
          exact ih.trans ((writeEntry_bytes h2).trans (halloc.trans hentry))

theorem mapOne_bytes {gva gpa : ℕ} {writable executable : Bool} :
    (mapOne gva gpa writable executable vm).2.bytes = vm.bytes := by
  rw [mapOne]
  have hlevels := @mapLevels_bytes vm gva kPml4Gpa [39, 30, 21]
  generalize mapLevels gva [39, 30, 21] kPml4Gpa vm = r at hlevels
  obtain ⟨_ | table, vm1⟩ := r
  · exact hlevels
  · dsimp only at hlevels ⊢
    split
    · exact hlevels
    · rename_i h2
      exact (writeEntry_bytes h2).trans hlevels

theorem mapRun_bytes {writable executable : Bool} {n a : ℕ} :
    (mapRun writable executable n a vm).2.bytes = vm.bytes := by
  induction n generalizing a vm with
  | zero => rfl
  | succ n ih =>
    rw [mapRun]
    have hone := @mapOne_bytes vm a a writable executable
    generalize mapOne a a writable executable vm = r at hone
    obtain ⟨_ | _, vm1⟩ := r
    · exact hone
    · exact ih.trans hone

end Bytes

end Machine

end Linuxity.Whp

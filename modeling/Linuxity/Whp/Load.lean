import Linuxity.Loader.Elf
import Linuxity.Whp.Tables

/-!
# Whp.Load — loading an ELF image into guest RAM (`runtime/windows/load.hpp`)

Every segment is mapped, zeroed over its whole pages and filled from the file, in the order of the
headers; then the segments without PF_W are mapped again without write permission.
-/

namespace Linuxity.Whp

open Logic Mem Loader List

/-- A `long` of Windows. -/
def longBits : ℕ := 32

def emX86 : ℕ := 62

/-- Goes on with the machine of a mapping that succeeded; a failure is ENOMEM. -/
def onMapped (f : Machine → Except LoadErrno Unit × Machine) :
    Status × Machine → Except LoadErrno Unit × Machine
  | (.error _, vm) => (.error .enomem, vm)
  | (.ok _, vm) => f vm

namespace Machine

/-- The file's part of a segment is copied. -/
def copySegment (file : File) (bias : ℕ) (ph : Phdr) (vm : Machine) :
    Except LoadErrno Unit × Machine :=
  if vm.hasSpan (ph.va bias) ph.filesz then
    match seekPos longBits ph.offset with
    | none => (.error .enoexec, vm)
    | some pos =>
      let bs := readAt file pos ph.filesz
      (if bs.length = ph.filesz then .ok () else .error .enoexec,
        { vm with ram := putBytes vm.ram (ph.va bias) bs })
  else (.error .enomem, vm)

/-- A segment that has been mapped is zeroed and filled. -/
def fillSegment (file : File) (bias : ℕ) (ph : Phdr) (vm : Machine) :
    Except LoadErrno Unit × Machine :=
  if vm.hasSpan (ph.first bias) (ph.len bias) then
    let vm := { vm with ram := zeroed vm.ram (ph.first bias) (ph.len bias) }
    if ph.filesz = 0 then (.ok (), vm) else copySegment file bias ph vm
  else (.error .enomem, vm)

/-- One PT_LOAD in the loop of `whp_load_elf`. -/
def loadSegment (file : File) (bias : ℕ) (ph : Phdr) (vm : Machine) :
    Except LoadErrno Unit × Machine :=
  onMapped (fillSegment file bias ph) (vm.mapPages (ph.first bias) (ph.len bias) true ph.executable)

/-- The second pass: segments the ELF declares read-only lose their write permission. -/
def dropWrite : List Segment → Machine → Except LoadErrno Unit × Machine
  | [], vm => (.ok (), vm)
  | sg :: sgs, vm =>
    if sg.flags &&& kPfW = 0 then
      onMapped (dropWrite sgs)
        (vm.mapPages sg.first (wrap (sg.last + 2 ^ 64 - sg.first)) false (sg.flags &&& kPfX != 0))
    else dropWrite sgs vm

def whpLoadElf (vm : Machine) (file : Option File) (bias : ℕ) : Except LoadErrno Image × Machine :=
  match loadElf loadSegment emX86 longBits file bias vm with
  | (.error e, vm) => (.error e, vm)
  | (.ok img, vm) =>
    match dropWrite img.segments vm with
    | (.error e, vm) => (.error e, vm)
    | (.ok _, vm) => (.ok img, vm)

/-! ## One segment -/

/-- What the guest reads at an address. -/
def read (vm : Machine) (gva : ℕ) : Option UInt8 :=
  (vm.translate gva).bind fun w => if vm.inRam w.gpa 1 then some (vm.ram w.gpa) else none

/-- The segment stays below the arena of the tables. -/
structure Clear (vm : Machine) (bias : ℕ) (ph : Phdr) : Prop where
  pages : ph.last bias ≤ vm.tableArenaBase
  bytes : ph.va bias + ph.filesz ≤ vm.tableArenaBase

/-- What holds of a segment that has been loaded. -/
structure Fits (vm : Machine) (file : File) (bias : ℕ) (ph : Phdr) : Prop where
  floor : kGuestFloor ≤ ph.first bias
  pages : ph.first bias < ph.last bias
  below : ph.last bias ≤ vm.tableArenaBase
  va : ph.va bias + ph.filesz ≤ vm.tableArenaBase
  bytes : (segBytes longBits file ph).length = ph.filesz

variable {vm vm' : Machine} {file : File} {bias : ℕ} {ph : Phdr}

theorem hasSpan_iff {gpa n : ℕ} :
    vm.hasSpan gpa n ↔ gpa < vm.bytes ∧ n ≤ vm.bytes - gpa ∧ kGuestFloor ≤ gpa ∧ n ≠ 0 := by
  simp only [hasSpan, permits, inRam, Bool.and_eq_true, decide_eq_true_eq, bne_iff_ne, and_assoc]

theorem first_le_va : ph.first bias ≤ ph.va bias := pageDown_le _

theorem mapPages_spec {lo hi : ℕ} {writable executable : Bool} (hv : vm.Ok) (hlo : lo % 4096 = 0)
    (hhi : hi % 4096 = 0) (hlow : lo ≤ vm.tableArenaBase) (hhigh : hi ≤ vm.tableArenaBase)
    (h : vm.mapPages lo (wrap (hi + 2 ^ 64 - lo)) writable executable = (.ok (), vm')) :
    vm.MapsRange vm' lo hi (leafEntry · writable executable) := by
  obtain ⟨harena, _⟩ := hv.arena
  have hsmall := hv.small
  have hend : wrap (lo + wrap (hi + 2 ^ 64 - lo)) = hi := by
    rw [wrap, wrap]
    omega
  rw [mapPages, hend, pageDown_of_mod hlo, pageUp_of_mod hhi (by omega), kPageSize] at h
  have hspec := mapRun_spec hv hlo (by omega) h
  by_cases hle : lo ≤ hi
  · rwa [show lo + (hi - lo) / 0x1000 * 4096 = hi by omega] at hspec
  · -- an empty range
    refine ⟨hspec.ok, hspec.bytes, fun g hg => ?_, hspec.frame⟩
    rw [hspec.leaf g hg, if_neg (by omega), if_neg (by omega)]

theorem Ok.setRam {m : Memory} (hv : vm.Ok) (h : ∀ b, vm.TableByte b → m b = vm.ram b) :
    ({ vm with ram := m } : Machine).Ok ∧
      ∀ g, ({ vm with ram := m } : Machine).leafAt g = vm.leafAt g := by
  obtain ⟨htop, _⟩ := hv.top_spec
  have hsame : ∀ b, b < 4096 ∨ vm.top ≤ b → m b = vm.ram b :=
    fun b hb => h b (by rw [TableByte]; omega)
  exact ⟨hv.congr rfl hsame hv.next le_rfl, hv.leaf_congr hsame⟩

/-- The pages of a segment, mapped to the frames of the same numbers. -/
def pageBrush (bias : ℕ) : Brush Phdr ℕ (Option ℕ) where
  touches ph g := ph.first bias ≤ g && g < ph.last bias
  leaves ph g := some (leafEntry (pageDown g) true ph.executable)

/-- The pages of a read-only segment, mapped again. -/
def dropBrush : Brush Segment ℕ (Option ℕ) where
  touches sg g := sg.flags &&& kPfW == 0 && (sg.first ≤ g && g < sg.last)
  leaves sg g := some (leafEntry (pageDown g) false (sg.flags &&& kPfX != 0))

theorem touches_pageBrush {g : ℕ} :
    (pageBrush bias).touches ph g ↔ ph.first bias ≤ g ∧ g < ph.last bias := by
  simp only [pageBrush, Bool.and_eq_true, decide_eq_true_eq]

theorem touches_dropBrush {sg : Segment} {g : ℕ} :
    dropBrush.touches sg g ↔ sg.flags &&& kPfW = 0 ∧ sg.first ≤ g ∧ g < sg.last := by
  simp only [dropBrush, Bool.and_eq_true, decide_eq_true_eq, beq_iff_eq]

/-- The machine after a segment: its pages are mapped, its bytes are painted. -/
structure Loads (vm vm' : Machine) (file : File) (bias : ℕ) (ph : Phdr) : Prop where
  ok : vm'.Ok
  bytes : vm'.bytes = vm.bytes
  fits : vm.Fits file bias ph
  leaf : ∀ g < 2 ^ 48, vm'.leafAt g = (pageBrush bias).paint vm.leafAt ph g
  ram : ∀ b, ¬vm.TableByte b → vm'.ram b = (segBrush longBits file bias).paint vm.ram ph b

theorem copySegment_spec (h : copySegment file bias ph vm = (.ok (), vm')) :
    (segBytes longBits file ph).length = ph.filesz ∧
      vm' = { vm with ram := putBytes vm.ram (ph.va bias) (segBytes longBits file ph) } := by
  rw [copySegment] at h
  split_ifs at h
  · rw [segBytes]
    cases hseek : seekPos longBits ph.offset with
    | none =>
      rw [hseek] at h
      cases h
    | some pos =>
      rw [hseek] at h
      rw [Option.getD_some]
      obtain ⟨h1, h2⟩ := Prod.mk.inj h
      refine ⟨?_, h2.symm⟩
      by_contra hne
      rw [if_neg hne] at h1
      cases h1
  · cases h

theorem fillSegment_spec (h : fillSegment file bias ph vm = (.ok (), vm')) :
    vm.hasSpan (ph.first bias) (ph.len bias) ∧ (segBytes longBits file ph).length = ph.filesz ∧
      vm' = { vm with
        ram := putBytes (zeroed vm.ram (ph.first bias) (ph.len bias)) (ph.va bias)
          (segBytes longBits file ph) } := by
  rw [fillSegment] at h
  by_cases hspan : vm.hasSpan (ph.first bias) (ph.len bias)
  · rw [if_pos hspan] at h
    by_cases h0 : ph.filesz = 0
    · rw [if_pos h0] at h
      obtain ⟨_, rfl⟩ := Prod.mk.inj h
      have hnil : segBytes longBits file ph = [] := by
        rw [segBytes, h0, readAt, take_zero]
      refine ⟨hspan, by rw [hnil, h0]; rfl, ?_⟩
      have hput : ∀ m, putBytes m (ph.va bias) [] = m :=
        fun m => funext fun b => putBytes_of_apart (by simp; omega)
      rw [hnil, hput]
    · rw [if_neg h0] at h
      obtain ⟨h1, h2⟩ := copySegment_spec h
      exact ⟨hspan, h1, h2⟩
  · rw [if_neg hspan] at h
    cases h

theorem arena_congr (hb : vm'.bytes = vm.bytes) : vm'.tableArenaBase = vm.tableArenaBase := by
  rw [tableArenaBase, tableArenaBase, hb]

theorem tableByte_congr (hb : vm'.bytes = vm.bytes) (b : ℕ) : vm'.TableByte b ↔ vm.TableByte b := by
  rw [TableByte, TableByte, arena_congr hb]

theorem loadSegment_spec (hv : vm.Ok) (hc : vm.Clear bias ph)
    (h : loadSegment file bias ph vm = (.ok (), vm')) : vm.Loads vm' file bias ph := by
  obtain ⟨harena, hpage⟩ := hv.arena
  have hsmall := hv.small
  have hfirst := @first_le_va bias ph
  have hpages := hc.pages
  have hbytes := hc.bytes
  have hlo : ph.first bias % 4096 = 0 := pageDown_mod _
  have hhi : ph.last bias % 4096 = 0 := pageUp_mod _
  rw [loadSegment] at h
  generalize h1 : vm.mapPages (ph.first bias) (ph.len bias) true ph.executable = r at h
  obtain ⟨_ | _, vm1⟩ := r
  · cases h
  have hm := mapPages_spec hv hlo hhi (by omega) hpages h1
  obtain ⟨hspan, hread, rfl⟩ := fillSegment_spec h
  obtain ⟨hs1, hs2, hfloor, hs4⟩ := hasSpan_iff.1 hspan
  rw [hm.bytes] at hs1 hs2
  -- the length has not wrapped
  have hlen : ph.first bias < ph.last bias ∧ ph.len bias = ph.last bias - ph.first bias := by
    rw [Phdr.len, wrap] at hs2 hs4 ⊢
    omega
  rw [hlen.2]
  have hfl : kGuestFloor = 0x200000 := rfl
  have hpaint := fun x => @fill_eq_paint longBits bias file ph vm1.ram hread hlen.1.le x
  -- nothing is written to the tables
  have hkeep : ∀ b, vm1.TableByte b →
      putBytes (zeroed vm1.ram (ph.first bias) (ph.last bias - ph.first bias)) (ph.va bias)
      (segBytes longBits file ph) b = vm1.ram b := by
    intro b hb
    have := (tableByte_congr hm.bytes b).1 hb
    rw [TableByte] at this
    rw [putBytes_of_apart (by omega), zeroed_of_apart (by omega)]
  obtain ⟨hok, hleaf⟩ := hm.ok.setRam hkeep
  refine ⟨hok, hm.bytes, ⟨hfloor, hlen.1, hpages, hbytes, hread⟩, fun g hg => ?_, fun b hb => ?_⟩
  · rw [hleaf, hm.leaf g hg]
    exact if_congr touches_pageBrush.symm rfl rfl
  · dsimp only
    rw [hpaint, Brush.paint, Brush.paint, hm.frame b hb]

/-! ## All segments -/

/-- The machine after the first pass over the segments `phs`. -/
structure LoadsAll (vm vm' : Machine) (file : File) (bias : ℕ) (phs : List Phdr) : Prop where
  ok : vm'.Ok
  bytes : vm'.bytes = vm.bytes
  fits : ∀ ph ∈ phs, vm.Fits file bias ph
  leaf : ∀ g < 2 ^ 48, vm'.leafAt g = (pageBrush bias).paintAll vm.leafAt phs g
  ram : ∀ b, ¬vm.TableByte b → vm'.ram b = (segBrush longBits file bias).paintAll vm.ram phs b

theorem fits_congr (hb : vm'.bytes = vm.bytes) (h : vm'.Fits file bias ph) :
    vm.Fits file bias ph := by
  have harena := arena_congr hb
  exact ⟨h.floor, h.pages, harena ▸ h.below, harena ▸ h.va, h.bytes⟩

theorem runSegs_spec {phs : List Phdr} (hv : vm.Ok) (hc : ∀ ph ∈ phs, vm.Clear bias ph)
    (h : runSegs (loadSegment file bias) phs vm = (.ok (), vm')) :
    vm.LoadsAll vm' file bias phs := by
  induction phs generalizing vm with
  | nil =>
    obtain ⟨_, rfl⟩ := Prod.mk.inj h
    exact ⟨hv, rfl, nofun, fun _ _ => (Brush.paintAll_of_untouched nofun).symm, fun _ _ => rfl⟩
  | cons ph phs ih =>
    rw [runSegs] at h
    generalize h1 : loadSegment file bias ph vm = r at h
    obtain ⟨_ | _, vm1⟩ := r
    · cases h
    have hl := loadSegment_spec hv (hc ph (.head _)) h1
    have harena := arena_congr hl.bytes
    have hrest :=
      ih hl.ok (fun k hk =>
        ⟨harena ▸ (hc k (.tail _ hk)).pages, harena ▸ (hc k (.tail _ hk)).bytes⟩) h
    refine ⟨hrest.ok, hrest.bytes.trans hl.bytes, fun k hk => ?_, fun g hg => ?_, fun b hb => ?_⟩
    · obtain rfl | hk := mem_cons.1 hk
      · exact hl.fits
      · exact fits_congr hl.bytes (hrest.fits k hk)
    · rw [hrest.leaf g hg, Brush.paintAll_cons]
      exact Brush.paintAll_congr (hl.leaf g hg)
    · rw [hrest.ram b ((tableByte_congr hl.bytes b).not.2 hb)]
      exact Brush.paintAll_congr (hl.ram b hb)

/-- The machine after the second pass over the segments `sgs`. -/
structure Drops (vm vm' : Machine) (sgs : List Segment) : Prop where
  ok : vm'.Ok
  bytes : vm'.bytes = vm.bytes
  leaf : ∀ g < 2 ^ 48, vm'.leafAt g = dropBrush.paintAll vm.leafAt sgs g
  ram : ∀ b, ¬vm.TableByte b → vm'.ram b = vm.ram b

theorem dropWrite_spec {sgs : List Segment} (hv : vm.Ok)
    (hs : ∀ sg ∈ sgs, sg.first % 4096 = 0 ∧ sg.last % 4096 = 0 ∧ sg.first ≤ vm.tableArenaBase ∧
        sg.last ≤ vm.tableArenaBase) (h : dropWrite sgs vm = (.ok (), vm')) : vm.Drops vm' sgs := by
  induction sgs generalizing vm with
  | nil =>
    obtain ⟨_, rfl⟩ := Prod.mk.inj h
    exact ⟨hv, rfl, fun _ _ => (Brush.paintAll_of_untouched nofun).symm, fun _ _ => rfl⟩
  | cons sg sgs ih =>
    rw [dropWrite] at h
    by_cases hro : sg.flags &&& kPfW = 0
    · rw [if_pos hro] at h
      generalize h1 : vm.mapPages sg.first (wrap (sg.last + 2 ^ 64 - sg.first)) false
        (sg.flags &&& kPfX != 0) = r at h
      obtain ⟨_ | _, vm1⟩ := r
      · cases h
      obtain ⟨a1, a2, a3, a4⟩ := hs sg mem_cons_self
      have hm := mapPages_spec hv a1 a2 a3 a4 h1
      have harena := arena_congr hm.bytes
      have hrest := ih hm.ok (fun k hk => harena ▸ hs k (.tail _ hk)) h
      refine ⟨hrest.ok, hrest.bytes.trans hm.bytes, fun g hg => ?_, fun b hb => ?_⟩
      · rw [hrest.leaf g hg, Brush.paintAll_cons]
        refine Brush.paintAll_congr ?_
        rw [hm.leaf g hg]
        exact if_congr (by rw [touches_dropBrush, and_iff_right hro]) rfl rfl
      · rw [hrest.ram b ((tableByte_congr hm.bytes b).not.2 hb), hm.frame b hb]
    · rw [if_neg hro] at h
      have hrest := ih hv (fun k hk => hs k (.tail _ hk)) h
      refine ⟨hrest.ok, hrest.bytes, fun g hg => ?_, hrest.ram⟩
      rw [hrest.leaf g hg, Brush.paintAll_cons]
      exact Brush.paintAll_congr (if_neg fun ht => hro (touches_dropBrush.1 ht).1).symm

/-! ## The image reads back -/

/-- A machine at start-up: every page that is mapped is mapped to the frame of the same number. -/
structure Booting (vm : Machine) : Prop where
  ok : vm.Ok
  identity : ∀ g < 2 ^ 48, ∀ e, vm.leafAt g = some e → addr e = pageDown g

theorem reach_of_empty (h0 : ∀ i, entryAt vm.ram 0 i = 0) {p : List (Fin 512)} (hp : p ≠ []) :
    reach (child vm.ram) 0 p = none := by
  obtain ⟨i, p, rfl⟩ := exists_cons_of_ne_nil hp
  have hchild : child vm.ram 0 i = none := by
    rw [child, h0, if_neg (by decide)]
  rw [reach, foldlM_cons, hchild]
  rfl

theorem booting_of_empty (h0 : ∀ i, entryAt vm.ram 0 i = 0) (hn : vm.next = 0)
    (ha : vm.bytes % 4096 = 0) (hl : kGuestFloor < vm.bytes)
    (hs : vm.bytes ≤ 2 ^ 47) : vm.Booting := by
  refine ⟨⟨ha, hl, hs, .inl hn, fun p t hp _ ht => ?_, fun p q t _ _ hp hq => ?_,
      fun p t i _ ht hodd => ?_⟩, fun g _ e he => ?_⟩
  · rw [reach_of_empty h0 hp] at ht
    cases ht
  · by_cases hp0 : p = []
    · by_cases hq0 : q = []
      · rw [hp0, hq0]
      · rw [reach_of_empty h0 hq0] at hq
        cases hq
    · rw [reach_of_empty h0 hp0] at hp
      cases hp
  · by_cases hp0 : p = []
    · subst hp0
      cases ht
      rw [h0] at hodd
      omega
    · rw [reach_of_empty h0 hp0] at ht
      cases ht
  · rw [leafAt, reach_of_empty h0 (by simp [path])] at he
    cases he

theorem booting_create {bytes : UInt64} (h : create bytes = some vm) : vm.Booting := by
  rw [create] at h
  split_ifs at h with hsize
  cases h
  rw [not_or, not_or, not_le, not_lt] at hsize
  obtain ⟨hlarge, hzero, hsmall⟩ := hsize
  have hlt := bytes.toNat_lt
  have hle : bytes.toNat ≤ pageUp bytes.toNat := by
    by_cases hb : bytes.toNat ≤ 2 ^ 64 - 4096
    · exact le_pageUp hb
    · exact absurd (pageUp_eq_zero (by omega) (by omega)) hzero
  refine booting_of_empty (fun i => ?_) rfl (pageUp_mod _) (by dsimp only; omega) hsmall
  have hgdt : kGdtGpa = 0x3000 := rfl
  change word (putWord (putWord _ _ _) _ _) _ = 0
  rw [word_putWord_of_apart (by omega), word_putWord_of_apart (by omega)]
  rfl

/-- The segment is in the guest's memory as the file describes it. -/
structure ReadsBack (vm : Machine) (file : File) (bias : ℕ) (ph : Phdr) : Prop where
  copied : ∀ x, ph.va bias ≤ x → x < ph.va bias + ph.filesz →
    ∃ b, file[ph.offset + (x - ph.va bias)]? = some b ∧ vm.read x = some b
  zero : ∀ x, ph.va bias + ph.filesz ≤ x → x < ph.va bias + ph.memsz → vm.read x = some 0
  writable : ph.writable → ∀ x, ph.va bias ≤ x → x < ph.va bias + ph.memsz →
    ∃ w, vm.translate x = some w ∧ w.writable

/-- What the segments of a file must be like. -/
structure Sound (vm : Machine) (file : File) (bias : ℕ) (phs : List Phdr) : Prop where
  /-- No segment runs over the end of the address space. -/
  noWrap : ∀ ph ∈ phs, ph.va bias + ph.memsz < 2 ^ 64
  /-- The bytes of the file lie in pages that are mapped. -/
  mapped : ∀ ph ∈ phs, ∀ x, ph.va bias ≤ x → x < ph.va bias + ph.filesz →
    (∃ k ∈ phs, k.first bias ≤ x ∧ x < k.last bias) ∨ vm.leafAt x ≠ none
  /-- The last segment to touch a byte leaves there what the byte's segment asks for. -/
  copied : ∀ ph ∈ phs, ∀ x, ph.va bias ≤ x → x < ph.va bias + ph.filesz →
    ∀ k, (segBrush longBits file bias).Last phs x k →
      file[ph.offset + (x - ph.va bias)]? = some ((segBrush longBits file bias).leaves k x)
  zero : ∀ ph ∈ phs, ∀ x, ph.va bias + ph.filesz ≤ x → x < ph.va bias + ph.memsz →
    ∀ k, (segBrush longBits file bias).Last phs x k → (segBrush longBits file bias).leaves k x = 0
  /-- A page with a byte of a writable segment is not a page of a read-only one. -/
  writable : ∀ ph ∈ phs, ph.writable → ∀ x, ph.va bias ≤ x → x < ph.va bias + ph.memsz →
    ∀ k ∈ phs, k.writable = false → ¬(k.first bias ≤ x ∧ x < k.last bias)

theorem write_leafEntry {gpa : ℕ} (hg : gpa % 4096 = 0) (hlt : gpa < 2 ^ 52)
    (writable executable : Bool) : leafEntry gpa writable executable / 2 % 2 = 1 ↔ writable := by
  rw [leafEntry_eq hg hlt]
  split_ifs <;> simp_all <;> omega

/-- The machine after both passes. -/
structure Loaded (vm vm' : Machine) (file : File) (bias : ℕ) (phs : List Phdr) : Prop where
  ok : vm'.Ok
  bytes : vm'.bytes = vm.bytes
  fits : ∀ ph ∈ phs, vm.Fits file bias ph
  inside : ∀ g < 2 ^ 48, (∃ ph ∈ phs, ph.first bias ≤ g ∧ g < ph.last bias) → ∃ w x,
    vm'.leafAt g = some (leafEntry (pageDown g) w x) ∧
      (w ↔ ¬∃ k ∈ phs, k.writable = false ∧ k.first bias ≤ g ∧ g < k.last bias)
  outside : ∀ g < 2 ^ 48, (¬∃ ph ∈ phs, ph.first bias ≤ g ∧ g < ph.last bias) →
    vm'.leafAt g = vm.leafAt g
  ram : ∀ b, ¬vm.TableByte b → vm'.ram b = (segBrush longBits file bias).paintAll vm.ram phs b

theorem loaded_of_passes {phs : List Phdr} {vm1 : Machine} (h1 : vm.LoadsAll vm1 file bias phs)
    (h2 : vm1.Drops vm' (phs.map fun ph => ⟨ph.first bias, ph.last bias, ph.flags⟩)) :
    vm.Loaded vm' file bias phs := by
  have hro : ∀ g, (∃ sg ∈ phs.map fun ph =>
        (⟨ph.first bias, ph.last bias, ph.flags⟩ : Segment), dropBrush.touches sg g) ↔
      ∃ k ∈ phs, k.writable = false ∧ k.first bias ≤ g ∧ g < k.last bias := by
    intro g
    simp only [mem_map, exists_exists_and_eq_and, touches_dropBrush, Phdr.writable,
      bne_eq_false_iff_eq]
  refine ⟨h2.ok, h2.bytes.trans h1.bytes, h1.fits, fun g hg hcov => ?_, fun g hg hcov => ?_,
    fun b hb => ?_⟩
  · rw [h2.leaf g hg]
    by_cases hr : ∃ k ∈ phs, k.writable = false ∧ k.first bias ≤ g ∧ g < k.last bias
    · obtain ⟨sg, hsg⟩ := Brush.exists_last ((hro g).2 hr)
      rw [hsg.paintAll_eq]
      exact ⟨false, _, rfl, by simp [hr]⟩
    · obtain ⟨k, hk, hkg⟩ := hcov
      obtain ⟨ph, hph⟩ := Brush.exists_last ⟨k, hk, touches_pageBrush.2 hkg⟩
      rw [Brush.paintAll_of_not_exists fun h => hr ((hro g).1 h), h1.leaf g hg, hph.paintAll_eq]
      exact ⟨true, _, rfl, by simp [hr]⟩
  · rw [h2.leaf g hg, Brush.paintAll_of_not_exists, h1.leaf g hg, Brush.paintAll_of_not_exists]
    · rintro ⟨k, hk, hkg⟩
      exact hcov ⟨k, hk, touches_pageBrush.1 hkg⟩
    · intro h
      obtain ⟨k, hk, _, hkg⟩ := (hro g).1 h
      exact hcov ⟨k, hk, hkg⟩
  · rw [h2.ram b ((tableByte_congr h1.bytes b).not.2 hb), h1.ram b hb]

theorem whpLoadElf_spec {img : Image} (hv : vm.Ok) (hfit : HeadersFit longBits (ehdr file))
    (hclear : ∀ ph ∈ segments file, vm.Clear (biasOf file bias) ph)
    (h : vm.whpLoadElf (some file) bias = (.ok img, vm')) :
    vm.Loaded vm' file (biasOf file bias) (segments file) := by
  rw [whpLoadElf] at h
  generalize h1 : loadElf loadSegment emX86 longBits (some file) bias vm = r at h
  obtain ⟨_ | img1, vm1⟩ := r
  · cases h
  dsimp only at h
  generalize h2 : dropWrite img1.segments vm1 = r at h
  obtain ⟨_ | _, vm2⟩ := r
  · cases h
  obtain ⟨_, rfl⟩ := Prod.mk.inj h
  obtain ⟨-, hread, hrun, hsegs⟩ := loadElf_ok h1
  have hphs : loadsFrom longBits file (ehdr file) (ehdr file).phnum 0 = segments file :=
    loadsFrom_eq (by decide) (fun j hj => by rw [Nat.zero_add]; exact hfit j hj) hread
  rw [hphs] at hrun hsegs
  rw [hsegs] at h2
  have hl := runSegs_spec hv hclear hrun
  have harena := arena_congr hl.bytes
  refine loaded_of_passes hl (dropWrite_spec hl.ok ?_ h2)
  intro sg hsg
  obtain ⟨ph, hph, rfl⟩ := mem_map.1 hsg
  have hf := hl.fits ph hph
  have h4 := hf.below
  have h5 := hf.pages
  refine ⟨pageDown_mod _, pageUp_mod _, ?_, ?_⟩
  · dsimp only
    omega
  · dsimp only
    omega

section Reads

variable {phs : List Phdr} {x : ℕ}

theorem Loaded.read_eq (hb : vm.Booting) (h : vm.Loaded vm' file bias phs)
    (hx : x < vm.tableArenaBase) (hlow : 4096 ≤ x)
    (hm : (∃ k ∈ phs, k.first bias ≤ x ∧ x < k.last bias) ∨ vm.leafAt x ≠ none) :
    vm'.read x = some ((segBrush longBits file bias).paintAll vm.ram phs x) := by
  obtain ⟨harena, _⟩ := hb.ok.arena
  have hsmall := hb.ok.small
  have hlt : x < 2 ^ 48 := by omega
  have hdown : pageDown x + x % 4096 = x := by
    rw [pageDown]
    omega
  -- the page is mapped to the frame of the same number
  have hleaf : ∃ e, vm'.leafAt x = some e ∧ addr e = pageDown x := by
    by_cases hcov : ∃ k ∈ phs, k.first bias ≤ x ∧ x < k.last bias
    · obtain ⟨w, y, hw, _⟩ := h.inside x hlt hcov
      refine ⟨_, hw, ?_⟩
      rw [leafEntry_eq (pageDown_mod x) (by omega), addr]
      split_ifs <;> omega
    · obtain ⟨e, he⟩ := Option.ne_none_iff_exists'.1 (hm.resolve_left hcov)
      exact ⟨e, (h.outside x hlt hcov).trans he, hb.identity x hlt e he⟩
  obtain ⟨e, he, haddr⟩ := hleaf
  have hin : vm'.inRam x 1 := by
    rw [inRam, Bool.and_eq_true, decide_eq_true_eq, decide_eq_true_eq, h.bytes]
    omega
  rw [read, h.ok.translate_eq (.inl (by omega)), he, Option.map_some, Option.bind_some, walkOf]
  rw [haddr, hdown, if_pos hin, h.ram x (by rw [TableByte]; omega)]

theorem Loaded.read_past (hb : vm.Booting) (h : vm.Loaded vm' file bias phs) :
    vm'.read vm.bytes = none := by
  obtain ⟨harena, _⟩ := hb.ok.arena
  have hsmall := hb.ok.small
  have hmod := hb.ok.aligned
  have hcov : ¬∃ k ∈ phs, k.first bias ≤ vm.bytes ∧ vm.bytes < k.last bias := by
    rintro ⟨k, hk, _, hlt⟩
    have := (h.fits k hk).below
    omega
  by_cases htop : vm.bytes = 2 ^ 47
  · -- the first address that is not canonical
    have hnone : vm'.translate vm.bytes = none := by
      rw [translate, if_pos (by rw [htop]; decide)]
    rw [read, hnone]
    rfl
  · rw [read, h.ok.translate_eq (.inl (by omega)), h.outside _ (by omega) hcov]
    cases he : vm.leafAt vm.bytes with
    | none => rfl
    | some e =>
      have haddr := hb.identity _ (by omega) e he
      rw [pageDown_of_mod hmod] at haddr
      rw [Option.map_some, Option.bind_some, walkOf]
      dsimp only
      rw [haddr, if_neg]
      rw [inRam, h.bytes, Bool.and_eq_true, decide_eq_true_eq, decide_eq_true_eq]
      omega

theorem Fits.inRange {ph : Phdr} (hf : vm.Fits file bias ph) (h1 : ph.va bias ≤ x)
    (h2 : x < ph.va bias + ph.filesz ∨ x < ph.last bias) : 4096 ≤ x ∧ x < vm.tableArenaBase := by
  have hfl := hf.floor
  have hfirst := @first_le_va bias ph
  have hbelow := hf.below
  have hva := hf.va
  rw [kGuestFloor] at hfl
  omega

/-- Whether the guest may write to a page of a segment. -/
theorem Loaded.writable_iff (hv : vm.Ok) (h : vm.Loaded vm' file bias phs)
    (hx : x < vm.tableArenaBase) (hm : ∃ k ∈ phs, k.first bias ≤ x ∧ x < k.last bias) :
    (∃ w, vm'.translate x = some w ∧ w.writable) ↔
      ¬∃ k ∈ phs, k.writable = false ∧ k.first bias ≤ x ∧ x < k.last bias := by
  obtain ⟨harena, _⟩ := hv.arena
  have hsmall := hv.small
  have hdl := pageDown_le x
  obtain ⟨w, y, he, hw⟩ := h.inside x (by omega) hm
  rw [h.ok.translate_eq (.inl (by omega)), he, ← hw,
    ← write_leafEntry (pageDown_mod x) (by omega) w y]
  simp [walkOf]

end Reads

/-- **A load reads back exactly when its segments are sound.** -/
theorem whp_reads_back_iff {img : Image} (hb : vm.Booting) (hfit : HeadersFit longBits (ehdr file))
    (hclear : ∀ ph ∈ segments file, vm.Clear (biasOf file bias) ph)
    (h : vm.whpLoadElf (some file) bias = (.ok img, vm')) :
    (∀ ph ∈ segments file, vm'.ReadsBack file (biasOf file bias) ph) ↔
      vm.Sound file (biasOf file bias) (segments file) := by
  have hl := whpLoadElf_spec hb.ok hfit hclear h
  obtain ⟨harena, _⟩ := hb.ok.arena
  have hsmall := hb.ok.small
  generalize biasOf file bias = bias at hl ⊢
  generalize segments file = phs at hl ⊢
  have hcore := @reads_back_iff_last longBits bias file phs vm'.read
    (fun x => (∃ k ∈ phs, k.first bias ≤ x ∧ x < k.last bias) ∨ vm.leafAt x ≠ none)
    (fun ph hph => ⟨(hl.fits ph hph).pages, fun x h1 h2 => .inl ⟨ph, hph, h1, h2⟩⟩)
    (fun ph hph => ⟨vm.bytes, by omega, by have := (hl.fits ph hph).va; omega, hl.read_past hb⟩)
    (fun ph hph x h1 h2 b hread => by
      obtain ⟨-, hx⟩ := (hl.fits ph hph).inRange h1 (.inl h2)
      by_contra hnot
      rw [not_or, not_not] at hnot
      rw [read, hl.ok.translate_eq (.inl (by omega)), hl.outside x (by omega) hnot.1,
        hnot.2] at hread
      cases hread)
    (fun ph hph x h1 h2 hm k hk => by
      obtain ⟨hlow, hx⟩ := (hl.fits ph hph).inRange h1 h2
      rw [hl.read_eq hb hx hlow hm, hk.paintAll_eq])
  constructor
  · intro hr
    obtain ⟨hwrap, hmapped, hcopied, hzero⟩ :=
      hcore.1 fun ph hph => ⟨(hr ph hph).copied, (hr ph hph).zero⟩
    refine ⟨hwrap, hmapped, hcopied, hzero, fun ph hph hw x h1 h2 k hk hro hkx => ?_⟩
    have hin := Phdr.inPages (hl.fits ph hph).pages (hwrap ph hph) h1 h2
    obtain ⟨_, hx⟩ := (hl.fits ph hph).inRange h1 (.inr hin.2)
    exact (hl.writable_iff hb.ok hx ⟨ph, hph, hin⟩).1 ((hr ph hph).writable hw x h1 h2)
      ⟨k, hk, hro, hkx⟩
  · intro hs ph hph
    obtain ⟨hcopied, hzero⟩ := hcore.2 ⟨hs.noWrap, hs.mapped, hs.copied, hs.zero⟩ ph hph
    refine ⟨hcopied, hzero, fun hw x h1 h2 => ?_⟩
    have hin := Phdr.inPages (hl.fits ph hph).pages (hs.noWrap ph hph) h1 h2
    obtain ⟨_, hx⟩ := (hl.fits ph hph).inRange h1 (.inr hin.2)
    refine (hl.writable_iff hb.ok hx ⟨ph, hph, hin⟩).2 ?_
    rintro ⟨k, hk, hro, hkx⟩
    exact hs.writable ph hph hw x h1 h2 k hk hro hkx

/-! ## Two segments of one page -/

/-- A machine of 64 MiB. -/
def smallMachine : Machine := { bytes := 0x4000000, ram := buildGdt }

theorem booting_smallMachine : smallMachine.Booting := @booting_create smallMachine 0x4000000 rfl

/-- A text segment of one byte at `0x400000` and a data segment of one byte at `at`. -/
def textAndData (dataAt : ℕ) : List Phdr :=
  [⟨ptLoad, 5, 176, 0x400000, 1, 1⟩, ⟨ptLoad, 6, 177, dataAt, 1, 1⟩]

def textAndDataFile (dataAt : ℕ) : File := fileOf emX86 (textAndData dataAt) [0xaa, 0xbb]

theorem segments_textAndData : segments (textAndDataFile 0x400800) = textAndData 0x400800 ∧
    segments (textAndDataFile 0x401000) = textAndData 0x401000 := by
  decide +kernel

/-- The data segment erases the byte of the text, and the text segment takes the data's write
permission away. -/
theorem shared_page_lost :
    smallMachine.Booting ∧ (segments (textAndDataFile 0x400800)).Pairwise Phdr.Disjoint ∧
      (smallMachine.whpLoadElf (some (textAndDataFile 0x400800)) 0x400000).1.toBool = true ∧
      (textAndDataFile 0x400800)[176]? = some 0xaa ∧
      (smallMachine.whpLoadElf (some (textAndDataFile 0x400800)) 0x400000).2.read 0x400000 =
        some 0 ∧
      ((smallMachine.whpLoadElf (some (textAndDataFile 0x400800)) 0x400000).2.translate
        0x400800).map Walk.writable = some false := by
  refine ⟨booting_smallMachine, ?_, ?_, ?_, ?_, ?_⟩
  · rw [segments_textAndData.1]
    decide
  · decide +kernel
  · decide +kernel
  · decide +kernel
  · decide +kernel

theorem sound_textAndData :
    smallMachine.Sound (textAndDataFile 0x401000) (biasOf (textAndDataFile 0x401000) 0x400000)
      (textAndData 0x401000) := by
  have hbias : biasOf (textAndDataFile 0x401000) 0x400000 = 0 := by decide +kernel
  rw [hbias]
  -- the text byte, and the data byte
  have hcases : ∀ ph ∈ textAndData 0x401000, ∀ x, ph.va 0 ≤ x → x < ph.va 0 + 1 →
      ph = ⟨ptLoad, 5, 176, 0x400000, 1, 1⟩ ∧ x = 0x400000 ∨
      ph = ⟨ptLoad, 6, 177, 0x401000, 1, 1⟩ ∧ x = 0x401000 := by
    intro ph hph x h1 h2
    simp only [textAndData, mem_cons, not_mem_nil, or_false] at hph
    obtain rfl | rfl := hph
    · have hva : Phdr.va 0 ⟨ptLoad, 5, 176, 0x400000, 1, 1⟩ = 0x400000 := by decide
      exact .inl ⟨rfl, by omega⟩
    · have hva : Phdr.va 0 ⟨ptLoad, 6, 177, 0x401000, 1, 1⟩ = 0x401000 := by decide
      exact .inr ⟨rfl, by omega⟩
  have hsize : ∀ ph ∈ textAndData 0x401000, ph.filesz = 1 ∧ ph.memsz = 1 := by decide
  refine ⟨by decide, fun ph hph x h1 h2 => .inl ?_, fun ph hph x h1 h2 k hk => ?_,
    fun ph hph x h1 h2 => ?_, fun ph hph hw x h1 h2 => ?_⟩
  · rw [(hsize ph hph).1] at h2
    obtain ⟨rfl, rfl⟩ | ⟨rfl, rfl⟩ := hcases ph hph x h1 h2
    · exact ⟨_, hph, by decide⟩
    · exact ⟨_, hph, by decide⟩
  · rw [(hsize ph hph).1] at h2
    obtain ⟨hk1, hk2⟩ := hk.mem
    simp only [textAndData, mem_cons, not_mem_nil, or_false] at hk1
    obtain ⟨rfl, rfl⟩ | ⟨rfl, rfl⟩ := hcases ph hph x h1 h2
    · obtain rfl | rfl := hk1
      · decide +kernel
      · exact absurd hk2 (by decide +kernel)
    · obtain rfl | rfl := hk1
      · exact absurd hk2 (by decide +kernel)
      · decide +kernel
  · rw [(hsize ph hph).1] at h1
    rw [(hsize ph hph).2] at h2
    omega
  · rw [(hsize ph hph).2] at h2
    obtain ⟨rfl, rfl⟩ | ⟨rfl, rfl⟩ := hcases ph hph x h1 h2
    · exact absurd hw (by decide)
    · decide

theorem whp_reads_back_textAndData :
    (smallMachine.whpLoadElf (some (textAndDataFile 0x401000)) 0x400000).2.ReadsBack
      (textAndDataFile 0x401000) (biasOf (textAndDataFile 0x401000) 0x400000)
      ⟨ptLoad, 5, 176, 0x400000, 1, 1⟩ ∧
      (smallMachine.whpLoadElf (some (textAndDataFile 0x401000)) 0x400000).2.ReadsBack
      (textAndDataFile 0x401000) (biasOf (textAndDataFile 0x401000) 0x400000)
      ⟨ptLoad, 6, 177, 0x401000, 1, 1⟩ := by
  have hok : (smallMachine.whpLoadElf (some (textAndDataFile 0x401000)) 0x400000).1.toBool := by
    decide +kernel
  generalize hr : smallMachine.whpLoadElf (some (textAndDataFile 0x401000)) 0x400000 = r at hok
  obtain ⟨_ | img, vm'⟩ := r
  · cases hok
  have hclear : ∀ ph ∈ segments (textAndDataFile 0x401000),
      smallMachine.Clear (biasOf (textAndDataFile 0x401000) 0x400000) ph := by
    have hbias : biasOf (textAndDataFile 0x401000) 0x400000 = 0 := by decide +kernel
    rw [segments_textAndData.2, hbias]
    intro ph hph
    simp only [textAndData, mem_cons, not_mem_nil, or_false] at hph
    obtain rfl | rfl := hph
    · exact ⟨by decide, by decide⟩
    · exact ⟨by decide, by decide⟩
  have hfit : HeadersFit longBits (ehdr (textAndDataFile 0x401000)) := by
    unfold HeadersFit
    decide +kernel
  have := (whp_reads_back_iff booting_smallMachine hfit hclear hr).2
  rw [segments_textAndData.2] at this
  exact ⟨this sound_textAndData _ mem_cons_self, this sound_textAndData _ (.tail _ (.head _))⟩

end Machine

end Linuxity.Whp

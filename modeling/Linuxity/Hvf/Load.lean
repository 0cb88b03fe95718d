import Linuxity.Loader.Elf

/-!
# Hvf.Load — loading an ELF image on the macOS backend (`runtime/darwin/load.hpp`)

Guest RAM is one flat range.  The bottom of it, up to `priv_end`, belongs to the hypervisor: the
vectors and the page tables.  On a machine with enough RAM a window of it is given to the guest.
-/

namespace Linuxity.Hvf

open Logic Mem Loader

/-! ## The layout (`HvfLayout`) -/

def block : ℕ := 0x200000

def gib : ℕ := 0x40000000

def nonpieBase : ℕ := 0x400000

def nonpieSize : ℕ := 0x7c00000

def nL2 (ram : ℕ) : ℕ := (ram + gib - 1) / gib

def l3Tables (ram : ℕ) : ℕ :=
  let afterL2 := 0x2000 + nL2 ram * 0x1000 + 512 * 16
  let floor := nonpieBase + nonpieSize
  if ram < gib ∨ ram < floor + ram / block * 0x1000 + block then afterL2
  else if floor < afterL2 then afterL2 else floor

def privEnd (ram : ℕ) : ℕ := (l3Tables ram + ram / block * 0x1000 + block - 1) / block * block

def hasNonpieWindow (ram : ℕ) : Bool := nonpieBase + nonpieSize ≤ l3Tables ram

def isNonpieWindow (a : ℕ) : Bool := nonpieBase ≤ a && a < nonpieBase + nonpieSize

structure Machine where
  size : ℕ
  ram : Memory := fun _ => 0

/-- `init` rounds the size to blocks and takes at most 36 bits of addresses. -/
def Machine.Sized (vm : Machine) : Prop := vm.size % block = 0 ∧ 0 < vm.size ∧ vm.size ≤ 2 ^ 36

namespace Machine

variable (vm : Machine)

def holeBeg : ℕ := if hasNonpieWindow vm.size then nonpieBase else 0

def holeEnd : ℕ := if hasNonpieWindow vm.size then nonpieBase + nonpieSize else 0

/-- `GuestRam::permits`, with its subtraction in 64 bits. -/
def permits (gpa n : ℕ) : Bool :=
  if vm.size ≤ gpa ∨ vm.size - gpa < n then false
  else if privEnd vm.size ≤ gpa then true
  else vm.holeBeg ≤ gpa && n ≤ wrap (vm.holeEnd + 2 ^ 64 - gpa)

def hasSpan (gpa n : ℕ) : Bool := vm.permits gpa n && n != 0

def zero (gpa n : ℕ) : Machine :=
  if vm.hasSpan gpa n then { vm with ram := zeroed vm.ram gpa n } else vm

def longBits : ℕ := 64

def emAarch64 : ℕ := 183

def copySegment (file : File) (bias : ℕ) (ph : Phdr) (vm : Machine) :
    Except LoadErrno Unit × Machine :=
  if vm.hasSpan (ph.va bias) ph.filesz then
    match seekPos longBits ph.offset with
    | none => (.error .enoexec, vm)
    | some pos =>
      let bs := readAt file pos ph.filesz
      (if bs.length = ph.filesz then .ok () else .error .enoexec,
        { vm with ram := putBytes vm.ram (ph.va bias) bs })
  else (.error .enomem, vm)

def loadSegment (file : File) (bias : ℕ) (ph : Phdr) (vm : Machine) :
    Except LoadErrno Unit × Machine :=
  if vm.hasSpan (ph.first bias) (ph.len bias) then
    let vm := vm.zero (ph.first bias) (ph.len bias)
    if ph.filesz = 0 then (.ok (), vm) else copySegment file bias ph vm
  else (.error .enomem, vm)

def hvfLoadElf (file : Option File) (bias : ℕ) : Except LoadErrno Image × Machine :=
  loadElf loadSegment emAarch64 longBits file bias vm

def Private (x : ℕ) : Prop :=
  x < privEnd vm.size ∧ ¬(hasNonpieWindow vm.size ∧ isNonpieWindow x)

def byteAt (x : ℕ) : Option UInt8 := if x < vm.size then some (vm.ram x) else none

/-! ## What a segment writes -/

section Segment

variable (size : ℕ) (file : File) (bias : ℕ) (ph : Phdr)

/-- The range of a segment has a span on a machine of this size: RAM contents play no part. -/
def spans : Bool := (⟨size, fun _ => 0⟩ : Machine).hasSpan (ph.first bias) (ph.len bias)

/-- The bytes that are copied, be it that the file ends before them. -/
def copied : List UInt8 :=
  if (⟨size, fun _ => 0⟩ : Machine).hasSpan (ph.va bias) ph.filesz then
    match seekPos longBits ph.offset with
    | none => []
    | some pos => readAt file pos ph.filesz
  else []

def loads : Bool := spans size bias ph && (copied size file bias ph).length == ph.filesz

/-- The writes of a segment, whether or not it loads. -/
def writes : Brush Phdr ℕ UInt8 where
  touches ph x := spans size bias ph && (ph.first bias ≤ x && x < ph.first bias + ph.len bias ||
      ph.va bias ≤ x && x < ph.va bias + (copied size file bias ph).length)
  leaves ph x :=
    if ph.va bias ≤ x ∧ x < ph.va bias + (copied size file bias ph).length then
      ((copied size file bias ph)[x - ph.va bias]?).getD 0
    else 0

def reached : List Phdr → List Phdr
  | [] => []
  | ph :: phs => ph :: if loads size file bias ph then reached phs else []

end Segment

/-- A segment whose pages begin in the private area, above the window if there is one: there
`hole_end_ - gpa` wraps, and the check lets any length pass. -/
def Stray (size bias : ℕ) (ph : Phdr) : Prop :=
  spans size bias ph ∧ (⟨size, fun _ => 0⟩ : Machine).holeEnd < ph.first bias ∧
    ph.first bias < privEnd size

def reachedIn (size : ℕ) (file : File) (bias : ℕ) : List Phdr :=
  if acceptable emAarch64 (readAt file 0 sizeofEhdr) then
    reached size file (biasOf file bias) (loadsFrom longBits file (ehdr file) (ehdr file).phnum 0)
  else []

section Writes

variable {vm : Machine} {size : ℕ} {file : File} {bias x : ℕ} {ph : Phdr} {phs : List Phdr}

theorem hasSpan_iff {gpa n : ℕ} : vm.hasSpan gpa n ↔ gpa < vm.size ∧ n ≤ vm.size - gpa ∧ n ≠ 0 ∧
    (privEnd vm.size ≤ gpa ∨ vm.holeBeg ≤ gpa ∧ n ≤ wrap (vm.holeEnd + 2 ^ 64 - gpa)) := by
  rw [hasSpan, permits, Bool.and_eq_true, bne_iff_ne]
  split_ifs with h1 h2
  · simp only [false_and, false_iff]
    omega
  · simp only [true_and]
    omega
  · simp only [Bool.and_eq_true, decide_eq_true_eq]
    omega

theorem touches_writes :
    (writes size file bias).touches ph x ↔
      spans size bias ph ∧
      (ph.first bias ≤ x ∧ x < ph.first bias + ph.len bias ∨
        ph.va bias ≤ x ∧ x < ph.va bias + (copied size file bias ph).length) := by
  simp only [writes, Bool.and_eq_true, Bool.or_eq_true, decide_eq_true_eq]

theorem fill_eq_writes {m : Memory} (hs : spans size bias ph) :
    putBytes (zeroed m (ph.first bias) (ph.len bias)) (ph.va bias) (copied size file bias ph) =
      (writes size file bias).paint m ph := by
  funext x
  rw [fill_apply, Brush.paint]
  by_cases hf : ph.va bias ≤ x ∧ x < ph.va bias + (copied size file bias ph).length
  · rw [if_pos hf, if_pos (touches_writes.2 ⟨hs, .inr hf⟩)]
    exact (if_pos hf).symm
  rw [if_neg hf]
  refine if_congr ?_ (if_neg hf).symm rfl
  rw [touches_writes, and_iff_right hs, or_iff_left hf]

theorem putBytes_nil {m : Memory} {a : ℕ} : putBytes m a [] = m :=
  funext fun b => putBytes_of_apart (by simp; omega)

/-- A segment writes what `writes` says, and loads when `loads` says so. -/
theorem loadSegment_eq :
    (loadSegment file bias ph vm).2 =
        { vm with ram := (writes vm.size file bias).paint vm.ram ph } ∧
      ((loadSegment file bias ph vm).1 = .ok () ↔ loads vm.size file bias ph) := by
  have hspan : vm.hasSpan (ph.first bias) (ph.len bias) = spans vm.size bias ph := rfl
  rw [loadSegment, loads, Bool.and_eq_true, beq_iff_eq]
  by_cases hs : spans vm.size bias ph
  · rw [if_pos (hspan.trans hs), zero, if_pos (hspan.trans hs), ← fill_eq_writes hs]
    by_cases h0 : ph.filesz = 0
    · have hnil : copied vm.size file bias ph = [] := by
        rw [copied, h0, if_neg]
        simp [hasSpan]
      rw [if_pos h0, hnil, putBytes_nil]
      simp [hs, h0]
    rw [if_neg h0, copySegment, copied]
    have hsame : ({ vm with ram := zeroed vm.ram (ph.first bias) (ph.len bias) } : Machine).hasSpan
        (ph.va bias) ph.filesz = (⟨vm.size, fun _ => 0⟩ : Machine).hasSpan (ph.va bias) ph.filesz :=
      rfl
    rw [hsame]
    by_cases hva : (⟨vm.size, fun _ => 0⟩ : Machine).hasSpan (ph.va bias) ph.filesz
    · rw [if_pos hva, if_pos hva]
      cases seekPos longBits ph.offset with
      | none =>
        rw [putBytes_nil]
        exact ⟨rfl, nofun, fun h => absurd h.2.symm h0⟩
      | some pos =>
        dsimp only
        refine ⟨rfl, ?_⟩
        split_ifs with hlen
        · simp [hs, hlen]
        · simp [hlen]
    · rw [if_neg hva, if_neg hva, putBytes_nil]
      exact ⟨rfl, nofun, fun h => absurd h.2.symm h0⟩
  · rw [if_neg fun h => hs (hspan.symm.trans h)]
    have hpaint : (writes vm.size file bias).paint vm.ram ph = vm.ram :=
      funext fun x => if_neg fun h => hs (touches_writes.1 h).1
    rw [hpaint]
    exact ⟨rfl, nofun, fun h => absurd h.1 hs⟩

theorem runSegs_eq :
    (runSegs (loadSegment file bias) phs vm).2 =
        { vm with
      ram := (writes vm.size file bias).paintAll vm.ram (reached vm.size file bias phs) } ∧
      ((runSegs (loadSegment file bias) phs vm).1 = .ok () ↔
        ∀ ph ∈ phs, loads vm.size file bias ph) := by
  induction phs generalizing vm with
  | nil => exact ⟨rfl, fun _ => List.forall_mem_nil _, fun _ => rfl⟩
  | cons ph phs ih =>
    obtain ⟨h1, h2⟩ := @loadSegment_eq vm file bias ph
    rw [runSegs, reached]
    generalize loadSegment file bias ph vm = r at h1 h2
    obtain ⟨e | _, vm1⟩ := r
    · have hno : loads vm.size file bias ph ≠ true := fun h => by cases h2.2 h
      rw [if_neg hno]
      exact ⟨h1, by rintro ⟨⟩, fun h => absurd (h ph (.head _)) hno⟩
    · have hyes : loads vm.size file bias ph := h2.1 rfl
      rw [if_pos hyes]
      obtain rfl : vm1 = _ := h1
      obtain ⟨h3, h4⟩ := @ih { vm with ram := (writes vm.size file bias).paint vm.ram ph }
      refine ⟨h3, h4.trans ?_⟩
      simp [hyes]

theorem reached_of_loads (h : ∀ ph ∈ phs, loads size file bias ph) :
    reached size file bias phs = phs := by
  induction phs with
  | nil => rfl
  | cons ph phs ih =>
    rw [reached, if_pos (h ph (.head _)), ih fun k hk => h k (.tail _ hk)]

theorem hvfLoadElf_ram (vm : Machine) (file : File) (bias : ℕ) :
    (vm.hvfLoadElf (some file) bias).2 = { vm with
      ram := (writes vm.size file (biasOf file bias)).paintAll vm.ram
        (reachedIn vm.size file bias) } := by
  rw [hvfLoadElf, loadElf, reachedIn]
  dsimp only
  by_cases hacc : acceptable emAarch64 (readAt file 0 sizeofEhdr)
  · rw [if_pos hacc, if_pos hacc, ← runSegs_eq.1]
    have hstate :=
      @loadLoop_state Machine (loadSegment file (biasOf file bias)) longBits file (ehdr file)
      (ehdr file).phnum 0
      false
    generalize hr : loadLoop (loadSegment file (biasOf file bias)) longBits file (ehdr file)
      (ehdr file).phnum 0 false _ vm = r
    rw [← hstate, hr]
    obtain ⟨_ | _, _⟩ := r
    · rfl
    · rfl
  · rw [if_neg hacc, if_neg hacc]
    rfl

end Writes

/-! ## The private area -/

section Private

variable {size : ℕ} {file : File} {bias x : ℕ} {ph : Phdr} {m : Memory}

theorem hole_cases (size : ℕ) :
    hasNonpieWindow size ∧ (⟨size, m⟩ : Machine).holeBeg = 0x400000 ∧
      (⟨size, m⟩ : Machine).holeEnd = 0x8000000 ∧ 0x8000000 ≤ privEnd size ∨
      hasNonpieWindow size = false ∧ (⟨size, m⟩ : Machine).holeBeg = 0 ∧
      (⟨size, m⟩ : Machine).holeEnd = 0 := by
  have hblock : block = 0x200000 := rfl
  have hwin : nonpieBase + nonpieSize = 0x8000000 := rfl
  rw [holeBeg, holeEnd]
  cases h : hasNonpieWindow size with
  | true =>
    rw [hasNonpieWindow, decide_eq_true_eq] at h
    refine .inl ⟨rfl, rfl, rfl, ?_⟩
    rw [privEnd, hblock]
    omega
  | false => exact .inr ⟨rfl, rfl, rfl⟩

theorem private_iff : (⟨size, m⟩ : Machine).Private x ↔
    x < privEnd size ∧ ¬(hasNonpieWindow size ∧ 0x400000 ≤ x ∧ x < 0x8000000) := by
  rw [Private, isNonpieWindow, Bool.and_eq_true, decide_eq_true_eq, decide_eq_true_eq]
  rfl

theorem copied_length :
    (copied size file bias ph).length ≤ ph.filesz ∧
      ((copied size file bias ph).length ≠ 0 →
        (⟨size, fun _ => 0⟩ : Machine).hasSpan (ph.va bias) ph.filesz) := by
  rw [copied]
  split_ifs with h
  · refine ⟨?_, fun _ => h⟩
    cases seekPos longBits ph.offset with
    | none => exact Nat.zero_le _
    | some pos => exact List.length_take_le _ _
  · exact ⟨Nat.zero_le _, fun h => absurd rfl h⟩

/-- A segment that does not stray writes to the guest's part of RAM only. -/
theorem touches_guest (h : (writes size file bias).touches ph x) (hs : ¬Stray size bias ph)
    (hsize : size ≤ 2 ^ 36) : x < size ∧ ¬(⟨size, m⟩ : Machine).Private x := by
  obtain ⟨hspan, hx⟩ := touches_writes.1 h
  obtain ⟨h1, h2, h3, h4⟩ := hasSpan_iff.1 hspan
  obtain ⟨hlen, hcopy⟩ := @copied_length size file bias ph
  have hfirst : ph.first bias ≤ ph.va bias := pageDown_le _
  have hva : ph.va bias < ph.first bias + 4096 := lt_pageDown_add _
  have hmod : ph.first bias % 4096 = 0 := pageDown_mod _
  rw [private_iff]
  -- the copied bytes have a span of their own
  have hcopied : ph.va bias ≤ x ∧ x < ph.va bias + (copied size file bias ph).length →
      ph.va bias + ph.filesz ≤ size ∧
      (privEnd size ≤ ph.va bias ∨ ph.filesz ≤
        wrap ((⟨size, fun _ => 0⟩ : Machine).holeEnd + 2 ^ 64 - ph.va bias)) := by
    intro hr
    obtain ⟨a1, a2, a3, a4⟩ := hasSpan_iff.1 (hcopy (by omega))
    dsimp only at a1 a2 a4
    exact ⟨by omega, a4.imp_right And.right⟩
  dsimp only at h1 h2 h4
  by_cases hpriv : privEnd size ≤ ph.first bias
  · omega
  have hnear : ph.first bias ≤ (⟨size, fun _ => 0⟩ : Machine).holeEnd := by
    by_contra hfar
    exact hs ⟨hspan, by omega, by omega⟩
  obtain ⟨hwin, hb, he, hpe⟩ | ⟨hwin, hb, he⟩ := @hole_cases (fun _ => 0) size
  · rw [hb, he] at h4
    rw [he] at hnear hcopied
    rw [wrap] at h4 hcopied
    refine ⟨by omega, fun h => h.2 ⟨hwin, by omega, by omega⟩⟩
  · rw [he] at h4 hnear
    rw [wrap] at h4
    omega

/-- **No private byte is written exactly when no segment strays.** RAM contents stand for any: a
byte that is never written keeps whatever it holds. -/
theorem private_kept_iff (hsize : size ≤ 2 ^ 36) :
    (∀ m x, (⟨size, m⟩ : Machine).Private x ∨ size ≤ x →
        ((⟨size, m⟩ : Machine).hvfLoadElf (some file) bias).2.ram x = m x) ↔
      ∀ ph ∈ reachedIn size file bias, ¬Stray size (biasOf file bias) ph := by
  constructor
  · intro hkept ph hph hstray
    obtain ⟨hspan, hlow, hhigh⟩ := hstray
    have hne : ph.len (biasOf file bias) ≠ 0 := (hasSpan_iff.1 hspan).2.2.1
    obtain ⟨k, hk⟩ := Brush.exists_last ⟨ph, hph, touches_writes.2 ⟨hspan, .inl ⟨le_rfl, by omega⟩⟩⟩
    -- RAM that holds something else at the first byte of the segment
    have hx := hkept
      (fun _ => (writes size file (biasOf file bias)).leaves k (ph.first (biasOf file bias)) + 1)
      (ph.first (biasOf file bias)) (.inl ?_)
    · rw [hvfLoadElf_ram] at hx
      dsimp only at hx
      rw [hk.paintAll_eq] at hx
      have := congrArg UInt8.toNat hx
      rw [UInt8.toNat_add] at this
      have hone : (1 : UInt8).toNat = 1 := rfl
      omega
    · rw [private_iff]
      obtain ⟨_, _, he, _⟩ | ⟨hwin, _, _⟩ := @hole_cases (fun _ => 0) size
      · rw [he] at hlow
        omega
      · rw [hwin]
        exact ⟨hhigh, fun h => nomatch h.1⟩
  · intro hs m x hx
    rw [hvfLoadElf_ram]
    refine Brush.paintAll_of_untouched fun ph hph => ?_
    rw [← Bool.not_eq_true]
    intro ht
    obtain ⟨h1, h2⟩ := @touches_guest _ _ _ _ _ m ht (hs ph hph) hsize
    exact hx.elim h2 (Nat.not_le.2 h1)

end Private

/-! ## The image reads back -/

/-- The segment is in guest RAM as the file describes it. -/
structure ReadsBack (vm : Machine) (file : File) (bias : ℕ) (ph : Phdr) : Prop where
  copied : ∀ x, ph.va bias ≤ x → x < ph.va bias + ph.filesz →
    ∃ b, file[ph.offset + (x - ph.va bias)]? = some b ∧ vm.byteAt x = some b
  zero : ∀ x, ph.va bias + ph.filesz ≤ x → x < ph.va bias + ph.memsz → vm.byteAt x = some 0

/-- What the segments of a file must be like. -/
structure Sound (file : File) (bias : ℕ) (phs : List Phdr) : Prop where
  /-- No segment runs over the end of the address space. -/
  noWrap : ∀ ph ∈ phs, ph.va bias + ph.memsz < 2 ^ 64
  /-- The last segment to touch a byte leaves there what the byte's segment asks for. -/
  copied : ∀ ph ∈ phs, ∀ x, ph.va bias ≤ x → x < ph.va bias + ph.filesz →
    ∀ k, (segBrush longBits file bias).Last phs x k →
      file[ph.offset + (x - ph.va bias)]? = some ((segBrush longBits file bias).leaves k x)
  zero : ∀ ph ∈ phs, ∀ x, ph.va bias + ph.filesz ≤ x → x < ph.va bias + ph.memsz →
    ∀ k, (segBrush longBits file bias).Last phs x k → (segBrush longBits file bias).leaves k x = 0

section Reads

variable {vm vm' : Machine} {size : ℕ} {file : File} {bias x : ℕ} {ph : Phdr} {img : Image}

/-- A segment that has loaded: its ranges lie in RAM and the file had its bytes. -/
theorem loads_spec (hsize : size ≤ 2 ^ 36) (h : loads size file bias ph) :
    ph.first bias < ph.last bias ∧ ph.first bias + ph.len bias = ph.last bias ∧
      ph.last bias ≤ size ∧ ph.va bias + ph.filesz ≤ size ∧
      copied size file bias ph = segBytes longBits file ph := by
  rw [loads, Bool.and_eq_true, beq_iff_eq] at h
  obtain ⟨hspan, hlen⟩ := h
  obtain ⟨h1, h2, h3, _⟩ := hasSpan_iff.1 hspan
  dsimp only at h1 h2
  have hlast : ph.last bias < 2 ^ 64 := pageUp_lt _
  have hva : ph.va bias < ph.first bias + 4096 := lt_pageDown_add _
  have hpages : ph.first bias < ph.last bias ∧ ph.first bias + ph.len bias = ph.last bias ∧
      ph.last bias ≤ size := by
    rw [Phdr.len, wrap] at h2 h3 ⊢
    omega
  have hmod1 : ph.first bias % 4096 = 0 := pageDown_mod _
  have hmod2 : ph.last bias % 4096 = 0 := pageUp_mod _
  by_cases h0 : ph.filesz = 0
  · refine ⟨hpages.1, hpages.2.1, hpages.2.2, by omega, ?_⟩
    rw [segBytes, h0, readAt, List.take_zero]
    exact List.length_eq_zero_iff.1 (hlen.trans h0)
  · have hs := (@copied_length size file bias ph).2 (by omega)
    obtain ⟨a1, a2, _⟩ := hasSpan_iff.1 hs
    dsimp only at a1 a2
    refine ⟨hpages.1, hpages.2.1, hpages.2.2, by omega, ?_⟩
    rw [copied, if_pos hs] at hlen ⊢
    rw [segBytes]
    cases hseek : seekPos longBits ph.offset with
    | none =>
      rw [hseek] at hlen
      exact absurd hlen.symm h0
    | some pos => rfl

theorem headers_fit (hprod : ∀ i < (ehdr file).phnum, i * (ehdr file).phentsize < 2 ^ 31)
    (hread : ∀ j < (ehdr file).phnum, ∃ ph, headerAt longBits file (ehdr file) (0 + j) = some ph) :
    ∀ i < (ehdr file).phnum, (ehdr file).phoff + i * (ehdr file).phentsize <
      2 ^ (longBits - 1) := by
  have hpos : ∀ i < (ehdr file).phnum,
      wrap ((ehdr file).phoff + i * (ehdr file).phentsize) % 2 ^ 64 < 2 ^ 63 := by
    intro i hi
    obtain ⟨ph, hph⟩ := hread i hi
    rw [Nat.zero_add, headerAt, intProduct, if_pos (hprod i hi), seekPos] at hph
    by_contra hge
    rw [longBits, if_neg (show ¬_ < 2 ^ (64 - 1) from hge)] at hph
    cases hph
  intro i hi
  have h0 := hpos 0 (by omega)
  have h1 := hpos i hi
  have h2 := hprod i hi
  have hoff : (ehdr file).phoff < 2 ^ 64 :=
    (num_lt _).trans_le (Nat.pow_le_pow_right (by decide) (List.length_take_le 8 _))
  rw [Nat.zero_mul, Nat.add_zero] at h0
  rw [wrap] at h0 h1
  change (ehdr file).phoff + i * (ehdr file).phentsize < 2 ^ 63
  omega

/-- A load that succeeds has loaded every segment of the file. -/
theorem hvfLoadElf_ok (hprod : ∀ i < (ehdr file).phnum, i * (ehdr file).phentsize < 2 ^ 31)
    (h : vm.hvfLoadElf (some file) bias = (.ok img, vm')) :
    (∀ ph ∈ segments file, loads vm.size file (biasOf file bias) ph) ∧ vm'.size = vm.size ∧
      vm'.ram = (writes vm.size file (biasOf file bias)).paintAll vm.ram (segments file) := by
  have hram := hvfLoadElf_ram vm file bias
  rw [h] at hram
  dsimp only at hram
  obtain ⟨hacc, hread, hrun, -⟩ := loadElf_ok h
  have hloads := runSegs_eq.2.1 (congrArg Prod.fst hrun)
  have hreached : reachedIn vm.size file bias = segments file := by
    rw [reachedIn, if_pos hacc, reached_of_loads hloads]
    exact loadsFrom_eq (by decide)
      (fun j hj => by rw [Nat.zero_add]; exact ⟨hprod j hj, headers_fit hprod hread j hj⟩) hread
  rw [reachedIn, if_pos hacc, reached_of_loads hloads] at hreached
  rw [reachedIn, if_pos hacc, reached_of_loads hloads, hreached] at hram
  rw [hreached] at hloads
  rw [hram]
  exact ⟨hloads, rfl, rfl⟩

theorem writes_agree (hsize : size ≤ 2 ^ 36) (h : loads size file bias ph) :
    (segBrush longBits file bias).touches ph x = (writes size file bias).touches ph x ∧
      (segBrush longBits file bias).leaves ph x = (writes size file bias).leaves ph x := by
  obtain ⟨_, hlen, _, _, hcopy⟩ := loads_spec hsize h
  rw [loads, Bool.and_eq_true, beq_iff_eq] at h
  constructor
  · rw [Bool.eq_iff_iff, touches_iff, touches_writes, hlen, h.2]
    exact (and_iff_right h.1).symm
  · simp only [segBrush, writes, h.2]
    rw [hcopy]

/-- **A load that succeeds reads back exactly when its segments are sound.** -/
theorem reads_back_iff (hsize : vm.size ≤ 2 ^ 36)
    (hprod : ∀ i < (ehdr file).phnum, i * (ehdr file).phentsize < 2 ^ 31)
    (h : vm.hvfLoadElf (some file) bias = (.ok img, vm')) :
    (∀ ph ∈ segments file, vm'.ReadsBack file (biasOf file bias) ph) ↔
      Sound file (biasOf file bias) (segments file) := by
  obtain ⟨hloads, hsame, hram⟩ := hvfLoadElf_ok hprod h
  generalize biasOf file bias = bias at hloads hram ⊢
  generalize segments file = phs at hloads hram ⊢
  have hspec := fun ph hph => loads_spec hsize (hloads ph hph)
  have hcore := @reads_back_iff_last longBits bias file phs vm'.byteAt (fun _ => True)
    (fun ph hph => ⟨(hspec ph hph).1, fun _ _ _ => trivial⟩)
    (fun ph hph => ⟨vm.size, by omega, (hspec ph hph).2.2.2.1, if_neg (by omega)⟩)
      (fun _ _ _ _ _ _ _ => trivial)
    (fun ph hph x h1 h2 _ k hk => by
      obtain ⟨_, _, hle, hva, _⟩ := hspec ph hph
      rw [byteAt, if_pos (by omega), hram,
          ← Brush.paintAll_agree fun k hk => writes_agree hsize (hloads k hk), hk.paintAll_eq])
  constructor
  · intro hr
    obtain ⟨h1, -, h3, h4⟩ := hcore.1 fun ph hph => ⟨(hr ph hph).copied, (hr ph hph).zero⟩
    exact ⟨h1, h3, h4⟩
  · intro hs ph hph
    obtain ⟨h1, h2⟩ := hcore.2 ⟨hs.noWrap, fun _ _ _ _ _ => trivial, hs.copied, hs.zero⟩ ph hph
    exact ⟨h1, h2⟩

end Reads

/-- **What an image load does to guest RAM.** It keeps clear of the private area and of everything
outside RAM exactly when no segment strays, and it reads back exactly when the segments are
sound. -/
theorem hvf_image_iff {vm : Machine} (hvm : vm.Sized) (file : File) (bias : ℕ) :
    ((∀ m x, (⟨vm.size, m⟩ : Machine).Private x ∨ vm.size ≤ x →
        ((⟨vm.size, m⟩ : Machine).hvfLoadElf (some file) bias).2.ram x = m x) ↔
      ∀ ph ∈ reachedIn vm.size file bias, ¬Stray vm.size (biasOf file bias) ph) ∧
    ∀ img vm', (∀ i < (ehdr file).phnum, i * (ehdr file).phentsize < 2 ^ 31) →
      vm.hvfLoadElf (some file) bias = (.ok img, vm') →
      ((∀ ph ∈ segments file, vm'.ReadsBack file (biasOf file bias) ph) ↔
        Sound file (biasOf file bias) (segments file)) := by
  obtain ⟨_, _, hsize⟩ := hvm
  exact ⟨private_kept_iff hsize, fun img vm' hprod h => reads_back_iff hsize hprod h⟩

/-! ## A segment in the page tables -/

def bigMachine : Machine := { size := 0x80000000 }

theorem bigMachine_sized : bigMachine.Sized := ⟨by decide, by decide, by decide⟩

def strayFile : File := fileOf emAarch64 [⟨ptLoad, 6, 120, 0x8001000, 1, 1⟩] [0xaa]

def sharedFile : File :=
  fileOf emAarch64 [⟨ptLoad, 5, 176, 0x400000, 1, 1⟩, ⟨ptLoad, 6, 177, 0x400800, 1, 1⟩] [0xaa, 0xbb]

/-- A byte of the page tables is overwritten, and a byte of the text is erased. -/
theorem private_overwritten :
    bigMachine.Sized ∧ bigMachine.Private 0x8001000 ∧
      (bigMachine.hvfLoadElf (some strayFile) 0x8400000).2.ram 0x8001000 = 0xaa ∧
      bigMachine.ram 0x8001000 = 0 ∧ (segments sharedFile).Pairwise Phdr.Disjoint ∧
      (bigMachine.hvfLoadElf (some sharedFile) 0x8400000).1.toBool = true ∧
      sharedFile[176]? = some 0xaa ∧
      (bigMachine.hvfLoadElf (some sharedFile) 0x8400000).2.byteAt 0x400000 = some 0 := by
  refine ⟨bigMachine_sized, ?_, by decide +kernel, rfl,
    ?_, by decide +kernel, by decide +kernel, by decide +kernel⟩
  · exact private_iff.2 ⟨by decide +kernel, fun h => absurd h.2.2 (by decide)⟩
  · have : segments sharedFile =
      [⟨ptLoad, 5, 176, 0x400000, 1, 1⟩, ⟨ptLoad, 6, 177, 0x400800, 1, 1⟩] := by decide +kernel
    rw [this]
    decide

def plainFile : File := fileOf emAarch64 [⟨ptLoad, 5, 120, 0x400000, 1, 1⟩] [0xaa]

theorem hvf_image_plainFile :
    (⟨bigMachine.size, bigMachine.ram⟩ : Machine).Private 0x8001000 ∧
      ((⟨bigMachine.size, bigMachine.ram⟩ : Machine).hvfLoadElf (some plainFile) 0x8400000).2.ram
      0x8001000 = bigMachine.ram 0x8001000 := by
  have hreached : reachedIn bigMachine.size plainFile 0x8400000 =
    [⟨ptLoad, 5, 120, 0x400000, 1, 1⟩] := by decide +kernel
  have hiff := (hvf_image_iff bigMachine_sized plainFile 0x8400000).1
  rw [hreached] at hiff
  have hprivate : (⟨bigMachine.size, bigMachine.ram⟩ : Machine).Private 0x8001000 :=
    private_iff.2 ⟨by decide +kernel, fun h => absurd h.2.2 (by decide)⟩
  refine ⟨hprivate, hiff.2 (fun ph hph hstray => ?_) _ _ (.inl hprivate)⟩
  obtain rfl := List.mem_singleton.1 hph
  exact absurd hstray.2.1 (by decide +kernel)

end Machine

end Linuxity.Hvf

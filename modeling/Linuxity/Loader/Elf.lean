import Linuxity.Logic.Memory
import Linuxity.Logic.Paint
import Linuxity.Mem.Vma

/-!
# Loader.Elf — ELF files and the loop of the emulated loaders (`loader/elf.hpp`)

`whp_load_elf` and `hvf_load_elf` walk the program headers in the same way and differ in what they
do with a segment, so the walk is one definition over the machine and the segment's function.
-/

namespace Linuxity.Loader

open Logic Mem

abbrev File := List UInt8

def num (bs : List UInt8) : ℕ := bs.foldr (fun b n => b.toNat + 256 * n) 0

def readAt (file : File) (pos n : ℕ) : List UInt8 := (file.drop pos).take n

/-- Where `fseek` goes for an offset cast to a `long` of `bits` bits; it refuses a negative one. -/
def seekPos (bits off : ℕ) : Option ℕ :=
  if off % 2 ^ bits < 2 ^ (bits - 1) then some (off % 2 ^ bits) else none

structure Ehdr where
  ident : List UInt8
  type : ℕ
  machine : ℕ
  entry : ℕ
  phoff : ℕ
  phentsize : ℕ
  phnum : ℕ
  deriving DecidableEq

structure Phdr where
  type : ℕ
  flags : ℕ
  offset : ℕ
  vaddr : ℕ
  filesz : ℕ
  memsz : ℕ
  deriving DecidableEq

def Ehdr.decode (bs : List UInt8) : Ehdr where
  ident := bs.take 16
  type := num (readAt bs 16 2)
  machine := num (readAt bs 18 2)
  entry := num (readAt bs 24 8)
  phoff := num (readAt bs 32 8)
  phentsize := num (readAt bs 54 2)
  phnum := num (readAt bs 56 2)

def Phdr.decode (bs : List UInt8) : Phdr where
  type := num (readAt bs 0 4)
  flags := num (readAt bs 4 4)
  offset := num (readAt bs 8 8)
  vaddr := num (readAt bs 16 8)
  filesz := num (readAt bs 32 8)
  memsz := num (readAt bs 40 8)

def sizeofEhdr : ℕ := 64

def sizeofPhdr : ℕ := 56

def etDyn : ℕ := 3

def ptLoad : ℕ := 1

def ptPhdr : ℕ := 6

def kPfX : ℕ := 1

def kPfW : ℕ := 2

def kClass64 : UInt8 := 2

theorem num_lt (bs : List UInt8) : num bs < 256 ^ bs.length := by
  induction bs with
  | nil => exact Nat.one_pos
  | cons b bs ih =>
    have := b.toNat_lt
    rw [num, List.foldr_cons, ← num, List.length_cons, pow_succ']
    omega

/-! ## A segment in memory -/

namespace Phdr

variable (bias : ℕ) (ph : Phdr)

def va : ℕ := wrap (bias + ph.vaddr)

/-- The page range `[first, last)` of the segment. -/
def first : ℕ := pageDown (ph.va bias)

def last : ℕ := pageUp (wrap (ph.va bias + ph.memsz))

def len : ℕ := wrap (ph.last bias + 2 ^ 64 - ph.first bias)

def writable : Bool := ph.flags &&& kPfW != 0

def executable : Bool := ph.flags &&& kPfX != 0

end Phdr

/-! ## The headers -/

/-- The product of two `uint16_t`, which is an `int`, in 64 bits. -/
def intProduct (i n : ℕ) : ℕ := if i * n < 2 ^ 31 then i * n else 2 ^ 64 - 2 ^ 32 + i * n

def decodeAt (file : File) (pos : ℕ) : Option Phdr :=
  let bs := readAt file pos sizeofPhdr
  if bs.length = sizeofPhdr then some (.decode bs) else none

def headerAt (bits : ℕ) (file : File) (eh : Ehdr) (i : ℕ) : Option Phdr :=
  (seekPos bits (wrap (eh.phoff + intProduct i eh.phentsize))).bind (decodeAt file)

structure Segment where
  first : ℕ
  last : ℕ
  flags : ℕ
  deriving DecidableEq

structure Image where
  entry : ℕ := 0
  phdrAddr : ℕ
  phnum : ℕ
  phent : ℕ
  imageEnd : ℕ := 0
  loadBias : ℕ
  segments : List Segment := []
  deriving DecidableEq

def Image.add (img : Image) (ph : Phdr) : Image :=
  { img with
    imageEnd := max img.imageEnd (ph.last img.loadBias)
    segments := img.segments ++ [⟨ph.first img.loadBias, ph.last img.loadBias, ph.flags⟩] }

inductive LoadErrno where
  | enoent | enoexec | enomem
  deriving DecidableEq

section Loop

variable {σ : Type} (seg : Phdr → σ → Except LoadErrno Unit × σ) (bits : ℕ) (file : File)
  (eh : Ehdr)

/-- `n` turns of the loop over the headers, from header `i` on. -/
def loadLoop : ℕ → ℕ → Bool → Image → σ → Except LoadErrno Image × σ
  | 0, _, _, img, s => (.ok img, s)
  | n + 1, i, havePtPhdr, img, s =>
    match headerAt bits file eh i with
    | none => (.error .enoexec, s)
    | some ph =>
      let img :=
        if ph.type = ptPhdr then { img with phdrAddr := wrap (img.loadBias + ph.vaddr) } else img
      let havePtPhdr := havePtPhdr || ph.type == ptPhdr
      if ph.type ≠ ptLoad then loadLoop n (i + 1) havePtPhdr img s
      else
        let img :=
          if havePtPhdr = false ∧ ph.offset ≤ eh.phoff ∧
            eh.phoff < wrap (ph.offset + ph.filesz) then
            { img with phdrAddr := wrap (img.loadBias + ph.vaddr + (eh.phoff - ph.offset)) }
          else img
        match seg ph s with
        | (.error e, s) => (.error e, s)
        | (.ok _, s) => loadLoop n (i + 1) havePtPhdr (img.add ph) s

def runSegs : List Phdr → σ → Except LoadErrno Unit × σ
  | [], s => (.ok (), s)
  | ph :: phs, s =>
    match seg ph s with
    | (.error e, s) => (.error e, s)
    | (.ok _, s) => runSegs phs s

/-- The PT_LOAD headers before the first header that cannot be read. -/
def loadsFrom : ℕ → ℕ → List Phdr
  | 0, _ => []
  | n + 1, i =>
    match headerAt bits file eh i with
    | none => []
    | some ph => if ph.type ≠ ptLoad then loadsFrom n (i + 1) else ph :: loadsFrom n (i + 1)

end Loop

def magic : List UInt8 := [0x7f, 0x45, 0x4c, 0x46]

def acceptable (machine : ℕ) (bs : List UInt8) : Bool :=
  bs.length == sizeofEhdr && (Ehdr.decode bs).ident.take 4 == magic &&
    (Ehdr.decode bs).ident[4]? == some kClass64 &&
    (Ehdr.decode bs).machine == machine

def ehdr (file : File) : Ehdr := .decode (readAt file 0 sizeofEhdr)

def biasOf (file : File) (bias : ℕ) : ℕ := if (ehdr file).type = etDyn then bias else 0

def loadElf {σ : Type} (seg : File → ℕ → Phdr → σ → Except LoadErrno Unit × σ) (machine bits : ℕ)
    (file : Option File) (bias : ℕ) (s : σ) : Except LoadErrno Image × σ :=
  match file with
  | none => (.error .enoent, s)
  | some file =>
    if acceptable machine (readAt file 0 sizeofEhdr) then
      let eh := ehdr file
      let bias := biasOf file bias
      let img : Image :=
        { phdrAddr := wrap (bias + eh.phoff), phnum := eh.phnum, phent := eh.phentsize,
          loadBias := bias }
      match loadLoop (seg file bias) bits file eh eh.phnum 0 false img s with
      | (.error e, s) => (.error e, s)
      | (.ok img, s) => (.ok { img with entry := wrap (bias + eh.entry) }, s)
    else (.error .enoexec, s)

/-! ## What the loop does -/

section Loop

variable {σ : Type} {seg : Phdr → σ → Except LoadErrno Unit × σ} {bits : ℕ} {file : File}
  {eh : Ehdr}

theorem loadLoop_state (n i : ℕ) (havePhdr : Bool) (img : Image) (s : σ) :
    (loadLoop seg bits file eh n i havePhdr img s).2 =
      (runSegs seg (loadsFrom bits file eh n i) s).2 := by
  induction n generalizing i havePhdr img s with
  | zero => rfl
  | succ n ih =>
    rw [loadLoop, loadsFrom]
    cases headerAt bits file eh i with
    | none => rfl
    | some ph =>
      dsimp only
      by_cases hload : ph.type = ptLoad
      · rw [if_neg (not_not.2 hload), if_neg (not_not.2 hload), runSegs]
        rcases seg ph s with ⟨e | _, s'⟩
        · rfl
        · exact ih _ _ _ _
      · rw [if_pos hload, if_pos hload]
        exact ih _ _ _ _

/-- A loop that succeeds has read every header, run every segment and recorded it. -/
theorem loadLoop_ok {n i : ℕ} {havePhdr : Bool} {img img' : Image} {s s' : σ}
    (h : loadLoop seg bits file eh n i havePhdr img s = (.ok img', s')) :
    (∀ j < n, ∃ ph, headerAt bits file eh (i + j) = some ph) ∧
      runSegs seg (loadsFrom bits file eh n i) s = (.ok (), s') ∧ img'.loadBias = img.loadBias ∧
      img'.segments = img.segments ++ (loadsFrom bits file eh n i).map fun ph =>
      ⟨ph.first img.loadBias, ph.last img.loadBias, ph.flags⟩ := by
  induction n generalizing i havePhdr img s with
  | zero =>
    obtain ⟨h1, rfl⟩ := Prod.mk.inj h
    cases h1
    exact ⟨fun j hj => absurd hj (Nat.not_lt_zero j), rfl,
      rfl, by rw [loadsFrom, List.map_nil, List.append_nil]⟩
  | succ n ih =>
    rw [loadLoop] at h
    rw [loadsFrom]
    have hread {ph : Phdr} (hh : headerAt bits file eh i = some ph)
        (hrest : ∀ j < n, ∃ ph, headerAt bits file eh (i + 1 + j) = some ph) :
        ∀ j < n + 1, ∃ ph, headerAt bits file eh (i + j) = some ph := by
      intro j hj
      cases j with
      | zero => exact ⟨ph, hh⟩
      | succ j =>
        rw [show i + (j + 1) = i + 1 + j by omega]
        exact hrest j (by omega)
    cases hh : headerAt bits file eh i with
    | none =>
      rw [hh] at h
      cases h
    | some ph =>
      rw [hh] at h
      dsimp only at h ⊢
      by_cases hload : ph.type = ptLoad
      · rw [if_neg (not_not.2 hload)] at h ⊢
        rw [runSegs]
        obtain ⟨⟨e | _, s1⟩, hs⟩ : ∃ x, seg ph s = x := ⟨_, rfl⟩
        · rw [hs] at h
          cases h
        rw [hs] at h ⊢
        obtain ⟨h1, h2, h3, h4⟩ := ih h
        refine ⟨hread hh h1, h2, ?_, ?_⟩
        · rw [h3, Image.add]
          split_ifs <;> rfl
        · rw [h4, List.map_cons, Image.add]
          split_ifs <;> simp
      · rw [if_pos hload] at h ⊢
        obtain ⟨h1, h2, h3, h4⟩ := ih h
        refine ⟨hread hh h1, h2, ?_, ?_⟩
        · rw [h3]
          split_ifs <;> rfl
        · rw [h4]
          split_ifs <;> rfl

theorem loadElf_ok {seg : File → ℕ → Phdr → σ → Except LoadErrno Unit × σ} {machine bias : ℕ}
    {img : Image} {s s' : σ} (h : loadElf seg machine bits (some file) bias s = (.ok img, s')) :
    acceptable machine (readAt file 0 sizeofEhdr) ∧
      (∀ j < (ehdr file).phnum, ∃ ph, headerAt bits file (ehdr file) (0 + j) = some ph) ∧
      runSegs (seg file (biasOf file bias)) (loadsFrom bits file (ehdr file) (ehdr file).phnum 0)
      s = (.ok (), s') ∧ img.segments =
        (loadsFrom bits file (ehdr file) (ehdr file).phnum 0).map fun ph =>
      ⟨ph.first (biasOf file bias), ph.last (biasOf file bias), ph.flags⟩ := by
  rw [loadElf] at h
  dsimp only at h
  split_ifs at h with hacc
  · generalize hl : loadLoop (seg file (biasOf file bias)) bits file (ehdr file) (ehdr file).phnum 0
      false _ s = r at h
    obtain ⟨_ | img0, s0⟩ := r
    · cases h
    obtain ⟨himg, rfl⟩ := Prod.mk.inj h
    cases himg
    obtain ⟨hread, hrun, -, hsegs⟩ := loadLoop_ok hl
    exact ⟨hacc, hread, hrun, hsegs⟩
  · cases h

end Loop

/-! ## The segments of a file -/

/-- The PT_LOAD segments that the program headers of the file describe. -/
def segmentsFrom (file : File) (eh : Ehdr) : ℕ → ℕ → List Phdr
  | 0, _ => []
  | n + 1, i =>
    match decodeAt file (eh.phoff + i * eh.phentsize) with
    | none => segmentsFrom file eh n (i + 1)
    | some ph =>
      if ph.type ≠ ptLoad then segmentsFrom file eh n (i + 1)
      else ph :: segmentsFrom file eh n (i + 1)

def segments (file : File) : List Phdr := segmentsFrom file (ehdr file) (ehdr file).phnum 0

/-- The offsets of the headers are in reach of `fseek`. -/
def HeadersFit (bits : ℕ) (eh : Ehdr) : Prop :=
  ∀ i < eh.phnum, i * eh.phentsize < 2 ^ 31 ∧ eh.phoff + i * eh.phentsize < 2 ^ (bits - 1)

theorem headerAt_eq {bits : ℕ} {file : File} {eh : Ehdr} {i : ℕ} (hbits : bits - 1 < 64)
    (hi : i * eh.phentsize < 2 ^ 31) (h : eh.phoff + i * eh.phentsize < 2 ^ (bits - 1)) :
    headerAt bits file eh i = decodeAt file (eh.phoff + i * eh.phentsize) := by
  have h64 : 2 ^ (bits - 1) ≤ 2 ^ 64 := Nat.pow_le_pow_right (by decide) (by omega)
  have hle : 2 ^ (bits - 1) ≤ 2 ^ bits := Nat.pow_le_pow_right (by decide) (by omega)
  rw [headerAt, intProduct, if_pos hi, wrap_of_lt (by omega), seekPos, Nat.mod_eq_of_lt (by omega),
    if_pos h, Option.bind_some]

theorem loadsFrom_eq {bits : ℕ} {file : File} {eh : Ehdr} {n i : ℕ} (hbits : bits - 1 < 64)
    (hfit : ∀ j < n, (i + j) * eh.phentsize < 2 ^ 31 ∧
        eh.phoff + (i + j) * eh.phentsize < 2 ^ (bits - 1))
    (hread : ∀ j < n, ∃ ph, headerAt bits file eh (i + j) = some ph) :
    loadsFrom bits file eh n i = segmentsFrom file eh n i := by
  induction n generalizing i with
  | zero => rfl
  | succ n ih =>
    have hrest : loadsFrom bits file eh n (i + 1) = segmentsFrom file eh n (i + 1) := by
      refine ih (fun j hj => ?_) fun j hj => ?_
      · rw [show i + 1 + j = i + (j + 1) by omega]
        exact hfit (j + 1) (by omega)
      · rw [show i + 1 + j = i + (j + 1) by omega]
        exact hread (j + 1) (by omega)
    obtain ⟨h1, h2⟩ := hfit 0 (by omega)
    obtain ⟨ph, hph⟩ := hread 0 (by omega)
    rw [Nat.add_zero] at h1 h2 hph
    have hdec := headerAt_eq hbits h1 h2 ▸ hph
    rw [loadsFrom, segmentsFrom, hph, hdec, hrest]

/-! ## What a segment leaves in memory -/

def segBytes (bits : ℕ) (file : File) (ph : Phdr) : List UInt8 :=
  readAt file ((seekPos bits ph.offset).getD 0) ph.filesz

/-- A segment zeroes its pages and then copies its bytes from the file. -/
def segBrush (bits : ℕ) (file : File) (bias : ℕ) : Brush Phdr ℕ UInt8 where
  touches ph x :=
    ph.first bias ≤ x && x < ph.last bias || ph.va bias ≤ x && x < ph.va bias + ph.filesz
  leaves ph x :=
    if ph.va bias ≤ x ∧ x < ph.va bias + ph.filesz then
      ((segBytes bits file ph)[x - ph.va bias]?).getD 0
    else 0

section Brush

variable {bits bias x : ℕ} {file : File} {ph : Phdr} {m : Memory}

theorem touches_iff : (segBrush bits file bias).touches ph x ↔
    ph.first bias ≤ x ∧ x < ph.last bias ∨ ph.va bias ≤ x ∧ x < ph.va bias + ph.filesz := by
  simp only [segBrush, Bool.or_eq_true, Bool.and_eq_true, decide_eq_true_eq]

/-- Bytes over zeros over what was there. -/
theorem fill_apply {a n v : ℕ} {bs : List UInt8} :
    putBytes (zeroed m a n) v bs x =
      if v ≤ x ∧ x < v + bs.length then (bs[x - v]?).getD 0 else if a ≤ x ∧ x < a + n then 0
      else m x := by
  split_ifs with hf hz
  · have hx : x - v < bs.length := by omega
    simp only [putBytes, if_pos hf.1, List.getElem?_eq_getElem hx, Option.getD_some]
  · rw [putBytes_of_apart (by omega), zeroed_of_mem hz.1 hz.2]
  · rw [putBytes_of_apart (by omega), zeroed_of_apart (by omega)]

theorem fill_eq_paint (hlen : (segBytes bits file ph).length = ph.filesz)
    (hle : ph.first bias ≤ ph.last bias) (x : ℕ) :
    putBytes (zeroed m (ph.first bias) (ph.last bias - ph.first bias)) (ph.va bias)
      (segBytes bits file ph) x = (segBrush bits file bias).paint m ph x := by
  rw [fill_apply, Brush.paint, hlen, Nat.add_sub_cancel' hle]
  by_cases hf : ph.va bias ≤ x ∧ x < ph.va bias + ph.filesz
  · rw [if_pos hf, if_pos (touches_iff.2 (.inr hf))]
    exact (if_pos hf).symm
  rw [if_neg hf]
  refine if_congr ?_ (if_neg hf).symm rfl
  rw [touches_iff, or_iff_left hf]

/-- The bytes of a segment that does not wrap lie in its pages. -/
theorem Phdr.inPages (hlt : ph.first bias < ph.last bias) (hw : ph.va bias + ph.memsz < 2 ^ 64)
    (h1 : ph.va bias ≤ x) (h2 : x < ph.va bias + ph.memsz) :
    ph.first bias ≤ x ∧ x < ph.last bias := by
  have hfirst : ph.first bias ≤ ph.va bias := pageDown_le _
  have hlast : ph.last bias = pageUp (ph.va bias + ph.memsz) := by rw [Phdr.last, wrap_of_lt hw]
  refine ⟨by omega, ?_⟩
  by_cases hbig : ph.va bias + ph.memsz ≤ 2 ^ 64 - 4096
  · have := le_pageUp hbig
    omega
  · rw [hlast, pageUp_eq_zero (by omega) hw] at hlt
    omega

/-- **Reading an image back.** Where a machine shows, at the bytes that it maps, what the last
segment has left there, and some byte behind each segment cannot be read, the segments read back
exactly when none of them wraps, the bytes of the file are mapped and the last segment to touch a
byte leaves there what the byte's own segment asks for. -/
theorem reads_back_iff_last {phs : List Phdr} {read : ℕ → Option UInt8} {Mapped : ℕ → Prop}
    (hpages : ∀ ph ∈ phs, ph.first bias < ph.last bias ∧ ∀ x, ph.first bias ≤ x → x < ph.last bias →
        Mapped x) (hend : ∀ ph ∈ phs, ∃ e < 2 ^ 64, ph.va bias + ph.filesz ≤ e ∧ read e = none)
    (hsome : ∀ ph ∈ phs, ∀ x, ph.va bias ≤ x → x < ph.va bias + ph.filesz → ∀ b, read x = some b →
        Mapped x)
    (hread : ∀ ph ∈ phs, ∀ x, ph.va bias ≤ x → x < ph.va bias + ph.filesz ∨ x < ph.last bias →
        Mapped x → ∀ k, (segBrush bits file bias).Last phs x k →
        read x = some ((segBrush bits file bias).leaves k x)) :
    (∀ ph ∈ phs, (∀ x, ph.va bias ≤ x → x < ph.va bias + ph.filesz →
        ∃ b, file[ph.offset + (x - ph.va bias)]? = some b ∧ read x = some b) ∧
        ∀ x, ph.va bias + ph.filesz ≤ x → x < ph.va bias + ph.memsz → read x = some 0) ↔
      (∀ ph ∈ phs, ph.va bias + ph.memsz < 2 ^ 64) ∧
      (∀ ph ∈ phs, ∀ x, ph.va bias ≤ x → x < ph.va bias + ph.filesz → Mapped x) ∧
      (∀ ph ∈ phs, ∀ x, ph.va bias ≤ x → x < ph.va bias + ph.filesz →
        ∀ k, (segBrush bits file bias).Last phs x k →
        file[ph.offset + (x - ph.va bias)]? = some ((segBrush bits file bias).leaves k x)) ∧
      ∀ ph ∈ phs, ∀ x, ph.va bias + ph.filesz ≤ x → x < ph.va bias + ph.memsz →
      ∀ k, (segBrush bits file bias).Last phs x k → (segBrush bits file bias).leaves k x = 0 := by
  constructor
  · intro hr
    have hwrap : ∀ ph ∈ phs, ph.va bias + ph.memsz < 2 ^ 64 := by
      intro ph hph
      by_contra hge
      obtain ⟨e, he, hle, hnone⟩ := hend ph hph
      have hzero := (hr ph hph).2 e hle (by omega)
      rw [hnone] at hzero
      cases hzero
    refine ⟨hwrap, fun ph hph x h1 h2 => ?_, fun ph hph x h1 h2 k hk => ?_,
      fun ph hph x h1 h2 k hk => ?_⟩
    · obtain ⟨b, -, hb⟩ := (hr ph hph).1 x h1 h2
      exact hsome ph hph x h1 h2 b hb
    · obtain ⟨b, hfile, hb⟩ := (hr ph hph).1 x h1 h2
      rw [hread ph hph x h1 (.inl h2) (hsome ph hph x h1 h2 b hb) k hk] at hb
      rw [hfile, hb]
    · obtain ⟨hin1, hin2⟩ := Phdr.inPages (hpages ph hph).1 (hwrap ph hph) (by omega) h2
      have hzero := (hr ph hph).2 x h1 h2
      rw [hread ph hph x (by omega) (.inr hin2) ((hpages ph hph).2 x hin1 hin2) k hk] at hzero
      exact Option.some.inj hzero
  · rintro ⟨hwrap, hmapped, hcopied, hzero⟩ ph hph
    refine ⟨fun x h1 h2 => ?_, fun x h1 h2 => ?_⟩
    · obtain ⟨k, hk⟩ := Brush.exists_last ⟨ph, hph, touches_iff.2 (.inr ⟨h1, h2⟩)⟩
      exact ⟨_, hcopied ph hph x h1 h2 k hk,
        hread ph hph x h1 (.inl h2) (hmapped ph hph x h1 h2) k hk⟩
    · have hin := Phdr.inPages (hpages ph hph).1 (hwrap ph hph) (by omega) h2
      obtain ⟨k, hk⟩ := Brush.exists_last ⟨ph, hph, touches_iff.2 (.inl hin)⟩
      rw [hread ph hph x (by omega) (.inr hin.2) ((hpages ph hph).2 x hin.1 hin.2) k hk,
        hzero ph hph x h1 h2 k hk]

end Brush

/-! ## Small files -/

def leBytes : ℕ → ℕ → List UInt8
  | 0, _ => []
  | k + 1, n => UInt8.ofNat n :: leBytes k (n / 256)

/-- An ELF header for a machine, with `phnum` program headers behind it. -/
def ehdrBytes (machine phnum : ℕ) : List UInt8 :=
  magic ++ [kClass64, 1] ++ List.replicate 10 0 ++ leBytes 2 2 ++ leBytes 2 machine ++
    leBytes 4 1 ++ leBytes 8 0x400000 ++ leBytes 8 64 ++ leBytes 8 0 ++ leBytes 4 0 ++
    leBytes 2 64 ++ leBytes 2 56 ++ leBytes 2 phnum ++ List.replicate 6 0

def Phdr.bytes (ph : Phdr) : List UInt8 :=
  leBytes 4 ph.type ++ leBytes 4 ph.flags ++ leBytes 8 ph.offset ++ leBytes 8 ph.vaddr ++
    leBytes 8 ph.vaddr ++ leBytes 8 ph.filesz ++ leBytes 8 ph.memsz ++ leBytes 8 0x1000

def fileOf (machine : ℕ) (phs : List Phdr) (data : List UInt8) : File :=
  ehdrBytes machine phs.length ++ phs.flatMap Phdr.bytes ++ data

def Phdr.Disjoint (p q : Phdr) : Prop := p.vaddr + p.memsz ≤ q.vaddr ∨ q.vaddr + q.memsz ≤ p.vaddr

instance (p q : Phdr) : Decidable (p.Disjoint q) := inferInstanceAs (Decidable (_ ∨ _))

end Linuxity.Loader

import Linuxity.Loader.Stack
import Linuxity.Whp.Load
import Linuxity.Hvf.Load

/-!
# Runtime.Start — the stack a program starts on (`load.hpp` of either backend)

The builders of the two backends write into guest RAM and take no notice of a string that RAM
refuses; only the vector must be written.  Neither looks at the end of the stack region.
-/

namespace Linuxity.Runtime

open Logic Mem Loader List

/-! ## The builder the two backends share -/

/-- What a builder is given. -/
structure Launch where
  img : Image
  argv : List Bytes
  envp : List Bytes
  atBase : ℕ
  execfn : Bytes
  /-- AT_SYSINFO_EHDR; zero if there is none. -/
  sysinfo : ℕ
  platform : Bytes
  hwcap : ℕ

namespace Launch

/-- The string of AT_EXECFN. -/
def execfnOf (l : Launch) : Bytes := if l.execfn = [] then l.argv.headD [] else l.execfn

/-- The auxiliary entries before AT_NULL.  Addresses and sizes are 64-bit words. -/
def aux (l : Launch) (platformAddr rndAddr execfnAddr : ℕ) : List (ℕ × ℕ) :=
  [(3, wrap l.img.phdrAddr), (4, wrap l.img.phent), (5, wrap l.img.phnum), (6, kPageSize),
    (7, wrap l.atBase), (8, 0), (9, wrap l.img.entry), (11, 0), (12, 0), (13, 0), (14, 0),
    (15, platformAddr), (16, wrap l.hwcap), (17, 100), (23, 0), (25, rndAddr), (31, execfnAddr)] ++
    if wrap l.sysinfo ≠ 0 then [(33, wrap l.sysinfo)] else []

end Launch

/-- The vector with an even number of words. -/
def padded (v : List ℕ) : List ℕ := v ++ if v.length % 2 = 0 then [] else [0]

section Builder

variable {σ : Type*} (write : ℕ → List UInt8 → σ → Option σ)

/-- `whp_build_stack` and `hvf_build_stack` from the first push on; `rnd` are the host's random
bytes. -/
def buildStack (l : Launch) (rnd : Option (Fin 16 → UInt8)) (top : ℕ) (s : σ) :
    Except StackErrno ℕ × σ :=
  let (envpAddr, sp, s) := pushAll write 16 (l.envp.map cstr) top s
  let (argp, sp, s) := pushAll write 16 (l.argv.map cstr) sp s
  let (execfnAddr, s) := pushBytes write 16 (cstr l.execfnOf) sp s
  let (platformAddr, s) := pushBytes write 16 (cstr l.platform) execfnAddr s
  match rnd with
  | none => (.error .eio, s)
  | some rnd =>
    let (rndAddr, s) := pushBytes write 16 (List.ofFn rnd) platformAddr s
    let v := padded (vector l.argv.length argp envpAddr (l.aux platformAddr rndAddr execfnAddr))
    let sp := subWord rndAddr (v.length * 8) / 16 * 16
    match write sp (v.flatMap wordBytes) s with
    | none => (.error .enomem, s)
    | some s => (.ok sp, s)

/-- Which writes are refused does not depend on what has been written. -/
structure Guarded (span : ℕ → ℕ → Bool) (I : σ → Prop) : Prop where
  refused : ∀ {s a bs}, I s → (write a bs s = none ↔ span a bs.length = false)
  keeps : ∀ {s s' a bs}, I s → write a bs s = some s' → I s'

end Builder

namespace Launch

/-- What the process is to find. -/
def start (l : Launch) (rnd : Fin 16 → UInt8) : Start where
  argv := l.argv
  envp := l.envp
  auxv :=
    [(3, .num l.img.phdrAddr), (4, .num l.img.phent), (5, .num l.img.phnum), (6, .num kPageSize),
      (7, .num l.atBase), (8, .num 0), (9, .num l.img.entry), (11, .num 0), (12, .num 0),
      (13, .num 0), (14, .num 0), (15, .str l.platform), (16, .num l.hwcap), (17, .num 100),
      (23, .num 0), (25, .bytes (List.ofFn rnd)), (31, .str l.execfnOf)] ++
      if wrap l.sysinfo ≠ 0 then [(33, .num l.sysinfo)] else []

/-- The lengths of what goes above the vector. -/
def sizes (l : Launch) : List ℕ :=
  (l.envp ++ l.argv ++ [l.execfnOf, l.platform]).map (fun s => s.length + 1) ++ [16]

/-- The words of the vector. -/
def words (l : Launch) : ℕ :=
  let n := l.argv.length + l.envp.length + 2 * (if wrap l.sysinfo ≠ 0 then 18 else 17) + 5
  n + n % 2

/-- Where the vector goes, on the unbounded line. -/
def place (l : Launch) (top : ℕ) : ℤ := lower 16 (lowest 16 top l.sizes) (l.words * 8)

end Launch

section Exact

variable {σ : Type*} {write : ℕ → List UInt8 → σ → Option σ} {mem : σ → Memory} {lo top : ℕ}
  {I : σ → Prop}
  {span : ℕ → ℕ → Bool} {s : σ} {l : Launch} {rnd : Fin 16 → UInt8}

/-- What goes above the vector. -/
def Launch.pieces (l : Launch) (rnd : Fin 16 → UInt8) : List Bytes :=
  l.envp.map cstr ++ (l.argv.map cstr ++ [cstr l.execfnOf, cstr l.platform, List.ofFn rnd])

theorem sizes_eq : (l.pieces rnd).map List.length = l.sizes := by
  simp [Launch.pieces, Launch.sizes, cstr, Function.comp_def]

theorem length_padded {envpp argp : List ℕ} (hE : envpp.length = l.envp.length)
    (hA : argp.length = l.argv.length) (a b c : ℕ) :
    (padded (vector l.argv.length argp envpp (l.aux a b c))).length = l.words := by
  have hlen : (vector l.argv.length argp envpp (l.aux a b c)).length =
      l.argv.length + l.envp.length + 2 * (if wrap l.sysinfo ≠ 0 then 18 else 17) + 5 := by
    rw [length_vector, hE, hA, Launch.aux]
    split_ifs <;> rfl
  rw [padded, length_append, hlen, Launch.words]
  generalize l.argv.length + l.envp.length + 2 * (if wrap l.sysinfo ≠ 0 then 18 else 17) + 5 = n
  split_ifs with h
  · rw [h]
    rfl
  · rw [Nat.mod_two_ne_zero.1 h]
    rfl

theorem buildStack_eq (write : ℕ → List UInt8 → σ → Option σ) (l : Launch) (rnd : Fin 16 → UInt8)
    (top : ℕ) (s : σ) :
    ∃ envpp argp execfnAddr platformAddr rndAddr s1,
      pushAll write 16 (l.pieces rnd) top s =
      (envpp ++ (argp ++ [execfnAddr, platformAddr, rndAddr]), rndAddr, s1) ∧
      envpp.length = l.envp.length ∧ argp.length = l.argv.length ∧
      buildStack write l (some rnd) top s =
        match write (subWord rndAddr (l.words * 8) / 16 * 16)
          ((padded
              (vector l.argv.length argp envpp (l.aux platformAddr rndAddr execfnAddr))).flatMap
              wordBytes) s1 with
        | none => (.error .enomem, s1)
        | some s => (.ok (subWord rndAddr (l.words * 8) / 16 * 16), s) := by
  have hE := @length_pushAll _ write 16 top s (l.envp.map cstr)
  rw [Launch.pieces, pushAll_append, buildStack]
  generalize pushAll write 16 (l.envp.map cstr) top s = rE at hE ⊢
  obtain ⟨envpp, sp1, s1⟩ := rE
  have hA := @length_pushAll _ write 16 sp1 s1 (l.argv.map cstr)
  dsimp only
  rw [pushAll_append]
  generalize pushAll write 16 (l.argv.map cstr) sp1 s1 = rA at hA ⊢
  obtain ⟨argp, sp2, s2⟩ := rA
  rw [length_map] at hE hA
  refine ⟨envpp, argp, _, _, _, _, rfl, hE, hA, ?_⟩
  rw [length_padded hE hA]
  rfl

theorem Guarded.pushAll (hg : Guarded write span I) (hs : I s) (pieces : List Bytes)
    (align sp : ℕ) :
    I (pushAll write align pieces sp s).2.2 := by
  induction pieces generalizing sp s with
  | nil => exact hs
  | cons bs pieces ih =>
    refine ih ?_ _
    cases h : write (subWord sp bs.length / align * align) bs s with
    | none => exact hs
    | some s' => exact hg.keeps hs h

theorem buildStack_decodes {envpp argp : List ℕ} {execfnAddr platformAddr rndAddr sp : ℕ}
    {s1 s2 : σ} (hb : Backed write mem lo top I) (hs : I s) (htop : top < 2 ^ 64)
    (hpush : pushAll write 16 (l.pieces rnd) top s =
        (envpp ++ (argp ++ [execfnAddr, platformAddr, rndAddr]), rndAddr, s1))
    (hE : envpp.length = l.envp.length) (hA : argp.length = l.argv.length) (hlo : lo ≤ sp)
    (hsp : (sp : ℤ) = l.place top)
    (hwrite :
        write sp
        ((padded (vector l.argv.length argp envpp (l.aux platformAddr rndAddr execfnAddr))).flatMap
        wordBytes) s1 = some s2) (hnul : (l.start rnd).NulFree) :
    Decodes (mem s2) lo top sp (l.start rnd) := by
  have hlen := length_padded hE hA platformAddr rndAddr execfnAddr
  have hplace : l.place top ≤ lowest 16 top l.sizes - (l.words * 8 : ℕ) := lower_le (by decide)
  have hne : ∀ bs ∈ l.pieces rnd, bs ≠ [] := by
    have hcstr : ∀ s : Bytes, cstr s ≠ [] :=
      fun s => append_ne_nil_of_right_ne_nil _ (cons_ne_nil _ _)
    intro bs hbs
    simp only [Launch.pieces, mem_append, mem_map, mem_cons, not_mem_nil, or_false] at hbs
    obtain ⟨s, -, rfl⟩ | ⟨s, -, rfl⟩ | rfl | rfl | rfl := hbs
    · exact hcstr s
    · exact hcstr s
    · exact hcstr _
    · exact hcstr _
    · simp
  have hspec : Pushed 16 mem lo top I _ _ s (pushAll write 16 (l.pieces rnd) top s) :=
    pushAll_spec hb (by decide) htop hs hne le_rfl (by rw [sizes_eq]; omega)
  rw [hpush] at hspec
  obtain ⟨hinv, hbot, hpieces, -⟩ := hspec
  dsimp only at hinv hbot hpieces
  rw [sizes_eq] at hbot
  rw [Launch.pieces, forall₂_append_iff (by rw [length_map, hE]),
    forall₂_append_iff (by rw [length_map, hA]), List.forall₂_cons, List.forall₂_cons,
    List.forall₂_cons] at hpieces
  obtain ⟨henv, hargs, hexecfn, hplatform, hrnd, -⟩ := hpieces
  have hrnd_le : rndAddr ≤ top := by
    have := hrnd.2.1
    omega
  obtain ⟨s3, hwrite', -, hmem⟩ := @hb.write_ok s1 sp
    ((padded (vector l.argv.length argp envpp (l.aux platformAddr rndAddr execfnAddr))).flatMap
        wordBytes) hinv
    (by rw [← length_pos_iff, length_words, hlen, Launch.words]; omega) hlo
      (by rw [length_words, hlen]; omega)
  obtain rfl : s3 = s2 := Option.some.inj (hwrite'.symm.trans hwrite)
  refine decodes_of_vector hlo hrnd_le htop ?_ hmem hargs henv ?_ ?_ hnul
  · change sp + 8 * (padded (vector l.argv.length argp envpp
      (l.aux platformAddr rndAddr execfnAddr))).length ≤ rndAddr
    omega
  · have num : ∀ {t v : ℕ}, t ≠ 0 ∧ t < 2 ^ 64 →
        AuxLaid (mem s1) rndAddr top (t, wrap v) (t, .num v) := fun ht => auxLaid ht rfl
    refine rel_append ?_ ?_
    · refine .cons (num (by decide))
        (.cons (num (by decide)) (.cons (num (by decide)) (.cons (num (by decide)) ?_)))
      refine .cons (num (by decide))
        (.cons (num (by decide)) (.cons (num (by decide)) (.cons (num (by decide)) ?_)))
      refine .cons (num (by decide))
        (.cons (num (by decide))
          (.cons (num (by decide)) (.cons (auxLaid (by decide) hplatform) ?_)))
      refine .cons (num (by decide))
        (.cons (num (by decide)) (.cons (num (by decide)) (.cons (auxLaid (by decide) hrnd) ?_)))
      exact .cons (auxLaid (by decide) hexecfn) .nil
    · split_ifs
      · exact .cons (num (by decide)) .nil
      · exact .nil
  · intro v hv
    split_ifs at hv
    · cases hv
    · rw [mem_singleton.1 hv]
      decide

/-- **The builder of the backends.** With less than 2⁶⁴ bytes to place, its answer is exact if and
only if RAM refuses the vector, or all of it fits into the stack region and no string holds a
NUL. -/
theorem buildStack_exact (hb : Backed write mem lo top I) (hg : Guarded write span I) (hs : I s)
    (htop : top < 2 ^ 64) (hneed : top - l.place top < 2 ^ 64) :
    Exact (mem (buildStack write l (some rnd) top s).2) lo top (l.start rnd)
      (buildStack write l (some rnd) top s).1 ↔
      span (l.place top % 2 ^ 64).toNat (l.words * 8) = false ∨
      (lo : ℤ) ≤ l.place top ∧ (l.start rnd).NulFree := by
  obtain ⟨envpp, argp, execfnAddr, platformAddr, rndAddr, s1, hpush, hE, hA, hbuild⟩ :=
    buildStack_eq write l rnd top s
  have hrnd : (rndAddr : ℤ) = lowest 16 top l.sizes % 2 ^ 64 := by
    have := @pushAll_place _ write 16 top s (by decide) top (by omega) (l.pieces rnd)
    rwa [hpush, sizes_eq] at this
  have hinv : I s1 := by
    have := hg.pushAll hs (l.pieces rnd) 16 top
    rwa [hpush] at this
  have hsp : ((subWord rndAddr (l.words * 8) / 16 * 16 : ℕ) : ℤ) = l.place top % 2 ^ 64 :=
    push_eq (by decide) hrnd
  have haligned : subWord rndAddr (l.words * 8) / 16 * 16 % 16 = 0 := Nat.mul_mod_left _ _
  generalize subWord rndAddr (l.words * 8) / 16 * 16 = sp at hsp haligned hbuild
  have hlow : lowest 16 top l.sizes ≤ top := lowest_le (by decide)
  have hplace : l.place top ≤ lowest 16 top l.sizes - (l.words * 8 : ℕ) := lower_le (by decide)
  have hrefused := @hg.refused s1 sp
    ((padded (vector l.argv.length argp envpp (l.aux platformAddr rndAddr execfnAddr))).flatMap
        wordBytes) hinv
  rw [length_words, length_padded hE hA, Nat.mul_comm] at hrefused
  have hto : (l.place top % 2 ^ 64).toNat = sp := by omega
  rw [hbuild, hto, ← hrefused]
  cases hwrite : write sp _ s1 with
  | none => exact iff_of_true trivial (.inl rfl)
  | some s2 =>
    rw [or_iff_right (by simp)]
    constructor
    · rintro ⟨-, hdec⟩
      refine ⟨?_, hdec.nulFree⟩
      obtain ⟨_, _, _, h1, h2, _⟩ := hdec
      omega
    · rintro ⟨hfit, hnul⟩
      exact ⟨haligned, buildStack_decodes hb hs htop hpush hE hA (by omega) (by omega) hwrite hnul⟩

end Exact

/-! ## The Windows backend -/

section Whp

open Whp

def whpStackGuard : ℕ := 0x10000

def whpStackSize : ℕ := 8 <<< 20

/-- `WhpLayout::stack_top`, on a machine that is larger than the arena and the guard. -/
def whpStackTop (ram : ℕ) : ℕ := ram - kTableArenaSize - whpStackGuard

/-- `memcpy` into a span of guest RAM, if there is one. -/
def whpWrite (a : ℕ) (bs : Bytes) (vm : Whp.Machine) : Option Whp.Machine :=
  if vm.hasSpan a bs.length then some { vm with ram := putBytes vm.ram a bs } else none

/-- Goes on with the machine of a mapping that succeeded; a failure is ENOMEM. -/
def onStack (f : Whp.Machine → Except StackErrno ℕ × Whp.Machine) :
    Whp.Status × Whp.Machine → Except StackErrno ℕ × Whp.Machine
  | (.error _, vm) => (.error .enomem, vm)
  | (.ok _, vm) => f vm

/-- What `whp_build_stack` is given; the platform is x86_64. -/
def whpLaunch (img : Image) (argv envp : List Bytes) (atBase : ℕ) (execfn : Bytes) : Launch where
  img := img
  argv := argv
  envp := envp
  atBase := atBase
  execfn := execfn
  sysinfo := 0
  platform := [0x78, 0x38, 0x36, 0x5f, 0x36, 0x34]
  hwcap := 0

def whpBuildStack (img : Image) (argv envp : List Bytes) (atBase : ℕ) (execfn : Bytes)
    (rnd : Option (Fin 16 → UInt8)) (vm : Whp.Machine) : Except StackErrno ℕ × Whp.Machine :=
  if vm.bytes ≤ whpStackGuard + whpStackSize + kTableArenaSize then (.error .enomem, vm)
  else
    onStack (buildStack whpWrite (whpLaunch img argv envp atBase execfn) rnd (whpStackTop vm.bytes))
      (vm.mapPages (whpStackTop vm.bytes - whpStackSize) whpStackSize true false)

/-- The stack region, without what lies in the area that the guest does not have. -/
def whpStackBot (ram : ℕ) : ℕ := max (whpStackTop ram - whpStackSize) kGuestFloor

/-- The builder answers with an error. -/
def WhpRefused (l : Launch) (rnd : Option (Fin 16 → UInt8)) (vm : Whp.Machine) : Prop :=
  vm.bytes ≤ whpStackGuard + whpStackSize + kTableArenaSize ∨
    (∃ e, (vm.mapPages (whpStackTop vm.bytes - whpStackSize) whpStackSize true false).1 =
      .error e) ∨ rnd = none ∨
    vm.hasSpan (l.place (whpStackTop vm.bytes) % 2 ^ 64).toNat (l.words * 8) = false

theorem whp_backed (n : ℕ) :
    Backed whpWrite Whp.Machine.ram (whpStackBot n) (whpStackTop n) fun vm => vm.bytes = n := by
  refine ⟨?_⟩
  rintro vm a bs rfl hne h1 h2
  have hpos := length_pos_iff.2 hne
  have hspan : vm.hasSpan a bs.length := by
    rw [Whp.Machine.hasSpan_iff]
    simp only [whpStackBot, whpStackTop] at h1 h2
    omega
  rw [whpWrite, if_pos hspan]
  exact ⟨_, rfl, rfl, fun x _ _ => rfl⟩

theorem whp_guarded (vm : Whp.Machine) :
    Guarded whpWrite vm.hasSpan fun vm' => vm'.bytes = vm.bytes := by
  refine ⟨fun {vm' a bs} h => ?_, fun {vm' vm'' a bs} h hw => ?_⟩
  · have hsame : vm'.hasSpan a bs.length = vm.hasSpan a bs.length := by
      rw [Bool.eq_iff_iff, Whp.Machine.hasSpan_iff, Whp.Machine.hasSpan_iff, h]
    rw [whpWrite, hsame]
    cases vm.hasSpan a bs.length <;> simp
  · rw [whpWrite] at hw
    split_ifs at hw
    cases hw
    exact h

theorem onStack_exact {l : Launch} {rnd : Option (Fin 16 → UInt8)} {vm : Whp.Machine} {bot top : ℕ}
    {r : Whp.Status × Whp.Machine}
    (hbacked : Backed whpWrite Whp.Machine.ram bot top fun vm' => vm'.bytes = vm.bytes)
    (hbytes : r.2.bytes = vm.bytes) (htop : top < 2 ^ 64) (hneed : top - l.place top < 2 ^ 64) :
    Exact (onStack (buildStack whpWrite l rnd top) r).2.ram bot top (l.start (rnd.getD fun _ => 0))
      (onStack (buildStack whpWrite l rnd top) r).1 ↔
      ((∃ e, r.1 = .error e) ∨ rnd = none ∨
        vm.hasSpan (l.place top % 2 ^ 64).toNat (l.words * 8) = false) ∨
      (bot : ℤ) ≤ l.place top ∧ (l.start (rnd.getD fun _ => 0)).NulFree := by
  obtain ⟨e | u, vm1⟩ := r
  · exact iff_of_true trivial (.inl (.inl ⟨e, rfl⟩))
  have hmapped : ¬∃ e, (.ok u : Whp.Status) = .error e := fun ⟨_, he⟩ => nomatch he
  rw [or_iff_right hmapped]
  rw [onStack]
  cases rnd with
  | none =>
    rw [buildStack]
    exact iff_of_true trivial (.inl (.inl rfl))
  | some rnd =>
    rw [or_iff_right (Option.some_ne_none rnd)]
    exact buildStack_exact hbacked (whp_guarded vm) hbytes htop hneed

theorem whpBuildStack_exact {img : Image} {argv envp : List Bytes} {atBase : ℕ} {execfn : Bytes}
    {rnd : Option (Fin 16 → UInt8)} {vm : Whp.Machine} (hvm : vm.bytes < 2 ^ 64)
    (hneed : whpStackTop vm.bytes - (whpLaunch img argv envp atBase execfn).place
        (whpStackTop vm.bytes) < 2 ^ 64) :
    Exact (whpBuildStack img argv envp atBase execfn rnd vm).2.ram (whpStackBot vm.bytes)
      (whpStackTop vm.bytes) ((whpLaunch img argv envp atBase execfn).start (rnd.getD fun _ => 0))
      (whpBuildStack img argv envp atBase execfn rnd vm).1 ↔
      WhpRefused (whpLaunch img argv envp atBase execfn) rnd vm ∨
      (whpStackBot vm.bytes : ℤ) ≤ (whpLaunch img argv envp atBase execfn).place
      (whpStackTop vm.bytes) ∧
      ((whpLaunch img argv envp atBase execfn).start (rnd.getD fun _ => 0)).NulFree := by
  have htop : whpStackTop vm.bytes < 2 ^ 64 := by
    rw [whpStackTop]
    omega
  rw [whpBuildStack, WhpRefused]
  split_ifs with hsmall
  · exact iff_of_true trivial (.inl (.inl hsmall))
  · rw [or_iff_right hsmall]
    exact onStack_exact (whp_backed vm.bytes) Whp.Machine.mapRun_bytes htop hneed

end Whp

/-! ## The macOS backend -/

section Hvf

open Hvf

def hvfStackGuard : ℕ := 0x10000

/-- `ExecArena::stack_reserve`. -/
def hvfStackReserve : ℕ := 8 <<< 20

def hvfStackTop (ram : ℕ) : ℕ := subWord ram hvfStackGuard

/-- `memcpy` into a span of guest RAM, if there is one. -/
def hvfWrite (a : ℕ) (bs : Bytes) (vm : Hvf.Machine) : Option Hvf.Machine :=
  if vm.hasSpan a bs.length then some { vm with ram := putBytes vm.ram a bs } else none

/-- What `hvf_build_stack` is given; the platform is aarch64. -/
def hvfLaunch (img : Image) (argv envp : List Bytes) (atBase : ℕ) (execfn : Bytes)
    (sysinfo : ℕ) : Launch where
  img := img
  argv := argv
  envp := envp
  atBase := atBase
  execfn := execfn
  sysinfo := sysinfo
  platform := [0x61, 0x61, 0x72, 0x63, 0x68, 0x36, 0x34]
  hwcap := 0x1 ||| 0x2 ||| 0x8 ||| 0x10 ||| 0x20 ||| 0x40 ||| 0x80 ||| 0x100

/-- The answer of `random_bytes` is not looked at: `rnd` is what the array holds. -/
def hvfBuildStack (img : Image) (argv envp : List Bytes) (atBase : ℕ) (execfn : Bytes) (sysinfo : ℕ)
    (rnd : Fin 16 → UInt8) (vm : Hvf.Machine) : Except StackErrno ℕ × Hvf.Machine :=
  buildStack hvfWrite (hvfLaunch img argv envp atBase execfn sysinfo) (some rnd)
    (hvfStackTop vm.size) vm

/-- The stack region: the reserve below the top, without what is the hypervisor's on a small
machine. -/
def hvfStackBot (ram : ℕ) : ℕ := max (hvfStackTop ram - hvfStackReserve) (privEnd ram)

theorem hvf_backed {n : ℕ} (hn : hvfStackTop n ≤ n) :
    Backed hvfWrite Hvf.Machine.ram (hvfStackBot n) (hvfStackTop n) fun vm => vm.size = n := by
  refine ⟨?_⟩
  rintro vm a bs rfl hne h1 h2
  have hpos := length_pos_iff.2 hne
  have hspan : vm.hasSpan a bs.length := by
    rw [Hvf.Machine.hasSpan_iff]
    rw [hvfStackBot] at h1
    omega
  rw [hvfWrite, if_pos hspan]
  exact ⟨_, rfl, rfl, fun x _ _ => rfl⟩

theorem hvf_guarded (vm : Hvf.Machine) :
    Guarded hvfWrite vm.hasSpan fun vm' => vm'.size = vm.size := by
  refine ⟨fun {vm' a bs} h => ?_, fun {vm' vm'' a bs} h hw => ?_⟩
  · have hsame : vm'.hasSpan a bs.length = vm.hasSpan a bs.length := by
      rw [Bool.eq_iff_iff, Hvf.Machine.hasSpan_iff, Hvf.Machine.hasSpan_iff, Hvf.Machine.holeBeg,
        Hvf.Machine.holeBeg, Hvf.Machine.holeEnd, Hvf.Machine.holeEnd, h]
    rw [hvfWrite, hsame]
    cases vm.hasSpan a bs.length <;> simp
  · rw [hvfWrite] at hw
    split_ifs at hw
    cases hw
    exact h

theorem hvfBuildStack_exact {img : Image} {argv envp : List Bytes} {atBase : ℕ} {execfn : Bytes}
    {sysinfo : ℕ} {rnd : Fin 16 → UInt8} {vm : Hvf.Machine} (hvm : vm.Sized)
    (hneed : hvfStackTop vm.size - (hvfLaunch img argv envp atBase execfn sysinfo).place
        (hvfStackTop vm.size) < 2 ^ 64) :
    Exact (hvfBuildStack img argv envp atBase execfn sysinfo rnd vm).2.ram (hvfStackBot vm.size)
      (hvfStackTop vm.size) ((hvfLaunch img argv envp atBase execfn sysinfo).start rnd)
      (hvfBuildStack img argv envp atBase execfn sysinfo rnd vm).1 ↔
      vm.hasSpan
      ((hvfLaunch img argv envp atBase execfn sysinfo).place (hvfStackTop vm.size) % 2 ^ 64).toNat
      ((hvfLaunch img argv envp atBase execfn sysinfo).words * 8) = false ∨
      (hvfStackBot vm.size : ℤ) ≤ (hvfLaunch img argv envp atBase execfn sysinfo).place
      (hvfStackTop vm.size) ∧
      ((hvfLaunch img argv envp atBase execfn sysinfo).start rnd).NulFree := by
  obtain ⟨hmod, hpos, hsize⟩ := hvm
  have htop : hvfStackTop vm.size ≤ vm.size ∧ hvfStackTop vm.size < 2 ^ 64 := by
    rw [block] at hmod
    rw [hvfStackTop, subWord, hvfStackGuard]
    omega
  exact buildStack_exact (hvf_backed htop.1) (hvf_guarded vm) rfl htop.2 hneed

end Hvf

/-- **What the three builders answer.** Each is exact if and only if it refuses or everything fits
into its stack region and no string holds a NUL. -/
theorem start_stack_exact_iff (p : StackParams) (rs : List Region) (img : Image)
    (argv envp : List Bytes) (atBase : ℕ)
    (execfn : Bytes) (drawn : Option (Fin 16 → UInt8)) (vm : Whp.Machine) (sysinfo : ℕ)
      (rnd : Fin 16 → UInt8) (vm' : Hvf.Machine) :
    (HasStack (p.top - p.size) p.top rs → p.top < 2 ^ 64 → p.size ≤ p.top →
        p.top - p.place < 2 ^ 64 →
      (Exact (memoryOf (build p rs).2) (p.top - p.size) p.top p.start (build p rs).1 ↔
        p.Refused rs ∨ (p.top : ℤ) - p.size ≤ p.place ∧ p.start.NulFree)) ∧
    (let l := whpLaunch img argv envp atBase execfn
      let start := l.start (drawn.getD fun _ => 0)
      let r := whpBuildStack img argv envp atBase execfn drawn vm
      vm.bytes < 2 ^ 64 → whpStackTop vm.bytes - l.place (whpStackTop vm.bytes) < 2 ^ 64 →
      (Exact r.2.ram (whpStackBot vm.bytes) (whpStackTop vm.bytes) start r.1 ↔
        WhpRefused l drawn vm ∨ (whpStackBot vm.bytes : ℤ) ≤ l.place (whpStackTop vm.bytes) ∧
          start.NulFree)) ∧
    let l := hvfLaunch img argv envp atBase execfn sysinfo
    let start := l.start rnd
    let r := hvfBuildStack img argv envp atBase execfn sysinfo rnd vm'
    vm'.Sized → hvfStackTop vm'.size - l.place (hvfStackTop vm'.size) < 2 ^ 64 →
      (Exact r.2.ram (hvfStackBot vm'.size) (hvfStackTop vm'.size) start r.1 ↔
        vm'.hasSpan (l.place (hvfStackTop vm'.size) % 2 ^ 64).toNat (l.words * 8) = false ∨
          (hvfStackBot vm'.size : ℤ) ≤ l.place (hvfStackTop vm'.size) ∧ start.NulFree) :=
  ⟨fun hrs htop hsize hneed => build_exact hrs htop hsize hneed,
    fun hvm hneed => whpBuildStack_exact hvm hneed, fun hvm hneed => hvfBuildStack_exact hvm hneed⟩

/-! ## More arguments than the reserve -/

/-- An image with nothing to say. -/
def someImage : Image := { phdrAddr := 0, phnum := 0, phent := 56, loadBias := 0 }

/-- As many bytes as `execve` takes from one argument. -/
def longArgument : Bytes := List.replicate 131071 0x61

/-- What `execve` passes on for 65 such arguments to the program `/a`. -/
def longLaunch : Launch := hvfLaunch someImage (List.replicate 65 longArgument) [] 0 [0x2f, 0x61] 0

theorem sizes_longLaunch : longLaunch.sizes = List.replicate 65 131072 ++ [3, 8, 16] := by
  have hlong : longArgument.length + 1 = 131072 := by rw [longArgument, length_replicate]
  have hexec : longLaunch.execfnOf = [0x2f, 0x61] := rfl
  have hargv : longLaunch.argv = List.replicate 65 longArgument := rfl
  have henvp : longLaunch.envp = [] := rfl
  rw [Launch.sizes, hexec, hargv, henvp, nil_append, map_append, map_replicate, hlong]
  rfl

theorem words_longLaunch : longLaunch.words = 104 := by
  have hargv : longLaunch.argv.length = 65 := length_replicate
  rw [Launch.words, hargv]
  rfl

/-- The stack region of a machine of 2 GiB, and where the vector of the long arguments goes. -/
theorem place_longLaunch : hvfStackTop Hvf.Machine.bigMachine.size = 0x7fff0000 ∧
    hvfStackBot Hvf.Machine.bigMachine.size = 0x7f7f0000 ∧
    longLaunch.place (hvfStackTop Hvf.Machine.bigMachine.size) = 0x7f7cfc90 := by
  refine ⟨by decide +kernel, by decide +kernel, ?_⟩
  rw [Launch.place, sizes_longLaunch, words_longLaunch]
  decide +kernel

/-- The builder succeeds and the stack begins below its region. -/
theorem long_arguments_overrun :
    Hvf.Machine.bigMachine.Sized ∧
      ¬Exact
      (hvfBuildStack someImage (List.replicate 65 longArgument) [] 0 [0x2f, 0x61] 0 (fun _ => 0)
        Hvf.Machine.bigMachine).2.ram (hvfStackBot Hvf.Machine.bigMachine.size)
      (hvfStackTop Hvf.Machine.bigMachine.size) (longLaunch.start fun _ => 0)
      (hvfBuildStack someImage (List.replicate 65 longArgument) [] 0 [0x2f, 0x61] 0 (fun _ => 0)
        Hvf.Machine.bigMachine).1 := by
  obtain ⟨htop, hbot, hplace⟩ := place_longLaunch
  have hneed : (hvfStackTop Hvf.Machine.bigMachine.size : ℤ) -
      longLaunch.place (hvfStackTop Hvf.Machine.bigMachine.size) < 2 ^ 64 := by
    rw [hplace, htop]
    decide
  refine ⟨Hvf.Machine.bigMachine_sized, ?_⟩
  have hiff :=
    @hvfBuildStack_exact someImage (List.replicate 65 longArgument) [] 0 [0x2f, 0x61] 0 (fun _ => 0)
    Hvf.Machine.bigMachine Hvf.Machine.bigMachine_sized hneed
  rw [← longLaunch, hplace, words_longLaunch] at hiff
  rw [hiff]
  rintro (hspan | ⟨hfit, -⟩)
  · revert hspan
    decide +kernel
  · rw [hbot] at hfit
    omega

/-! ## A few short strings -/

def shortArgv : List Bytes := [[0x2f, 0x61], [0x62]]

def shortEnvp : List Bytes := [[0x63, 0x3d]]

/-- A stack of 64 KiB for the portable builder. -/
def shortParams : StackParams where
  top := 0x20000
  size := 0x10000
  argv := shortArgv
  envp := shortEnvp
  image := someImage

def shortRegions : List Region := [⟨0x1000, 0x1000, fun _ => 0⟩, ⟨0x10000, 0x10000, fun _ => 0⟩]

theorem hasStack_shortRegions : HasStack 0x10000 0x20000 shortRegions := by
  refine ⟨[⟨0x1000, 0x1000, fun _ => 0⟩], _, [], rfl, rfl, rfl, ?_⟩
  intro r hr x hlo hhi
  obtain rfl := mem_singleton.1 hr
  rw [← Bool.not_eq_true, contains_iff, wrap_of_lt (by omega), wrap_of_lt (by decide)]
  dsimp only
  omega

/-- All three builders take two arguments and one variable of the environment. -/
theorem start_stack_exact_short :
    Exact (memoryOf (build shortParams shortRegions).2) (shortParams.top - shortParams.size)
      shortParams.top shortParams.start (build shortParams shortRegions).1 ∧
      Exact (whpBuildStack someImage shortArgv shortEnvp 0 [0x2f, 0x61] (some fun _ => 0)
        Whp.Machine.smallMachine).2.ram (whpStackBot Whp.Machine.smallMachine.bytes)
      (whpStackTop Whp.Machine.smallMachine.bytes)
      ((whpLaunch someImage shortArgv shortEnvp 0 [0x2f, 0x61]).start fun _ => 0)
      (whpBuildStack someImage shortArgv shortEnvp 0 [0x2f, 0x61] (some fun _ => 0)
        Whp.Machine.smallMachine).1 ∧
      Exact (hvfBuildStack someImage shortArgv shortEnvp 0 [0x2f, 0x61] 0 (fun _ => 0)
        Hvf.Machine.bigMachine).2.ram (hvfStackBot Hvf.Machine.bigMachine.size)
      (hvfStackTop Hvf.Machine.bigMachine.size)
      ((hvfLaunch someImage shortArgv shortEnvp 0 [0x2f, 0x61] 0).start fun _ => 0)
      (hvfBuildStack someImage shortArgv shortEnvp 0 [0x2f, 0x61] 0 (fun _ => 0)
        Hvf.Machine.bigMachine).1 := by
  obtain ⟨hportable, hwhp, hhvf⟩ :=
    start_stack_exact_iff shortParams shortRegions someImage shortArgv
    shortEnvp 0 [0x2f, 0x61] (some fun _ => 0) Whp.Machine.smallMachine 0 (fun _ => 0)
      Hvf.Machine.bigMachine
  refine ⟨?_, ?_, ?_⟩
  · rw [hportable hasStack_shortRegions (by decide) (by decide) (by decide +kernel)]
    exact .inr ⟨by decide +kernel, by decide, by decide, by decide +kernel⟩
  · rw [Option.getD_some] at hwhp
    rw [hwhp (by decide) (by decide +kernel)]
    exact .inr ⟨by decide +kernel, by decide, by decide, by decide +kernel⟩
  · rw [hhvf Hvf.Machine.bigMachine_sized (by decide +kernel)]
    exact .inr ⟨by decide +kernel, by decide, by decide, by decide +kernel⟩

end Linuxity.Runtime

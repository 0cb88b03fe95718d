import Linuxity.Logic.Push
import Linuxity.Loader.Elf

/-!
# Loader.Stack — the stack a process starts on (`loader/stack.hpp`, `mm/address_space.hpp`)

The strings go to the top of the stack region, one below the other, and the vector of words that
points to them goes below: the argument count, the arguments, the environment and the auxiliary
entries.  `Decodes` says what a process reads there; it is stated on memory alone and shared by the
portable builder of this module and the builders of the two backends.
-/

namespace Linuxity.Loader

open Logic Mem List

/-! ## What a process reads -/

abbrev Bytes := List UInt8

/-- What an auxiliary entry stands for: a number, or the string or the bytes it points to. -/
inductive AuxVal where
  | num (v : ℕ)
  | str (s : Bytes)
  | bytes (bs : Bytes)
  deriving DecidableEq

/-- What a new process is to find. -/
structure Start where
  argv : List Bytes
  envp : List Bytes
  /-- The auxiliary vector up to AT_NULL. -/
  auxv : List (ℕ × AuxVal)
  deriving DecidableEq

def cstr (s : Bytes) : Bytes := s ++ [0]

def vector (argc : ℕ) (argp envpp : List ℕ) (aux : List (ℕ × ℕ)) : List ℕ :=
  argc :: argp ++ 0 :: envpp ++ 0 :: aux.flatMap (fun e => [e.1, e.2]) ++ [0, 0]

/-- A string that ends at its first NUL, at an address that is not NULL. -/
def StrAt (m : Memory) (lo hi p : ℕ) (s : Bytes) : Prop :=
  PieceAt m lo hi p (cstr s) ∧ 0 ∉ s ∧ p ≠ 0

def AuxVal.At (m : Memory) (lo hi w : ℕ) : AuxVal → Prop
  | .num v => w = wrap v
  | .str s => StrAt m lo hi w s
  | .bytes bs => PieceAt m lo hi w bs

/-- From `sp` a process reads what it is to find, and all of it lies between `lo` and `hi`. -/
def Decodes (m : Memory) (lo hi sp : ℕ) (start : Start) : Prop :=
  ∃ argp envpp aux, lo ≤ sp ∧ sp + 8 * (vector start.argv.length argp envpp aux).length ≤ hi ∧
    wordsAt m sp (vector start.argv.length argp envpp aux).length =
      vector start.argv.length argp envpp aux ∧ List.Forall₂ (StrAt m lo hi) argp start.argv ∧
    List.Forall₂ (StrAt m lo hi) envpp start.envp ∧
    List.Forall₂ (fun e a => e.1 = a.1 ∧ e.1 ≠ 0 ∧ a.2.At m lo hi e.2) aux start.auxv

inductive StackErrno where
  | enomem | eio | efault
  deriving DecidableEq

/-- What a builder may answer: an error, or an aligned stack pointer from which all of it reads
back. -/
def Exact (m : Memory) (lo hi : ℕ) (start : Start) : Except StackErrno ℕ → Prop
  | .error _ => True
  | .ok sp => sp % 16 = 0 ∧ Decodes m lo hi sp start

def AuxVal.NulFree : AuxVal → Prop
  | .str s => 0 ∉ s
  | _ => True

instance (v : AuxVal) : Decidable v.NulFree :=
  match v with
  | .num _ => .isTrue trivial
  | .str s => inferInstanceAs (Decidable (0 ∉ s))
  | .bytes _ => .isTrue trivial

def Start.NulFree (start : Start) : Prop :=
  (∀ s ∈ start.argv, 0 ∉ s) ∧ (∀ s ∈ start.envp, 0 ∉ s) ∧ ∀ e ∈ start.auxv, e.2.NulFree

section Decodes

variable {m m' : Memory} {lo hi sp top : ℕ} {start : Start} {argp envpp : List ℕ}
  {aux : List (ℕ × ℕ)}

theorem length_vector (argc : ℕ) :
    (vector argc argp envpp aux).length = argp.length + envpp.length + 2 * aux.length + 5 := by
  have haux : (aux.flatMap fun e => [e.1, e.2]).length = 2 * aux.length := by
    induction aux with
    | nil => rfl
    | cons e aux ih =>
      rw [flatMap_cons, length_append, ih, length_cons]; simp only [length_cons, length_nil]; omega
  simp only [vector, length_append, length_cons, length_nil, haux]
  omega

theorem Decodes.nulFree (h : Decodes m lo hi sp start) : start.NulFree := by
  obtain ⟨_, _, _, _, _, _, hargs, henv, haux⟩ := h
  refine ⟨fun s hs => ?_, fun s hs => ?_, fun e he => ?_⟩
  · obtain ⟨_, h⟩ := (exists_of_forall₂ hargs).2 s hs
    exact h.2.1
  · obtain ⟨_, h⟩ := (exists_of_forall₂ henv).2 s hs
    exact h.2.1
  · obtain ⟨_, _, _, h⟩ := (exists_of_forall₂ haux).2 e he
    cases hv : e.2 with
    | str s =>
      rw [hv] at h
      exact h.2.1
    | num | bytes => trivial

/-- A string above the stack pointer is read where it is. -/
theorem strAt_of_piece {bot p : ℕ} {s : Bytes} (hlo : lo ≤ sp) (hsp : sp < bot) (hnul : 0 ∉ s)
    (h : PieceAt m bot hi p (cstr s)) : StrAt m lo hi p s := by
  obtain ⟨h1, h2, h3⟩ := h
  exact ⟨⟨by omega, h2, h3⟩, hnul, by omega⟩

theorem strsAt_of_pieces {bot : ℕ} {ps : List ℕ} {strs : List Bytes} (hlo : lo ≤ sp)
    (hsp : sp < bot) (hnul : ∀ s ∈ strs, 0 ∉ s)
    (h : List.Forall₂ (PieceAt m bot hi) ps (strs.map cstr)) :
    List.Forall₂ (StrAt m lo hi) ps strs := by
  rw [List.forall₂_map_right_iff] at h
  exact forall₂_imp_of_right h hnul fun p s hs hp => strAt_of_piece hlo hsp hs hp

theorem pieces_lt {bot : ℕ} {ps : List ℕ} {pieces : List Bytes} (hhi : hi < 2 ^ 64)
    (h : List.Forall₂ (PieceAt m bot hi) ps pieces) : ∀ p ∈ ps, p < 2 ^ 64 := by
  intro p hp
  obtain ⟨_, _, h2, _⟩ := (exists_of_forall₂ h).1 p hp
  omega

/-- The pieces an auxiliary entry needs lie above `bot`. -/
def AuxVal.Laid (m : Memory) (bot hi w : ℕ) : AuxVal → Prop
  | .num v => w = wrap v
  | .str s => PieceAt m bot hi w (cstr s)
  | .bytes bs => PieceAt m bot hi w bs

/-- An entry of the vector for an entry of what the process is to find. -/
def AuxLaid (m : Memory) (bot hi : ℕ) (e : ℕ × ℕ) (a : ℕ × AuxVal) : Prop :=
  e.1 = a.1 ∧ (e.1 ≠ 0 ∧ e.1 < 2 ^ 64) ∧ a.2.Laid m bot hi e.2

theorem auxLaid {bot t w : ℕ} {v : AuxVal} (ht : t ≠ 0 ∧ t < 2 ^ 64) (h : v.Laid m bot hi w) :
    AuxLaid m bot hi (t, w) (t, v) :=
  ⟨rfl, ht, h⟩

theorem AuxVal.Laid.lt {bot w : ℕ} {v : AuxVal} (hhi : hi < 2 ^ 64)
    (h : v.Laid m bot hi w) : w < 2 ^ 64 := by
  cases v with
  | num v => exact h ▸ wrap_lt v
  | str s =>
    obtain ⟨_, h2, _⟩ := h
    omega
  | bytes bs =>
    obtain ⟨_, h2, _⟩ := h
    omega

theorem AuxVal.Laid.toAt {bot w : ℕ} {v : AuxVal} (hlo : lo ≤ sp) (hsp : sp < bot)
    (hnul : v.NulFree) (hm : ∀ x, bot ≤ x → x < hi → m' x = m x) (h : v.Laid m bot hi w) :
    v.At m' lo hi w := by
  cases v with
  | num v => exact h
  | str s => exact strAt_of_piece hlo hsp hnul (PieceAt.mono h le_rfl le_rfl hm)
  | bytes bs => exact PieceAt.mono h (by omega) le_rfl hm

/-- **A vector below its strings decodes.** `m1` is the memory with the strings, `vs` the vector
with what pads it. -/
theorem decodes_of_vector {m1 : Memory} {bot : ℕ} {pad : List ℕ} (hlo : lo ≤ sp) (htop : bot ≤ hi)
    (hhi : hi < 2 ^ 64)
    (hbot : sp + 8 * (vector start.argv.length argp envpp aux ++ pad).length ≤ bot)
    (hm : ∀ x, lo ≤ x → x < hi →
        m x = putBytes m1 sp ((vector start.argv.length argp envpp aux ++ pad).flatMap wordBytes) x)
    (hargs : List.Forall₂ (PieceAt m1 bot hi) argp (start.argv.map cstr))
    (henv : List.Forall₂ (PieceAt m1 bot hi) envpp (start.envp.map cstr))
    (haux : List.Forall₂ (AuxLaid m1 bot hi) aux start.auxv) (hpad : ∀ v ∈ pad, v < 2 ^ 64)
    (hnul : start.NulFree) : Decodes m lo hi sp start := by
  have hlen := @length_vector argp envpp aux start.argv.length
  have hargc : argp.length = start.argv.length := by
    rw [hargs.length_eq, length_map]
  rw [length_append] at hbot
  have hvs : ∀ v ∈ vector start.argv.length argp envpp aux ++ pad, v < 2 ^ 64 := by
    intro v hv
    simp only [vector, mem_append, mem_cons, mem_flatMap, not_mem_nil, or_false] at hv
    obtain (((((rfl | hv) | rfl | hv) | rfl | ⟨e, he, rfl | rfl⟩) | rfl | rfl) | hv) := hv
    · omega
    · exact pieces_lt hhi hargs v hv
    · decide
    · exact pieces_lt hhi henv v hv
    · decide
    · obtain ⟨_, _, h, _⟩ := (exists_of_forall₂ haux).1 e he
      exact h.2
    · obtain ⟨_, _, _, h⟩ := (exists_of_forall₂ haux).1 e he
      exact h.lt hhi
    · decide
    · decide
    · exact hpad v hv
  have hframe : ∀ x, bot ≤ x → x < hi → m x = m1 x := by
    intro x h1 h2
    rw [hm x (by omega) h2, putBytes_of_apart (.inr (by rw [length_words, length_append]; omega))]
  have hwords : wordsAt m sp (vector start.argv.length argp envpp aux ++ pad).length =
      vector start.argv.length argp envpp aux ++ pad := by
    rw [wordsAt_congr fun x h1 h2 => hm x (by omega) (by rw [length_append] at h2; omega),
      wordsAt_putBytes hvs]
  refine ⟨argp, envpp, aux, hlo, by omega, ?_, ?_, ?_, ?_⟩
  · rw [wordsAt_take (n := (vector start.argv.length argp envpp aux ++ pad).length)
      (by rw [length_append]; omega), hwords, take_left]
  · exact strsAt_of_pieces hlo (by omega) hnul.1
      (hargs.imp fun _ _ h => h.mono le_rfl le_rfl hframe)
  · exact strsAt_of_pieces hlo (by omega) hnul.2.1
      (henv.imp fun _ _ h => h.mono le_rfl le_rfl hframe)
  · exact forall₂_imp_of_right haux hnul.2.2 fun e a hn h =>
      ⟨h.1, h.2.1.1, h.2.2.toAt hlo (by omega) hn hframe⟩

end Decodes

/-! ## The regions of an address space -/

structure Region where
  base : ℕ
  len : ℕ
  /-- The bytes behind the region, by guest address. -/
  host : Memory

def Region.contains (r : Region) (a n : ℕ) : Bool :=
  r.base ≤ a && a ≤ wrap (a + n) && wrap (a + n) ≤ wrap (r.base + r.len)

/-- `AddressSpace::write`: into the first region that holds the range; `none` is EFAULT. -/
def writeRegions (a : ℕ) (bs : Bytes) : List Region → Option (List Region)
  | [] => none
  | r :: rs =>
    if r.contains a bs.length then some ({ r with host := putBytes r.host a bs } :: rs)
    else (writeRegions a bs rs).map (r :: ·)

def memoryOf (rs : List Region) : Memory :=
  fun x => ((rs.find? fun r => r.contains x 1).map fun r => r.host x).getD 0

/-! ## The portable builder -/

structure StackParams where
  top : ℕ
  size : ℕ
  argv : List Bytes
  envp : List Bytes
  image : Image

def kRandom : Bytes :=
  [0x9e, 0x37, 0x79, 0xb9, 0x7f, 0x4a, 0x7c, 0x15, 0xf3, 0x9c, 0xc0, 0x60, 0x5c, 0xed, 0xc8, 0x34]

/-- `put_u64` for each of the words; stops at the first that is refused. -/
def putWords : List ℕ → ℕ → List Region → Bool × List Region
  | [], _, rs => (true, rs)
  | v :: vs, w, rs =>
    match writeRegions w (wordBytes v) rs with
    | none => (false, rs)
    | some rs => putWords vs (wrap (w + 8)) rs

/-- The auxiliary entries before AT_NULL.  The fields of the image are 64-bit words. -/
def StackParams.aux (p : StackParams) (randomAt : ℕ) : List (ℕ × ℕ) :=
  [(3, wrap p.image.phdrAddr), (4, wrap p.image.phent), (5, wrap p.image.phnum), (6, kPageSize),
    (9, wrap p.image.entry), (25, randomAt)]

def build (p : StackParams) (rs : List Region) : Except StackErrno ℕ × List Region :=
  let (envpp, sp, rs) := pushAll writeRegions 1 (p.envp.map cstr) p.top rs
  let (argp, sp, rs) := pushAll writeRegions 1 (p.argv.map cstr) sp rs
  let (randomAt, rs) := pushBytes writeRegions 1 kRandom sp rs
  let auxPairs := 6
  let words := 1 + p.argv.length + 1 + p.envp.length + 1 + (auxPairs + 1) * 2
  let arr := subWord randomAt (words * 8) / 16 * 16
  match putWords (vector p.argv.length argp envpp (p.aux randomAt)) arr rs with
  | (true, rs) => (.ok arr, rs)
  | (false, rs) => (.error .efault, rs)

namespace StackParams

variable (p : StackParams)

def start : Start where
  argv := p.argv
  envp := p.envp
  auxv :=
    [(3, .num p.image.phdrAddr), (4, .num p.image.phent), (5, .num p.image.phnum),
    (6, .num kPageSize), (9, .num p.image.entry), (25, .bytes kRandom)]

def pieces : List Bytes := p.envp.map cstr ++ (p.argv.map cstr ++ [kRandom])

def words : ℕ := p.argv.length + p.envp.length + 17

def place : ℤ := lower 16 (lowest 1 p.top (p.pieces.map List.length)) (p.words * 8)

/-- A word of the vector has no region to go to. -/
def Refused (rs : List Region) : Prop :=
  ∃ k < p.words, ∀ r ∈ rs, r.contains ((p.place + 8 * k) % 2 ^ 64).toNat 8 = false

end StackParams

section Regions

variable {rs rs' : List Region} {a : ℕ} {bs : Bytes}

theorem writeRegions_contains (h : writeRegions a bs rs = some rs') (b n : ℕ) :
    rs'.map (fun r => r.contains b n) = rs.map fun r => r.contains b n := by
  induction rs generalizing rs' with
  | nil => cases h
  | cons r rs ih =>
    rw [writeRegions] at h
    split_ifs at h
    · cases h
      rfl
    · obtain ⟨rs1, h1, rfl⟩ := Option.map_eq_some_iff.1 h
      rw [map_cons, map_cons, ih h1]

theorem writeRegions_eq_none :
    writeRegions a bs rs = none ↔ ∀ r ∈ rs, r.contains a bs.length = false := by
  induction rs with
  | nil => simp [writeRegions]
  | cons r rs ih =>
    rw [writeRegions, forall_mem_cons, ← ih]
    split_ifs with h
    · simp [h]
    · simp [h]

theorem contains_iff {r : Region} {n : ℕ} : r.contains a n ↔
    r.base ≤ a ∧ a ≤ wrap (a + n) ∧ wrap (a + n) ≤ wrap (r.base + r.len) := by
  simp only [Region.contains, Bool.and_eq_true, decide_eq_true_eq, and_assoc]

/-- The region of the stack and what stands before it: no region there holds a byte of it. -/
def HasStack (lo hi : ℕ) (rs : List Region) : Prop :=
  ∃ pre stk post, rs = pre ++ stk :: post ∧ stk.base = lo ∧ stk.base + stk.len = hi ∧
    ∀ r ∈ pre, ∀ x, lo ≤ x → x < hi → r.contains x 1 = false

theorem writeRegions_append {pre post : List Region} {stk : Region}
    (hpre : ∀ r ∈ pre, r.contains a bs.length = false) (hstk : stk.contains a bs.length) :
    writeRegions a bs (pre ++ stk :: post) =
      some (pre ++ { stk with host := putBytes stk.host a bs } :: post) := by
  induction pre with
  | nil => rw [nil_append, writeRegions, if_pos hstk, nil_append]
  | cons r pre ih =>
    obtain ⟨h1, h2⟩ := forall_mem_cons.1 hpre
    rw [cons_append, writeRegions, h1, ih h2]
    rfl

theorem memoryOf_append {pre post : List Region} {stk : Region} {x : ℕ}
    (hpre : ∀ r ∈ pre, r.contains x 1 = false) (hstk : stk.contains x 1) :
    memoryOf (pre ++ stk :: post) x = stk.host x := by
  have hfind : (pre ++ stk :: post).find? (fun r => r.contains x 1) = some stk := by
    rw [List.find?_append, List.find?_eq_none.2 fun r hr => by rw [hpre r hr]; decide,
      Option.none_or, List.find?_cons_of_pos (p := fun r : Region => r.contains x 1) hstk]
  rw [memoryOf, hfind]
  rfl

theorem backed_regions {lo hi : ℕ} (hhi : hi < 2 ^ 64) :
    Backed writeRegions memoryOf lo hi (HasStack lo hi) := by
  refine ⟨?_⟩
  rintro rs a bs ⟨pre, stk, post, rfl, rfl, rfl, hpre⟩ hne h1 h2
  have hpos := length_pos_iff.2 hne
  have hbyte : ∀ x, stk.base ≤ x → x < stk.base + stk.len → stk.contains x 1 := by
    intro x hx1 hx2
    refine contains_iff.2 ⟨hx1, ?_, ?_⟩ <;> simp only [wrap] <;> omega
  have hstk : stk.contains a bs.length := by
    refine contains_iff.2 ⟨h1, ?_, ?_⟩ <;> simp only [wrap] <;> omega
  -- a region that holds the range holds its first byte
  have hpre' : ∀ r ∈ pre, r.contains a bs.length = false := by
    intro r hr
    have hfirst := hpre r hr a h1 (by omega)
    by_contra hc
    rw [Bool.not_eq_false, contains_iff] at hc
    rw [← Bool.not_eq_true, contains_iff] at hfirst
    rw [wrap_of_lt (by omega)] at hc
    rw [wrap_of_lt (by omega)] at hfirst
    omega
  refine ⟨_, writeRegions_append hpre' hstk, ⟨pre, _, post, rfl, rfl, rfl, hpre⟩,
    fun x hx1 hx2 => ?_⟩
  have hmem : memoryOf (pre ++ stk :: post) x = stk.host x :=
    memoryOf_append (fun r hr => hpre r hr x hx1 hx2) (hbyte x hx1 hx2)
  rw [putBytes_congr hmem]
  exact memoryOf_append (fun r hr => hpre r hr x hx1 hx2) (hbyte x hx1 hx2)

theorem pushAll_contains {align sp : ℕ} (pieces : List Bytes) (b n : ℕ) :
    (pushAll writeRegions align pieces sp rs).2.2.map (fun r => r.contains b n) =
      rs.map fun r => r.contains b n := by
  induction pieces generalizing sp rs with
  | nil => rfl
  | cons bs pieces ih =>
    have hpush : (pushBytes writeRegions align bs sp rs).2.map (fun r => r.contains b n) =
        rs.map fun r => r.contains b n := by
      rw [pushBytes]
      cases h : writeRegions (subWord sp bs.length / align * align) bs rs with
      | none => rfl
      | some rs' => exact writeRegions_contains h b n
    exact ih.trans hpush

theorem uncovered_congr {b n : ℕ}
    (h : rs'.map (fun r => r.contains b n) = rs.map fun r => r.contains b n) :
    (∀ r ∈ rs', r.contains b n = false) ↔ ∀ r ∈ rs, r.contains b n = false := by
  have hall : ∀ l : List Region, (∀ r ∈ l, r.contains b n = false) ↔
      ∀ c ∈ l.map fun r => r.contains b n, c = false := by
    intro l
    simp
  rw [hall, hall, h]

end Regions

section Words

variable {rs rs' : List Region} {vs : List ℕ} {w lo hi : ℕ}

theorem putWords_refused (hw : w < 2 ^ 64) : (putWords vs w rs).1 = false ↔
    ∃ k < vs.length, ∀ r ∈ rs, r.contains (wrap (w + 8 * k)) 8 = false := by
  induction vs generalizing w rs with
  | nil => simp [putWords]
  | cons v vs ih =>
    have hhead : wrap (w + 8 * 0) = w := wrap_of_lt hw
    have hnext : ∀ k, wrap (wrap (w + 8) + 8 * k) = wrap (w + 8 * (k + 1)) := by
      intro k
      simp only [wrap]
      omega
    rw [putWords]
    cases h : writeRegions w (wordBytes v) rs with
    | none =>
      refine iff_of_true rfl ⟨0, by simp, ?_⟩
      rw [hhead]
      exact writeRegions_eq_none.1 h
    | some rs1 =>
      have hne : ¬∀ r ∈ rs, r.contains (wrap (w + 8 * 0)) 8 = false := by
        intro hall
        rw [hhead] at hall
        rw [writeRegions_eq_none.2 hall] at h
        cases h
      rw [ih (w := wrap (w + 8)) (Nat.mod_lt _ (by decide))]
      constructor
      · rintro ⟨k, hk, hall⟩
        rw [hnext, uncovered_congr (writeRegions_contains h _ _)] at hall
        exact ⟨k + 1, by simpa using hk, hall⟩
      · rintro ⟨k, hk, hall⟩
        obtain _ | k := k
        · exact absurd hall hne
        · refine ⟨k, by simpa using hk, ?_⟩
          rw [hnext, uncovered_congr (writeRegions_contains h _ _)]
          exact hall

theorem putWords_spec (hhi : hi < 2 ^ 64) (hrs : HasStack lo hi rs) (hlo : lo ≤ w)
    (hw : w + 8 * vs.length ≤ hi) : ∃ rs', putWords vs w rs = (true, rs') ∧ ∀ x, lo ≤ x →
    x < hi → memoryOf rs' x = putBytes (memoryOf rs) w (vs.flatMap wordBytes) x := by
  induction vs generalizing w rs with
  | nil => exact ⟨rs, rfl, fun x _ _ => (putBytes_of_apart (by simp; omega)).symm⟩
  | cons v vs ih =>
    rw [length_cons] at hw
    obtain ⟨rs1, h1, hrs1, hm1⟩ :=
      @(backed_regions hhi).write_ok rs w (wordBytes v) hrs (by simp [wordBytes]) hlo
      (by rw [length_wordBytes]; omega)
    have hwrap : wrap (w + 8) = w + 8 := by
      rw [wrap]
      omega
    obtain ⟨rs2, h2, hm2⟩ := ih hrs1 (w := w + 8) (by omega) (by omega)
    rw [putWords, h1]
    rw [hwrap]
    refine ⟨rs2, h2, fun x hx1 hx2 => ?_⟩
    rw [hm2 x hx1 hx2, flatMap_cons, putBytes_append, length_wordBytes,
      putBytes_congr (hm1 x hx1 hx2)]

end Words

/-! ## The portable builder is exact when there is room -/

section Build

variable {p : StackParams} {rs : List Region}

theorem build_eq (p : StackParams) (rs : List Region) : ∃ envpp argp randomAt rs1,
    pushAll writeRegions 1 p.pieces p.top rs = (envpp ++ (argp ++ [randomAt]), randomAt, rs1) ∧
    envpp.length = p.envp.length ∧ argp.length = p.argv.length ∧
    build p rs = match putWords (vector p.argv.length argp envpp (p.aux randomAt))
        (subWord randomAt (p.words * 8) / 16 * 16) rs1 with
      | (true, rs) => (.ok (subWord randomAt (p.words * 8) / 16 * 16), rs)
      | (false, rs) => (.error .efault, rs) := by
  have hE := @length_pushAll _ writeRegions 1 p.top rs (p.envp.map cstr)
  have hwords : 1 + p.argv.length + 1 + p.envp.length + 1 + (6 + 1) * 2 = p.words := by
    rw [StackParams.words]
    omega
  rw [StackParams.pieces, pushAll_append, build]
  generalize pushAll writeRegions 1 (p.envp.map cstr) p.top rs = rE at hE ⊢
  obtain ⟨envpp, sp1, rs1⟩ := rE
  have hA := @length_pushAll _ writeRegions 1 sp1 rs1 (p.argv.map cstr)
  dsimp only
  rw [pushAll_append]
  generalize pushAll writeRegions 1 (p.argv.map cstr) sp1 rs1 = rA at hA ⊢
  obtain ⟨argp, sp2, rs2⟩ := rA
  rw [length_map] at hE hA
  refine ⟨envpp, argp, _, _, rfl, hE, hA, ?_⟩
  rw [← hwords]
  rfl

theorem length_vector_build {envpp argp : List ℕ} (hE : envpp.length = p.envp.length)
    (hA : argp.length = p.argv.length) (randomAt : ℕ) :
    (vector p.argv.length argp envpp (p.aux randomAt)).length = p.words := by
  rw [length_vector, hE, hA, StackParams.words, StackParams.aux]
  rfl

/-- The vector is written below pieces that have found room, and the process reads what it is to
find. -/
theorem build_decodes {envpp argp : List ℕ} {randomAt arr : ℕ} {rs1 : List Region}
    (hrs : HasStack (p.top - p.size) p.top rs) (htop : p.top < 2 ^ 64)
    (hpush : pushAll writeRegions 1 p.pieces p.top rs =
        (envpp ++ (argp ++ [randomAt]), randomAt, rs1)) (hE : envpp.length = p.envp.length)
    (hA : argp.length = p.argv.length) (hlo : p.top - p.size ≤ arr) (harr : (arr : ℤ) = p.place)
    (hnul : p.start.NulFree) :
    Decodes (memoryOf (putWords (vector p.argv.length argp envpp (p.aux randomAt)) arr rs1).2)
      (p.top - p.size) p.top arr p.start := by
  have hlen := length_vector_build hE hA randomAt
  have hplace : p.place ≤ lowest 1 p.top (p.pieces.map List.length) - (p.words * 8 : ℕ) :=
    lower_le (by decide)
  have hne : ∀ bs ∈ p.pieces, bs ≠ [] := by
    intro bs hbs
    simp only [StackParams.pieces, mem_append, mem_map, mem_singleton] at hbs
    obtain ⟨s, -, rfl⟩ | ⟨s, -, rfl⟩ | rfl := hbs
    · exact append_ne_nil_of_right_ne_nil _ (cons_ne_nil _ _)
    · exact append_ne_nil_of_right_ne_nil _ (cons_ne_nil _ _)
    · exact cons_ne_nil _ _
  have hspec : Pushed 1 memoryOf _ _ _ _ _ rs (pushAll writeRegions 1 p.pieces p.top rs) :=
    pushAll_spec (backed_regions htop) (by decide) htop hrs hne le_rfl (by omega)
  rw [hpush] at hspec
  obtain ⟨hinv, hbot, hpieces, -⟩ := hspec
  dsimp only at hinv hbot hpieces
  rw [StackParams.pieces, forall₂_append_iff (by rw [length_map, hE]),
    forall₂_append_iff (by rw [length_map, hA]), List.forall₂_cons] at hpieces
  obtain ⟨henv, hargs, hrnd, -⟩ := hpieces
  have hrnd_le : randomAt ≤ p.top := by
    have := hrnd.2.1
    omega
  obtain ⟨rs2, hput, hmem⟩ :=
    @putWords_spec rs1 (vector p.argv.length argp envpp (p.aux randomAt)) arr _ _ htop hinv hlo
    (by omega)
  rw [hput]
  refine @decodes_of_vector _ _ _ _ p.start argp envpp (p.aux randomAt) (memoryOf rs1) randomAt []
    hlo hrnd_le htop ?_ ?_ hargs henv
    ?_ (by simp) hnul
  · rw [append_nil]
    show arr + 8 * (vector p.argv.length argp envpp (p.aux randomAt)).length ≤ randomAt
    omega
  · rw [append_nil]
    exact hmem
  · refine .cons (auxLaid (by decide) rfl)
      (.cons (auxLaid (by decide) rfl) (.cons (auxLaid (by decide) rfl) ?_))
    exact .cons (auxLaid (by decide) rfl)
      (.cons (auxLaid (by decide) rfl) (.cons (auxLaid (by decide) hrnd) .nil))

/-- **The portable builder.** With less than 2⁶⁴ bytes to place, its answer is exact if and only if
it refuses or the pieces and the vector fit into the stack region and no string holds a NUL. -/
theorem build_exact (hrs : HasStack (p.top - p.size) p.top rs) (htop : p.top < 2 ^ 64)
    (hsize : p.size ≤ p.top) (hneed : p.top - p.place < 2 ^ 64) :
    Exact (memoryOf (build p rs).2) (p.top - p.size) p.top p.start (build p rs).1 ↔
      p.Refused rs ∨ (p.top : ℤ) - p.size ≤ p.place ∧ p.start.NulFree := by
  obtain ⟨envpp, argp, randomAt, rs1, hpush, hE, hA, hbuild⟩ := build_eq p rs
  have hrandom : (randomAt : ℤ) = lowest 1 p.top (p.pieces.map List.length) % 2 ^ 64 := by
    have := @pushAll_place _ writeRegions 1 p.top rs (by decide) p.top (by omega) p.pieces
    rwa [hpush] at this
  have harr : ((subWord randomAt (p.words * 8) / 16 * 16 : ℕ) : ℤ) = p.place % 2 ^ 64 :=
    push_eq (by decide) hrandom
  have haligned : subWord randomAt (p.words * 8) / 16 * 16 % 16 = 0 := Nat.mul_mod_left _ _
  generalize subWord randomAt (p.words * 8) / 16 * 16 = arr at harr haligned hbuild
  have hlow : lowest 1 p.top (p.pieces.map List.length) ≤ p.top := lowest_le (by decide)
  have hplace : p.place ≤ lowest 1 p.top (p.pieces.map List.length) - (p.words * 8 : ℕ) :=
    lower_le (by decide)
  have hdecodes := @build_decodes p rs envpp argp randomAt arr rs1 hrs htop hpush hE hA
  have hrefused : (putWords (vector p.argv.length argp envpp (p.aux randomAt)) arr rs1).1 = false ↔
      p.Refused rs := by
    have hsame : ∀ b, (∀ r ∈ rs1, r.contains b 8 = false) ↔ ∀ r ∈ rs, r.contains b 8 = false := by
      intro b
      have := @pushAll_contains rs 1 p.top p.pieces b 8
      rw [hpush] at this
      exact uncovered_congr this
    have haddr : ∀ k : ℕ, wrap (arr + 8 * k) = ((p.place + 8 * k) % 2 ^ 64).toNat := by
      intro k
      rw [wrap]
      omega
    rw [putWords_refused (by omega), StackParams.Refused, length_vector_build hE hA]
    simp only [hsame, haddr]
  rw [hbuild]
  generalize putWords (vector p.argv.length argp envpp (p.aux randomAt)) arr rs1 =
    r at hrefused hdecodes ⊢
  obtain ⟨_ | _, rs2⟩ := r
  · exact iff_of_true trivial (.inl (hrefused.1 rfl))
  · rw [or_iff_right fun h => absurd (hrefused.2 h) (by simp)]
    constructor
    · rintro ⟨-, hdec⟩
      refine ⟨?_, hdec.nulFree⟩
      obtain ⟨_, _, _, h1, h2, _⟩ := hdec
      omega
    · rintro ⟨hfit, hnul⟩
      exact ⟨haligned, hdecodes (by omega) (by omega) hnul⟩

end Build

end Linuxity.Loader

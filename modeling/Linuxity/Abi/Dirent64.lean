import Linuxity.Abi.Dispatch
import Linuxity.Wire.Bytes

/-!
# Abi.Dirent64 — the records of a directory stream (`abi/wire/dirent64.hpp`)

`encodeDirent64` is the writer of the source.  `decodeDirents` is a reader, as a C library has one:
it goes from record to record by `d_reclen`, and a name ends at its first zero byte.
-/

namespace Linuxity.Abi

open Posix Wire Kernel List

structure Dirent where
  ino : Nat
  off : Nat
  type : Nat
  name : Str
  deriving DecidableEq

def dtypeCode : DType → Nat
  | .dir => 4
  | .regular => 8
  | .symlink => 10

def encodeDirent64 (e : Dirent) : Str :=
  le 8 e.ino ++ le 8 e.off ++ le 2 (direntReclen e.name) ++ le 1 e.type ++ e.name ++
    List.replicate (direntReclen e.name - 19 - e.name.length) (Char.ofNat 0)

def decodeDirent64 (bs : Str) : Option (Dirent × Str) :=
  let reclen := unle ((bs.drop 16).take 2)
  if reclen < 20 ∨ bs.length < reclen then none
  else
    some (⟨unle (bs.take 8), unle ((bs.drop 8).take 8), unle ((bs.drop 18).take 1),
      ((bs.take reclen).drop 19).takeWhile (· != Char.ofNat 0)⟩, bs.drop reclen)

def decodeFrom : Nat → Str → Option (List Dirent)
  | 0, bs => if bs = [] then some [] else none
  | fuel + 1, bs =>
    if bs = [] then some []
    else match decodeDirent64 bs with
      | none => none
      | some (e, rest) => (decodeFrom fuel rest).map (e :: ·)

def decodeDirents (bs : Str) : Option (List Dirent) := decodeFrom bs.length bs

/-! ## Lengths -/

theorem direntReclen_bounds (name : Str) : 20 + name.length ≤ direntReclen name ∧
    direntReclen name ≤ 27 + name.length ∧ direntReclen name % 8 = 0 := by
  unfold direntReclen
  omega

theorem length_encodeDirent64 (e : Dirent) : (encodeDirent64 e).length = direntReclen e.name := by
  have := (direntReclen_bounds e.name).1
  simp only [encodeDirent64, length_append, length_le, length_replicate]
  omega

/-! ## Reading a record back -/

/-- A record as it is read: numbers lose what does not fit their field. -/
def Dirent.clipped (e : Dirent) : Dirent := ⟨e.ino % 2 ^ 64, e.off % 2 ^ 64, e.type % 256, e.name⟩

/-- A name that a record can hold: it has no zero byte, and the length of its record fits the two
bytes of `d_reclen`. -/
def Holdable (name : Str) : Prop := Char.ofNat 0 ∉ name ∧ direntReclen name < 2 ^ 16

theorem takeWhile_padded {name : Str} (h : Char.ofNat 0 ∉ name) {n : Nat} (hn : 0 < n)
    (rest : Str) :
    (name ++ List.replicate n (Char.ofNat 0) ++ rest).takeWhile (· != Char.ofNat 0) = name := by
  have hall : ∀ c ∈ name, (c != Char.ofNat 0) := by
    intro c hc
    simpa using fun h0 : c = Char.ofNat 0 => h (h0 ▸ hc)
  obtain ⟨n, rfl⟩ := Nat.exists_eq_succ_of_ne_zero hn.ne'
  rw [append_assoc, takeWhile_append_of_pos hall, replicate_succ, cons_append,
    takeWhile_cons_of_neg (by simp), append_nil]

theorem unle_reclen (e : Dirent) (rest : Str) :
    unle (((encodeDirent64 e ++ rest).drop 16).take 2) = direntReclen e.name % 2 ^ 16 := by
  have hsplit : encodeDirent64 e ++ rest =
      (le 8 e.ino ++ le 8 e.off) ++ (le 2 (direntReclen e.name) ++ (le 1 e.type ++ (e.name ++
      (List.replicate (direntReclen e.name - 19 - e.name.length) (Char.ofNat 0) ++ rest)))) := by
    simp only [encodeDirent64, append_assoc]
  rw [hsplit, drop_left' (by simp), take_left' (by simp), unle_le]
  rfl

theorem decodeDirent64_encode {e : Dirent} (hn : Holdable e.name) (rest : Str) :
    decodeDirent64 (encodeDirent64 e ++ rest) = some (e.clipped, rest) := by
  obtain ⟨hzero, hlen⟩ := hn
  have hb := (direntReclen_bounds e.name).1
  have htot := length_encodeDirent64 e
  set pad := List.replicate (direntReclen e.name - 19 - e.name.length) (Char.ofNat 0) with hpad
  -- the fields, one behind the other
  have hsplit : encodeDirent64 e ++ rest =
      le 8 e.ino ++
      (le 8 e.off ++ (le 2 (direntReclen e.name) ++ (le 1 e.type ++ (e.name ++ pad ++ rest)))) := by
    simp only [encodeDirent64, append_assoc, hpad]
  have hreclen : unle (((encodeDirent64 e ++ rest).drop 16).take 2) = direntReclen e.name := by
    rw [unle_reclen, Nat.mod_eq_of_lt hlen]
  have hino : unle ((encodeDirent64 e ++ rest).take 8) = e.ino % 2 ^ 64 := by
    rw [hsplit, take_left' (by simp), unle_le]
    rfl
  have hoff : unle (((encodeDirent64 e ++ rest).drop 8).take 8) = e.off % 2 ^ 64 := by
    rw [hsplit, drop_left' (by simp), take_left' (by simp), unle_le]
    rfl
  have htype : unle (((encodeDirent64 e ++ rest).drop 18).take 1) = e.type % 256 := by
    rw [hsplit, ← append_assoc, ← append_assoc, drop_left' (by simp), take_left' (by simp), unle_le]
    rfl
  have hname : (((encodeDirent64 e ++ rest).take (direntReclen e.name)).drop 19).takeWhile
      (· != Char.ofNat 0) = e.name := by
    rw [take_left' htot, encodeDirent64, append_assoc _ e.name, drop_left' (by simp)]
    simpa using takeWhile_padded hzero (by omega) []
  unfold decodeDirent64
  dsimp only
  rw [hreclen, hino, hoff, htype, hname, if_neg (by rw [length_append, htot]; omega),
    drop_left' htot]
  rfl

theorem decodeFrom_encode {es : List Dirent} (hes : ∀ e ∈ es, Holdable e.name) {fuel : Nat}
    (hf : es.length ≤ fuel) :
    decodeFrom fuel (es.flatMap encodeDirent64) = some (es.map Dirent.clipped) := by
  induction es generalizing fuel with
  | nil => cases fuel <;> simp [decodeFrom]
  | cons e es ih =>
    obtain ⟨fuel, rfl⟩ : ∃ n, fuel = n + 1 := ⟨fuel - 1, by rw [length_cons] at hf; omega⟩
    have hne : encodeDirent64 e ++ es.flatMap encodeDirent64 ≠ [] := by
      intro h
      have := congrArg List.length h
      have hb := (direntReclen_bounds e.name).1
      rw [length_append, length_encodeDirent64, length_nil] at this
      omega
    rw [flatMap_cons, decodeFrom, if_neg hne, decodeDirent64_encode (hes e (by simp))]
    dsimp only
    rw [ih (fun d hd => hes d (mem_cons_of_mem _ hd)) (by rw [length_cons] at hf; omega)]
    rfl

theorem length_le_flatMap_encode (es : List Dirent) :
    es.length ≤ (es.flatMap encodeDirent64).length := by
  induction es with
  | nil => simp
  | cons e es ih =>
    have hb := (direntReclen_bounds e.name).1
    rw [flatMap_cons, length_append, length_encodeDirent64, length_cons]
    omega

/-- Records written one behind the other are read back in order. -/
theorem decodeDirents_encode {es : List Dirent} (hes : ∀ e ∈ es, Holdable e.name) :
    decodeDirents (es.flatMap encodeDirent64) = some (es.map Dirent.clipped) :=
  decodeFrom_encode hes (length_le_flatMap_encode es)

end Linuxity.Abi

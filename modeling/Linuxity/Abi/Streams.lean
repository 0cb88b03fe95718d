import Linuxity.Abi.Dirent64
import Linuxity.Logic.Run

/-!
# Abi.Streams — reading and seeking a directory stream (`abi/syscall.hpp`)

A stream has an index and a byte offset, which `getdents64` moves together and `lseek` finds again
from an offset.  `StreamAt` ties the two: the offset is what the records in front of the index take.
-/

namespace Linuxity.Abi

open Posix Wire Kernel Logic List

/-! ## Records of entries -/

variable (es : List VirtualDirent)

def spanOf : Nat := (es.map fun e => direntReclen e.name).sum

def direntAt (pos off : Nat) (e : VirtualDirent) : Dirent :=
  ⟨if e.ino ≠ 0 then e.ino else pos + 1, off + direntReclen e.name, dtypeCode e.type, e.name⟩

def direntsFrom : Nat → Nat → List VirtualDirent → List Dirent
  | _, _, [] => []
  | pos, off, e :: es => direntAt pos off e :: direntsFrom (pos + 1) (off + direntReclen e.name) es

structure Filled where
  out : Str
  pos : Nat
  byteOff : Nat

def fill (cap : Nat) : List VirtualDirent → Filled → Filled
  | [], s => s
  | e :: es, s =>
    if cap < s.out.length + direntReclen e.name then s
    else fill cap es ⟨s.out ++ encodeDirent64 (direntAt s.pos s.byteOff e), s.pos + 1,
      s.byteOff + direntReclen e.name⟩

def getdentsOut (r : Regs) (w : World) : Str :=
  match (dirStream (int32 (r.arg 0)) w).1 with
  | none => []
  | some ds => (fill (r.arg 2) (ds.entries.drop ds.pos) ⟨[], ds.pos, ds.byteOff⟩).out

@[simp] theorem spanOf_nil : spanOf [] = 0 := rfl

@[simp] theorem spanOf_cons (e : VirtualDirent) (es : List VirtualDirent) :
    spanOf (e :: es) = direntReclen e.name + spanOf es := by
  simp [spanOf]

theorem spanOf_append (as bs : List VirtualDirent) : spanOf (as ++ bs) = spanOf as + spanOf bs := by
  simp [spanOf]

theorem spanOf_take_add (i j : Nat) :
    spanOf (es.take (i + j)) = spanOf (es.take i) + spanOf ((es.drop i).take j) := by
  rw [take_add, spanOf_append]

theorem direntReclen_pos (name : Str) : 0 < direntReclen name := by
  have := (direntReclen_bounds name).1
  omega

theorem direntsFrom_append (pos off : Nat) (as bs : List VirtualDirent) :
    direntsFrom pos off (as ++ bs) = direntsFrom pos off as ++
      direntsFrom (pos + as.length) (off + spanOf as) bs := by
  induction as generalizing pos off with
  | nil => simp [direntsFrom]
  | cons e as ih =>
    simp only [cons_append, direntsFrom, ih, length_cons, spanOf_cons]
    rw [Nat.add_assoc, Nat.add_comm 1, Nat.add_assoc off]

/-- The records of entries that follow one another in the listing. -/
theorem direntsFrom_take_add {pos i : Nat} (hi : pos + i ≤ es.length) (j : Nat) :
    direntsFrom pos (spanOf (es.take pos)) ((es.drop pos).take (i + j)) =
      direntsFrom pos (spanOf (es.take pos)) ((es.drop pos).take i) ++
        direntsFrom (pos + i) (spanOf (es.take (pos + i))) ((es.drop (pos + i)).take j) := by
  rw [take_add, drop_drop, direntsFrom_append, length_take, length_drop, Nat.min_eq_left (by omega),
    spanOf_take_add]

theorem mem_direntsFrom_name {pos off : Nat} {es : List VirtualDirent} {d : Dirent}
    (hd : d ∈ direntsFrom pos off es) : ∃ e ∈ es, d.name = e.name := by
  induction es generalizing pos off with
  | nil => cases hd
  | cons e es ih =>
    rcases mem_cons.1 hd with rfl | hd
    · exact ⟨e, by simp, rfl⟩
    · obtain ⟨e', he', h⟩ := ih hd
      exact ⟨e', .tail _ he', h⟩

theorem length_flatMap_direntsFrom (pos off : Nat) (es : List VirtualDirent) :
    ((direntsFrom pos off es).flatMap encodeDirent64).length = spanOf es := by
  induction es generalizing pos off with
  | nil => rfl
  | cons e es ih =>
    rw [direntsFrom, flatMap_cons, length_append, ih, length_encodeDirent64, spanOf_cons]
    rfl

theorem spanOf_aligned : spanOf es % 8 = 0 := by
  induction es with
  | nil => rfl
  | cons e es ih =>
    have := (direntReclen_bounds e.name).2.2
    rw [spanOf_cons]
    omega

/-! ## The loop -/

theorem length_out_next (s : Filled) (e : VirtualDirent) :
    (s.out ++ encodeDirent64 (direntAt s.pos s.byteOff e)).length =
      s.out.length + direntReclen e.name := by
  rw [length_append, length_encodeDirent64]
  rfl

/-- The loop writes the records of the entries that fit, and stops at one that does not. -/
theorem fill_spec (cap : Nat) (es : List VirtualDirent) (s : Filled) :
    ∃ n ≤ es.length, fill cap es s =
        ⟨s.out ++ (direntsFrom s.pos s.byteOff (es.take n)).flatMap encodeDirent64, s.pos + n,
      s.byteOff + spanOf (es.take n)⟩ ∧
      (s.out.length ≤ cap → s.out.length + spanOf (es.take n) ≤ cap) ∧
      ∀ e ∈ es[n]?, cap < s.out.length + spanOf (es.take n) + direntReclen e.name := by
  induction es generalizing s with
  | nil => exact ⟨0, le_rfl, by simp [fill, direntsFrom], by simp, by simp⟩
  | cons e es ih =>
    rw [fill]
    split_ifs with hc
    · exact ⟨0, Nat.zero_le _, by simp [direntsFrom], by simp, by simpa using hc⟩
    · obtain ⟨n, hn, he, hcap, hstop⟩ :=
        ih ⟨s.out ++ encodeDirent64 (direntAt s.pos s.byteOff e), s.pos + 1,
          s.byteOff + direntReclen e.name⟩
      rw [length_out_next] at hcap hstop
      refine ⟨n + 1, Nat.succ_le_succ hn, ?_, fun _ => ?_, fun e' he' => ?_⟩
      · rw [he, take_succ_cons, direntsFrom, flatMap_cons, spanOf_cons, append_assoc]
        rw [Nat.add_assoc s.pos, Nat.add_comm 1 n, Nat.add_assoc s.byteOff]
      · have := hcap (by omega)
        rw [take_succ_cons, spanOf_cons]
        omega
      · have := hstop e' (by simpa using he')
        rw [take_succ_cons, spanOf_cons]
        omega

/-- The loop that only counts, against the one that writes. -/
theorem fillFrom_eq (cap : Nat) (es : List VirtualDirent) (s : Filled) (k : Nat) :
    (fillFrom cap es s.out.length k).1 = (fill cap es s).out.length ∧
      s.pos + (fillFrom cap es s.out.length k).2 = (fill cap es s).pos + k ∧
      s.byteOff + (fill cap es s).out.length = (fill cap es s).byteOff + s.out.length := by
  induction es generalizing s k with
  | nil => exact ⟨rfl, rfl, rfl⟩
  | cons e es ih =>
    rw [fill, fillFrom]
    split_ifs with hc
    · exact ⟨rfl, rfl, rfl⟩
    · obtain ⟨h1, h2, h3⟩ :=
        ih ⟨s.out ++ encodeDirent64 (direntAt s.pos s.byteOff e), s.pos + 1,
          s.byteOff + direntReclen e.name⟩ (k + 1)
      dsimp only at h1 h2 h3
      rw [length_out_next] at h1 h2 h3
      exact ⟨h1, by omega, by omega⟩

/-! ## The stream of a descriptor -/

def StreamAt (fd : Int) (es : List VirtualDirent) (pos : Nat) (w : World) : Prop :=
  ∃ ds, (dirStream fd w).1 = some ds ∧ ds.entries = es ∧ ds.pos = pos ∧ pos ≤ es.length ∧
    ds.byteOff = spanOf (es.take pos)

def Fails (o : Outcome) : Prop := ∃ e, o = .fail e

section Stream

variable {fd : Int} {w : World} {r : Regs} {t : Task}

variable {ds : DirStream} {es : List VirtualDirent}

theorem dirStream_built (h : (dirStream fd w).1 = some ds) : ds.lazy = [] := by
  unfold dirStream at h
  split at h
  · cases h
  · dsimp only at h
    split_ifs at h with h1 h2
    · cases h
      exact h1
    · cases h
      rfl

theorem dirStream_setDirStream (w : World) (hl : ds.lazy = []) :
    (dirStream fd (setDirStream fd ds w)).1 = some ds := by
  have hfds : (setDirStream fd ds w).fds.dirs fd = some ds := by
    simp [setDirStream, World.setFds, World.fds]
  unfold dirStream
  rw [hfds]
  dsimp only
  rw [if_pos hl]

theorem doGetdents64_of_stream (h : (dirStream (int32 (r.arg 0)) w).1 = some ds) :
    let s := fill (r.arg 2) (ds.entries.drop ds.pos) ⟨[], ds.pos, ds.byteOff⟩
    (doGetdents64 t r w).1 =
      (if s.out = [] then if ds.pos < ds.entries.length then .fail .einval else .virtualize 0
        else stored t (r.arg 1) s.out.length) ∧
    (dirStream (int32 (r.arg 0)) (doGetdents64 t r w).2).1 =
      some { ds with pos := s.pos, byteOff := s.byteOff } := by
  intro s
  have hl := dirStream_built h
  obtain ⟨h1, h2, h3⟩ := fillFrom_eq (r.arg 2) (ds.entries.drop ds.pos) ⟨[], ds.pos, ds.byteOff⟩ 0
  change (fillFrom _ _ 0 0).1 = s.out.length at h1
  change ds.pos + (fillFrom _ _ 0 0).2 = s.pos + 0 at h2
  have hds : Runs (dirStream (int32 (r.arg 0))) w fun d _ => d = some ds := h
  refine @runs_bind _ _ _ _ _ _ _ (fun o w' => o = (if s.out = [] then
    if ds.pos < ds.entries.length then .fail .einval else .virtualize 0
    else stored t (r.arg 1) s.out.length) ∧
    (dirStream (int32 (r.arg 0)) w').1 = some { ds with pos := s.pos, byteOff := s.byteOff }) hds
      fun d w1 hd => ?_
  subst hd
  refine runs_modify_bind ?_
  rw [h1, h2, h3]
  refine runs_ite (fun h0 => ?_) fun h0 => ?_
  · exact ⟨(if_pos (length_eq_zero_iff.1 h0)).symm, dirStream_setDirStream _ hl⟩
  · exact ⟨(if_neg (mt length_eq_zero_iff.2 h0)).symm, dirStream_setDirStream _ hl⟩

theorem doGetdents64_of_none (h : (dirStream (int32 (r.arg 0)) w).1 = none) :
    (doGetdents64 t r w).1 = .fwd := by
  have hds : Runs (dirStream (int32 (r.arg 0))) w fun d _ => d = none := h
  refine @runs_bind _ _ _ _ _ _ _ (fun o _ => o = Outcome.fwd) hds fun d w1 hd => ?_
  subst hd
  exact runs_pure rfl

/-- The records of `n` entries from `pos` on. -/
def recordsAt (es : List VirtualDirent) (pos n : ℕ) : Str :=
  (direntsFrom pos (spanOf (es.take pos)) ((es.drop pos).take n)).flatMap encodeDirent64

/-- One read: it has the records of the next entries for the task, as many as fit. -/
theorem StreamAt.read {pos : Nat} (hs : StreamAt (int32 (r.arg 0)) es pos w) :
    ∃ n, pos + n ≤ es.length ∧ getdentsOut r w = recordsAt es pos n ∧
      (getdentsOut r w).length ≤ r.arg 2 ∧
      (∀ e ∈ es[pos + n]?, r.arg 2 < (getdentsOut r w).length + direntReclen e.name) ∧
      StreamAt (int32 (r.arg 0)) es (pos + n) (doGetdents64 t r w).2 := by
  obtain ⟨ds, hds, rfl, rfl, hle, hoff⟩ := hs
  obtain ⟨-, hafter⟩ := @doGetdents64_of_stream w r t ds hds
  obtain ⟨n, hn, he, hcap, hstop⟩ :=
    fill_spec (r.arg 2) (ds.entries.drop ds.pos) ⟨[], ds.pos, ds.byteOff⟩
  have hout : getdentsOut r w =
      (direntsFrom ds.pos ds.byteOff ((ds.entries.drop ds.pos).take n)).flatMap encodeDirent64 := by
    unfold getdentsOut
    rw [hds]
    dsimp only
    rw [he, nil_append]
  have hlen : (getdentsOut r w).length = spanOf ((ds.entries.drop ds.pos).take n) := by
    rw [hout, length_flatMap_direntsFrom]
  rw [length_drop] at hn
  simp only [length_nil, Nat.zero_le, Nat.zero_add, forall_const] at hcap hstop
  refine ⟨n, by omega, by rw [hout, hoff, recordsAt], by rw [hlen]; exact hcap, fun e hmem => ?_,
    ?_⟩
  · rw [hlen]
    exact hstop e (by rw [List.getElem?_drop]; exact hmem)
  · rw [he] at hafter
    exact ⟨_, hafter, rfl, rfl, by omega, by simp only [spanOf_take_add, hoff]⟩

/-! ## Seeking -/

/-- The walk stops at the first entry that starts at the target or behind it. -/
theorem seekFrom_spec (target : Nat) (es : List VirtualDirent) (i cur : Nat) :
    ∃ n ≤ es.length, seekFrom target es i cur = (i + n, cur + spanOf (es.take n)) ∧
      (n < es.length → target ≤ cur + spanOf (es.take n)) ∧
      ∀ j < n, cur + spanOf (es.take j) < target := by
  induction es generalizing i cur with
  | nil => exact ⟨0, le_rfl, by simp [seekFrom], by simp, by simp⟩
  | cons e es ih =>
    rw [seekFrom]
    split_ifs with hc
    · exact ⟨0, Nat.zero_le _, by simp, by simpa using hc, by simp⟩
    · obtain ⟨n, hn, he, hle, hlt⟩ := ih (i + 1) (cur + direntReclen e.name)
      refine ⟨n + 1, Nat.succ_le_succ hn, ?_, fun h => ?_, fun j hj => ?_⟩
      · rw [he, take_succ_cons, spanOf_cons, Nat.add_assoc, Nat.add_comm 1 n, Nat.add_assoc]
      · have := hle (by rw [length_cons] at h; omega)
        rw [take_succ_cons, spanOf_cons]
        omega
      · rcases j with _ | j
        · simpa using hc
        · have := hlt j (by omega)
          rw [take_succ_cons, spanOf_cons]
          omega

theorem spanOf_take_lt {i j : Nat} (hij : i < j) (hj : j ≤ es.length) :
    spanOf (es.take i) < spanOf (es.take j) := by
  obtain ⟨k, rfl⟩ : ∃ k, j = i + (k + 1) := ⟨j - i - 1, by omega⟩
  obtain ⟨e, rest, hd⟩ : ∃ e rest, es.drop i = e :: rest :=
    exists_cons_of_ne_nil fun h => by
      have := congrArg List.length h
      rw [length_drop, length_nil] at this
      omega
  have := direntReclen_pos e.name
  rw [spanOf_take_add, hd, take_succ_cons, spanOf_cons]
  omega

/-- An offset at which an entry starts leads to that entry. -/
theorem seekFrom_span {i : Nat} (hi : i ≤ es.length) :
    seekFrom (spanOf (es.take i)) es 0 0 = (i, spanOf (es.take i)) := by
  obtain ⟨n, hn, he, hle, hlt⟩ := seekFrom_spec (spanOf (es.take i)) es 0 0
  simp only [Nat.zero_add] at he hle hlt
  have hni : n = i := by
    rcases Nat.lt_trichotomy n i with h | h | h
    · have h1 := hle (by omega)
      have h2 := spanOf_take_lt h hi
      omega
    · exact h
    · exact absurd (hlt i h) (lt_irrefl _)
  rw [he, hni]

theorem StreamAt.seek {pos : Nat} (hs : StreamAt (int32 (r.arg 0)) es pos w) :
    ∃ pos', StreamAt (int32 (r.arg 0)) es pos' (doLseek r w).2 ∧
      ∀ i ≤ es.length, int32 (r.arg 2) = 0 → int64 (r.arg 1) = spanOf (es.take i) → pos' = i := by
  obtain ⟨ds, hds, rfl, rfl, hle, hoff⟩ := hs
  have hl := dirStream_built hds
  set target : Int :=
    if int32 (r.arg 2) = 0 then int64 (r.arg 1)
    else if int32 (r.arg 2) = 1 then ds.byteOff + int64 (r.arg 1) else -1
    with htarget
  have hrun : (doLseek r w).2 = if target < 0 then (dirStream (int32 (r.arg 0)) w).2
      else setDirStream (int32 (r.arg 0)) { ds with
        pos := (seekFrom target.toNat ds.entries 0 0).1,
          byteOff := (seekFrom target.toNat ds.entries 0 0).2 }
        (dirStream (int32 (r.arg 0)) w).2 := by
    have h : Runs (dirStream (int32 (r.arg 0))) w fun d w1 =>
        d = some ds ∧ w1 = (dirStream (int32 (r.arg 0)) w).2 := ⟨hds, rfl⟩
    refine @runs_bind _ _ _ _ _ _ _ (fun _ w' => w' = _) h fun d w1 hd => ?_
    obtain ⟨rfl, rfl⟩ := hd
    refine runs_ite (fun hneg => ?_) fun hneg => ?_
    · exact runs_pure (if_pos hneg).symm
    · exact runs_modify_bind (runs_pure (if_neg hneg).symm)
  rw [hrun]
  split_ifs with hneg
  · refine ⟨ds.pos, ⟨ds, ?_, rfl, rfl, hle, hoff⟩, fun i hi h0 hi' => ?_⟩
    · -- the listing has been built, so it is there again
      unfold dirStream at hds ⊢
      rcases hd : w.fds.dirs (int32 (r.arg 0)) with _ | d
      · rw [hd] at hds
        cases hds
      · rw [hd] at hds
        dsimp only at hds ⊢
        by_cases hlz : d.lazy = []
        · rw [if_pos hlz] at hds ⊢
          rw [hd]
          dsimp only
          rw [if_pos hlz]
          exact hds
        · rw [if_neg hlz] at hds ⊢
          dsimp only at hds ⊢
          rw [hds]
          simp [World.setFds, World.fds, hl]
    · rw [if_pos h0, hi'] at htarget
      omega
  · obtain ⟨n, hn, he, -, -⟩ := seekFrom_spec target.toNat ds.entries 0 0
    refine ⟨n, ⟨_, dirStream_setDirStream _ hl, rfl, by simp [he], hn, by simp [he]⟩,
      fun i hi h0 hi' => ?_⟩
    have ht : target.toNat = spanOf (ds.entries.take i) := by
      rw [htarget, if_pos h0, hi', Int.toNat_natCast]
    rw [ht, seekFrom_span hi] at he
    simpa using (congrArg Prod.fst he).symm

end Stream

/-! ## Sequences of calls -/

inductive StreamCall where
  | getdents (t : Task) (r : Regs)
  | lseek (r : Regs)

namespace StreamCall

def fd : StreamCall → Int
  | getdents _ r => int32 (r.arg 0)
  | lseek r => int32 (r.arg 0)

def serve : StreamCall → Act World Outcome
  | getdents t r => doGetdents64 t r
  | lseek r => doLseek r

def step (w : World) (c : StreamCall) : World := (c.serve w).2

def delivered (w : World) : StreamCall → Str
  | getdents t r => if t.storable (r.arg 1) then getdentsOut r w else []
  | lseek _ => []

def deliveredAll : World → List StreamCall → Str
  | _, [] => []
  | w, c :: cs => c.delivered w ++ deliveredAll (step w c) cs

/-- A read whose buffer can be written, and holds the next record. -/
def Roomy (w : World) : StreamCall → Prop
  | getdents t r => t.storable (r.arg 1) ∧
      ∀ ds, (dirStream (int32 (r.arg 0)) w).1 = some ds →
      ∀ e ∈ ds.entries[ds.pos]?, direntReclen e.name ≤ r.arg 2
  | lseek _ => False

end StreamCall

open StreamCall

/-- The bytes hold the records from the one of entry `i` on, and one at least if the buffer holds
it. -/
def ResumesAt (es : List VirtualDirent) (i cap : Nat) (out : Str) : Prop :=
  ∃ n, i + n ≤ es.length ∧ decodeDirents out =
      some ((direntsFrom i (spanOf (es.take i)) ((es.drop i).take n)).map Dirent.clipped) ∧
    ∀ e ∈ es[i]?, direntReclen e.name ≤ cap → 0 < n

/-- Reads of a stream at its start go through the entries once and in order; and after any reads and
seeks, a seek to the offset in a record leads behind that record, and a seek to zero to the
start. -/
structure Enumerates (fd : Int) (es : List VirtualDirent) (w : World) : Prop where
  inOrder : ∀ calls : List StreamCall, (∀ c ∈ calls, c.fd = fd) → Along step Roomy w calls →
    ∃ n, n ≤ es.length ∧ min calls.length es.length ≤ n ∧
      decodeDirents (deliveredAll w calls) = some ((direntsFrom 0 0 (es.take n)).map Dirent.clipped)
  bounded : ∀ calls : List StreamCall, (∀ c ∈ calls, c.fd = fd) → ∀ r : Regs, int32 (r.arg 0) = fd →
    (getdentsOut r (calls.foldl step w)).length ≤ r.arg 2 ∧
      ∃ ds : List Dirent, getdentsOut r (calls.foldl step w) = ds.flatMap encodeDirent64 ∧
        ∀ k, ((ds.take k).flatMap encodeDirent64).length % 8 = 0
  seeks : ∀ calls : List StreamCall, (∀ c ∈ calls, c.fd = fd) →
    ∀ r r' : Regs, int32 (r.arg 0) = fd → int32 (r'.arg 0) = fd → int32 (r.arg 2) = 0 →
    (∀ i d, ((direntsFrom 0 0 es).map Dirent.clipped)[i]? = some d → r.arg 1 = d.off →
      ResumesAt es (i + 1) (r'.arg 2) (getdentsOut r' (doLseek r (calls.foldl step w)).2)) ∧
    (r.arg 1 = 0 → ResumesAt es 0 (r'.arg 2) (getdentsOut r' (doLseek r (calls.foldl step w)).2))

section Sequences

variable {fd : Int} {es : List VirtualDirent} {w : World}

variable {pos : Nat} {calls : List StreamCall} {r : Regs}

/-- One call keeps the index and the offset together. -/
theorem StreamAt.step (hs : StreamAt fd es pos w) {c : StreamCall} (hc : c.fd = fd) :
    ∃ pos', StreamAt fd es pos' (StreamCall.step w c) := by
  subst hc
  rcases c with ⟨t, r⟩ | r
  · obtain ⟨n, -, -, -, -, h⟩ := @StreamAt.read w r t es pos hs
    exact ⟨_, h⟩
  · obtain ⟨pos', h, -⟩ := StreamAt.seek hs
    exact ⟨_, h⟩

theorem StreamAt.run (hs : StreamAt fd es pos w) (hc : ∀ c ∈ calls, c.fd = fd) :
    ∃ pos', StreamAt fd es pos' (calls.foldl StreamCall.step w) := by
  induction calls generalizing w pos with
  | nil => exact ⟨pos, hs⟩
  | cons c calls ih =>
    obtain ⟨pos1, h₁⟩ := hs.step (hc c (by simp))
    exact ih h₁ fun d hd => hc d (.tail _ hd)

/-- A read with room for the next record gets one record at least. -/
theorem StreamAt.read_roomy {t : Task} (hs : StreamAt (int32 (r.arg 0)) es pos w)
    (hroom : Roomy w (.getdents t r)) :
    ∃ n, pos + n ≤ es.length ∧ (pos < es.length → 0 < n) ∧
      (StreamCall.getdents t r).delivered w = recordsAt es pos n ∧
      StreamAt (int32 (r.arg 0)) es (pos + n) (StreamCall.step w (.getdents t r)) := by
  obtain ⟨n, hn, hout, -, hstop, hafter⟩ := @StreamAt.read w r t es pos hs
  refine ⟨n, hn, fun hpos => ?_, ?_, hafter⟩
  · by_contra h0
    obtain rfl : n = 0 := by omega
    obtain ⟨ds, hds, rfl, rfl, -⟩ := hs
    have hget : ds.entries[ds.pos]? = some (ds.entries.get ⟨ds.pos, hpos⟩) :=
      List.getElem?_eq_getElem hpos
    have h1 := hroom.2 ds hds _ hget
    have h2 := hstop (ds.entries.get ⟨ds.pos, hpos⟩) hget
    rw [hout] at h2
    simp [recordsAt, direntsFrom] at h2
    simp at h1
    omega
  · rw [delivered, if_pos hroom.1, hout]

/-- A run of reads, each of which gets `k` records at least if there are any left. -/
theorem StreamAt.reads {P : World → StreamCall → Prop} {k : ℕ} (hs : StreamAt fd es pos w)
    (hc : ∀ c ∈ calls, c.fd = fd) (hP : Along StreamCall.step P w calls)
    (hseek : ∀ {r w}, ¬P w (.lseek r))
    (hstep : ∀ {t r pos w}, StreamAt (int32 (r.arg 0)) es pos w → P w (.getdents t r) →
        ∃ n, pos + n ≤ es.length ∧ (pos < es.length → k ≤ n) ∧
        (StreamCall.getdents t r).delivered w = recordsAt es pos n ∧
        StreamAt (int32 (r.arg 0)) es (pos + n) (StreamCall.step w (.getdents t r))) :
    ∃ n, pos + n ≤ es.length ∧ min (k * calls.length) (es.length - pos) ≤ n ∧
      StreamAt fd es (pos + n) (calls.foldl StreamCall.step w) ∧
      deliveredAll w calls = recordsAt es pos n := by
  induction calls generalizing w pos with
  | nil =>
    exact ⟨0, hs.choose_spec.2.2.2.1, by simp, hs, by simp [deliveredAll, recordsAt, direntsFrom]⟩
  | cons c calls ih =>
    have hfd := hc c (by simp)
    rcases c with ⟨t, r⟩ | r
    · subst hfd
      obtain ⟨n, hn, hprog, hout, hafter⟩ := hstep hs hP.1
      obtain ⟨m, hm, hmin, hat, hrest⟩ := ih hafter (fun d hd => hc d (.tail _ hd)) hP.2
      refine ⟨n + m, by omega, ?_, ?_, ?_⟩
      · rw [length_cons, Nat.mul_succ]
        by_cases hpos : pos < es.length
        · have := hprog hpos
          omega
        · omega
      · rw [← Nat.add_assoc]
        exact hat
      · rw [deliveredAll, hout, hrest]
        unfold recordsAt
        rw [direntsFrom_take_add es hn, flatMap_append]
    · exact absurd hP.1 hseek

theorem holdable_direntsFrom (hes : ∀ e ∈ es, Holdable e.name) {as : List VirtualDirent}
    (has : as ⊆ es) (pos off : Nat) : ∀ d ∈ direntsFrom pos off as, Holdable d.name := by
  intro d hd
  obtain ⟨e, he, hn⟩ := mem_direntsFrom_name hd
  rw [hn]
  exact hes e (has he)

theorem direntsFrom_take (pos off k : Nat) (es : List VirtualDirent) :
    (direntsFrom pos off es).take k = direntsFrom pos off (es.take k) := by
  induction es generalizing pos off k with
  | nil => simp [direntsFrom]
  | cons e es ih =>
    rcases k with _ | k
    · simp [direntsFrom]
    · rw [direntsFrom, take_succ_cons, take_succ_cons, direntsFrom, ih]

theorem direntsFrom_off {off i : Nat} {d : Dirent} (hd : (direntsFrom pos off es)[i]? = some d) :
    i < es.length ∧ d.off = off + spanOf (es.take (i + 1)) := by
  induction es generalizing pos off i with
  | nil => simp [direntsFrom] at hd
  | cons e es ih =>
    rcases i with _ | i
    · rw [direntsFrom, List.getElem?_cons_zero, Option.some.injEq] at hd
      subst hd
      exact ⟨by simp, by simp [direntAt]⟩
    · rw [direntsFrom, List.getElem?_cons_succ] at hd
      obtain ⟨h1, h2⟩ := ih hd
      refine ⟨by rw [length_cons]; omega, ?_⟩
      rw [h2, take_succ_cons, spanOf_cons, Nat.add_assoc]

theorem int64_of_lt {n : Nat} (h : n < 2 ^ 63) : int64 n = n := by
  have hmod : n % 2 ^ 64 = n := Nat.mod_eq_of_lt (by omega)
  rw [int64, hmod, if_pos h]
  omega

/-- A read of a stream at `i` resumes there. -/
theorem StreamAt.resumes {i : Nat} (hs : StreamAt (int32 (r.arg 0)) es i w)
    (hes : ∀ e ∈ es, Holdable e.name) : ResumesAt es i (r.arg 2) (getdentsOut r w) := by
  obtain ⟨n, hn, hout, -, hstop, -⟩ := StreamAt.read (t := { mem := .ofText [] }) hs
  refine ⟨n, hn, ?_, fun e he hcap => ?_⟩
  · rw [hout, recordsAt, decodeDirents_encode]
    exact holdable_direntsFrom hes (fun e he => mem_of_mem_drop (mem_of_mem_take he)) _ _
  · by_contra h0
    obtain rfl : n = 0 := by omega
    have := hstop e he
    rw [hout] at this
    simp [recordsAt, direntsFrom] at this
    omega

/-- Every stream whose names fit their records is enumerated. The records of a listing that fits the
address space take less than `2 ^ 63` bytes. -/
theorem stream_enumerates (hs : StreamAt fd es 0 w) (hes : ∀ e ∈ es, Holdable e.name)
    (hspan : spanOf es < 2 ^ 63) : Enumerates fd es w where
  inOrder := by
    intro calls hc hroom
    obtain ⟨n, hn, hmin, -, hout⟩ := hs.reads hc hroom id StreamAt.read_roomy
    rw [Nat.zero_add] at hn
    rw [Nat.one_mul] at hmin
    rw [recordsAt, take_zero, drop_zero, spanOf_nil] at hout
    refine ⟨n, hn, hmin, ?_⟩
    rw [hout, decodeDirents_encode]
    exact holdable_direntsFrom hes (fun e he => mem_of_mem_take he) _ _
  bounded := by
    rintro calls hc r rfl
    obtain ⟨pos, hpos⟩ := hs.run hc
    obtain ⟨n, -, hout, hcap, -, -⟩ := StreamAt.read (t := { mem := .ofText [] }) hpos
    refine ⟨hcap, _, hout, fun k => ?_⟩
    rw [direntsFrom_take, length_flatMap_direntsFrom, spanOf_aligned]
  seeks := by
    rintro calls hc r r' rfl hfd' hwh
    obtain ⟨pos, hpos⟩ := hs.run hc
    obtain ⟨pos', hat, hseek⟩ := hpos.seek
    rw [← hfd'] at hat
    refine ⟨fun i d hd hoff => ?_, fun hoff => ?_⟩
    · rw [List.getElem?_map, Option.map_eq_some_iff] at hd
      obtain ⟨d', hd', rfl⟩ := hd
      obtain ⟨hi, hoff'⟩ := direntsFrom_off hd'
      have hle := spanOf_append (es.take (i + 1)) (es.drop (i + 1))
      rw [take_append_drop] at hle
      have harg : r.arg 1 = spanOf (es.take (i + 1)) := by
        rw [hoff, Dirent.clipped, hoff', Nat.zero_add]
        exact Nat.mod_eq_of_lt (by omega)
      obtain rfl := hseek (i + 1) hi hwh (by rw [harg, int64_of_lt (by omega)])
      exact hat.resumes hes
    · obtain rfl := hseek 0 (Nat.zero_le _) hwh (by rw [hoff, int64_of_lt (by omega)]; rfl)
      exact hat.resumes hes

/-! ## Failing reads -/

def streamPos (fd : Int) (w : World) : Option (Nat × Nat) :=
  (dirStream fd w).1.map fun ds => (ds.pos, ds.byteOff)

/-- If the call answers an error, the stream is where it was. -/
def ErrorKeeps (w : World) (c : StreamCall) : Prop :=
  Fails (c.serve w).1 → streamPos c.fd (StreamCall.step w c) = streamPos c.fd w

/-- The buffer of a read can be written, or no record is to be written: the stream is at its end, or
the next record does not fit. -/
def BufferSound (w : World) : StreamCall → Prop
  | .getdents t r => t.storable (r.arg 1) ∨ ∀ ds, (dirStream (int32 (r.arg 0)) w).1 = some ds →
      ∀ e ∈ ds.entries[ds.pos]?, r.arg 2 < direntReclen e.name
  | .lseek _ => True

def IsRead : StreamCall → Prop
  | .getdents _ _ => True
  | .lseek _ => False

/-- The loop writes nothing exactly if there is no next record, or no room for it. -/
theorem fill_out_eq_nil {cap : Nat} {ds : DirStream} :
    (fill cap (ds.entries.drop ds.pos) ⟨[], ds.pos, ds.byteOff⟩).out = [] ↔
      ∀ e ∈ ds.entries[ds.pos]?, cap < direntReclen e.name := by
  have hget : ds.entries[ds.pos]? = (ds.entries.drop ds.pos).head? := by
    rw [List.head?_drop]
  rw [hget]
  rcases ds.entries.drop ds.pos with _ | ⟨e, es⟩
  · simp [fill]
  · rw [fill]
    simp only [length_nil, Nat.zero_add, List.head?_cons, Option.mem_def, Option.some.injEq,
      forall_eq', nil_append]
    split_ifs with hc
    · simp [hc]
    · obtain ⟨n, -, he, -⟩ :=
        fill_spec cap es ⟨encodeDirent64 (direntAt ds.pos ds.byteOff e), ds.pos + 1,
        ds.byteOff + direntReclen e.name⟩
      have hne : encodeDirent64 (direntAt ds.pos ds.byteOff e) ≠ [] := by
        intro h
        have hlen := congrArg List.length h
        have hpos := direntReclen_pos (direntAt ds.pos ds.byteOff e).name
        rw [length_encodeDirent64, length_nil] at hlen
        omega
      rw [he]
      simp [hne, hc]

theorem errorKeeps_iff (w : World) {c : StreamCall} (hc : IsRead c) :
    ErrorKeeps w c ↔ BufferSound w c := by
  rcases c with ⟨t, r⟩ | r
  · unfold ErrorKeeps BufferSound streamPos StreamCall.step
    simp only [StreamCall.serve, StreamCall.fd]
    rcases hd : (dirStream (int32 (r.arg 0)) w).1 with _ | ds
    · rw [doGetdents64_of_none hd]
      exact ⟨fun _ => .inr nofun, fun _ ⟨e, he⟩ => by cases he⟩
    · obtain ⟨hans, hafter⟩ := @doGetdents64_of_stream w r t ds hd
      obtain ⟨n, hn, he, -⟩ := fill_spec (r.arg 2) (ds.entries.drop ds.pos) ⟨[], ds.pos, ds.byteOff⟩
      rw [hans, hafter]
      simp only [Option.map_some, Option.some.injEq, forall_eq', ← fill_out_eq_nil]
      by_cases h0 : (fill (r.arg 2) (ds.entries.drop ds.pos) ⟨[], ds.pos, ds.byteOff⟩).out = []
      · -- nothing is written, and nothing moves
        have hz : spanOf ((ds.entries.drop ds.pos).take n) = 0 := by
          rw [he, nil_append] at h0
          dsimp only at h0
          rw [← length_flatMap_direntsFrom ds.pos ds.byteOff, h0, length_nil]
        have hn0 : n = 0 := by
          by_contra hne
          have := spanOf_take_lt (i := 0) (Nat.pos_of_ne_zero hne) hn
          rw [hz] at this
          exact absurd this (Nat.not_lt_zero _)
        subst hn0
        rw [he]
        exact ⟨fun _ => .inr (by simp [direntsFrom]), fun _ _ => by simp⟩
      · -- records are written, so the stream has moved: it must not be an error
        have hmoved : ((fill (r.arg 2) (ds.entries.drop ds.pos) ⟨[], ds.pos, ds.byteOff⟩).pos,
            (fill (r.arg 2) (ds.entries.drop ds.pos) ⟨[], ds.pos, ds.byteOff⟩).byteOff) ≠
            (ds.pos, ds.byteOff) := by
          intro h
          rw [he] at h h0
          have hpos : ds.pos + n = ds.pos := congrArg Prod.fst h
          obtain rfl : n = 0 := by omega
          simp [direntsFrom] at h0
        rw [if_neg h0]
        unfold stored
        constructor
        · intro h
          by_contra hnot
          rw [not_or] at hnot
          exact hmoved (h ⟨.efault, if_neg hnot.1⟩)
        · rintro (hst | hnil) ⟨e, hf⟩
          · rw [if_pos hst] at hf
            injection hf with hf
            have := errnoCode_pos e
            omega
          · exact absurd hnil h0
  · exact absurd hc id

/-- One read with a sound buffer delivers all that it moves over. -/
theorem StreamAt.read_sound {t : Task} (hs : StreamAt (int32 (r.arg 0)) es pos w)
    (hsound : BufferSound w (.getdents t r)) :
    ∃ n, pos + n ≤ es.length ∧ (StreamCall.getdents t r).delivered w = recordsAt es pos n ∧
      StreamAt (int32 (r.arg 0)) es (pos + n) (StreamCall.step w (.getdents t r)) := by
  obtain ⟨n, hn, hout, -, -, hafter⟩ := @StreamAt.read w r t es pos hs
  refine ⟨n, hn, ?_, hafter⟩
  rcases hsound with hst | hnone
  · rw [delivered, if_pos hst, hout]
  · obtain ⟨ds, hds, -⟩ := hs
    have hnil : getdentsOut r w = [] := by
      unfold getdentsOut
      rw [hds]
      exact fill_out_eq_nil.2 (hnone ds hds)
    rw [delivered, ← hout, hnil, ite_self]

/-- In a run of reads, every error leaves the stream where it was exactly if no read has records for
a buffer that cannot be written; and then no entry is lost: what has been delivered are the records
of all entries up to where the stream is. -/
theorem read_errors_keep_position (hs : StreamAt fd es 0 w) (calls : List StreamCall)
    (hc : ∀ c ∈ calls, c.fd = fd ∧ IsRead c) :
    (Along StreamCall.step ErrorKeeps w calls ↔ Along StreamCall.step BufferSound w calls) ∧
      (Along StreamCall.step BufferSound w calls →
        ∃ n ≤ es.length, StreamAt fd es n (calls.foldl StreamCall.step w) ∧
        deliveredAll w calls = (direntsFrom 0 0 (es.take n)).flatMap encodeDirent64) := by
  refine ⟨Along.congr (fun w c hmem => errorKeeps_iff w (hc c hmem).2) w, fun hsound => ?_⟩
  have hboth : Along StreamCall.step (fun w c => BufferSound w c ∧ IsRead c) w calls :=
    (Along.congr (fun w c hmem => (and_iff_left (hc c hmem).2).symm) w).1 hsound
  obtain ⟨n, hn, -, hat, hout⟩ :=
      hs.reads (k := 0) (fun c hmem => (hc c hmem).1) hboth And.right fun h hb =>
    (StreamAt.read_sound h hb.1).imp fun n h => ⟨h.1, fun _ => n.zero_le, h.2⟩
  rw [Nat.zero_add] at hn hat
  exact ⟨n, hn, hat, by simpa [recordsAt] using hout⟩

end Sequences

/-! ## Two streams -/

def streamWorld (es : List VirtualDirent) : World :=
  { sockWorld with
    fdTables := fun _ => some { dirs := fun n => if n = 3 then some { entries := es } else none } }

theorem streamWorld_at (es : List VirtualDirent) : StreamAt 3 es 0 (streamWorld es) :=
  ⟨{ entries := es }, rfl, rfl, rfl, Nat.zero_le _, rfl⟩

def readCall (storable : Bool) (cap : Nat) : StreamCall :=
  .getdents { mem := .ofText [], storable := fun _ => storable }
    ⟨217, fun n => if n = 0 then 3 else if n = 2 then cap else 1⟩

/-- Two entries are read with a buffer for one record each. -/
theorem stream_enumerates_two :
    decodeDirents
      (deliveredAll (streamWorld [⟨['a'], .dir, 7⟩, ⟨['b'], .regular, 0⟩])
        [readCall true 24, readCall true 24]) = some [⟨7, 24, 4, ['a']⟩, ⟨2, 48, 8, ['b']⟩] := by
  have hall := stream_enumerates (streamWorld_at [⟨['a'], .dir, 7⟩, ⟨['b'], .regular, 0⟩])
    (by
      intro e he
      simp only [mem_cons, not_mem_nil, or_false] at he
      rcases he with rfl | rfl <;> exact ⟨by decide, by decide⟩)
    (by decide)
  obtain ⟨n, hn, hmin, hout⟩ := hall.inOrder [readCall true 24, readCall true 24] (by decide)
    ⟨⟨rfl, fun ds hds e he => by cases hds; cases he; decide⟩, ⟨rfl, fun ds hds e he => by
        have hpos :
          (dirStream 3
            (StreamCall.step (streamWorld [⟨['a'], .dir, 7⟩, ⟨['b'], .regular, 0⟩])
            (readCall true 24))).1 =
          some ⟨[⟨['a'], .dir, 7⟩, ⟨['b'], .regular, 0⟩], 1, [], 24⟩ := by decide +kernel
        cases hpos.symm.trans hds
        cases he
        decide⟩, trivial⟩
  obtain rfl : n = 2 := by
    simp at hn hmin
    omega
  rw [hout]
  decide

/-- A record whose length does not fit its field cannot be read back. -/
theorem not_enumerates_of_wrapped {e : VirtualDirent} (he : direntReclen e.name % 2 ^ 16 < 20) :
    ¬Enumerates 3 [e] (streamWorld [e]) := by
  intro h
  obtain ⟨n, hn, hmin, hout⟩ :=
    h.inOrder [readCall true (direntReclen e.name)] (fun c hc => by rw [mem_singleton.1 hc]; rfl)
    ⟨⟨rfl, fun ds hds e' he' => by cases hds; cases he'; exact le_rfl⟩, trivial⟩
  have hdel : deliveredAll (streamWorld [e]) [readCall true (direntReclen e.name)] =
      encodeDirent64 (direntAt 0 0 e) ++ [] := by
    simp [deliveredAll, readCall, delivered, getdentsOut, streamWorld, dirStream, World.fds, int32,
      fill]
  have hnone : decodeDirent64 (encodeDirent64 (direntAt 0 0 e) ++ []) = none := by
    unfold decodeDirent64
    rw [unle_reclen, if_pos (.inl he)]
  obtain ⟨fuel, hfuel⟩ : ∃ k, (encodeDirent64 (direntAt 0 0 e) ++ []).length = k + 1 := by
    have := direntReclen_pos (direntAt 0 0 e).name
    rw [append_nil, length_encodeDirent64]
    exact ⟨_, (Nat.succ_pred_eq_of_pos this).symm⟩
  have hne : encodeDirent64 (direntAt 0 0 e) ++ [] ≠ [] := by
    intro h0
    rw [h0] at hfuel
    cases hfuel
  rw [hdel, decodeDirents, hfuel, decodeFrom, if_neg hne, hnone] at hout
  cases hout

/-- The record of a name of 65509 bytes takes `2 ^ 16` bytes. -/
theorem long_name_breaks_stream :
    StreamAt 3 [⟨List.replicate 65509 'a', .regular, 1⟩] 0
      (streamWorld [⟨List.replicate 65509 'a', .regular, 1⟩]) ∧
      ¬Enumerates 3 [⟨List.replicate 65509 'a', .regular, 1⟩]
      (streamWorld [⟨List.replicate 65509 'a', .regular, 1⟩]) := by
  refine ⟨streamWorld_at _, not_enumerates_of_wrapped ?_⟩
  rw [direntReclen, length_replicate]
  decide

/-- A read with records for a buffer that cannot be written fails, and the next read goes on behind
them: the entry `a` is never delivered. -/
theorem failed_read_loses_entry :
    Fails ((readCall false 24).serve (streamWorld [⟨['a'], .dir, 7⟩, ⟨['b'], .regular, 9⟩])).1 ∧
      ¬ErrorKeeps (streamWorld [⟨['a'], .dir, 7⟩, ⟨['b'], .regular, 9⟩]) (readCall false 24) ∧
      decodeDirents
      (deliveredAll (streamWorld [⟨['a'], .dir, 7⟩, ⟨['b'], .regular, 9⟩])
        [readCall false 24, readCall true 512]) = some [⟨9, 48, 8, ['b']⟩] := by
  have hfail :
      ((readCall false 24).serve (streamWorld [⟨['a'], .dir, 7⟩, ⟨['b'], .regular, 9⟩])).1 =
      .fail .efault := by
    decide +kernel
  refine ⟨⟨_, hfail⟩, fun hk => ?_, by decide +kernel⟩
  have hpos := hk ⟨_, hfail⟩
  revert hpos
  decide +kernel

/-- A read with too small a buffer fails and loses nothing. -/
theorem read_errors_keep_position_small :
    Along StreamCall.step ErrorKeeps (streamWorld [⟨['a'], .dir, 7⟩, ⟨['b'], .regular, 9⟩])
      [readCall true 8, readCall true 512] := by
  refine (read_errors_keep_position (streamWorld_at _) [readCall true 8, readCall true 512]
      fun c hc => ?_).1.2
    ⟨.inl rfl, .inl rfl, trivial⟩
  simp only [mem_cons, not_mem_nil, or_false] at hc
  rcases hc with rfl | rfl <;> exact ⟨rfl, trivial⟩

end Linuxity.Abi

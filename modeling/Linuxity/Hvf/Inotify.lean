import Mathlib.Data.List.Basic

/-!
# Hvf.Inotify — inotify on top of a kqueue (`runtime/darwin/fdobj.hpp`)

The events of a batch are written until the guest's buffer is full.  The rest of the batch has left
the kernel's queue by then, and is kept nowhere.
-/

namespace Linuxity.Hvf.Inotify

open List

structure Watch where
  wd : Int
  mask : UInt32
  isDir : Bool

/-- The watch is in `udata`. -/
structure Kevent where
  wd : Int
  fflags : UInt32

/-- A record of 16 bytes; `cookie` and `len` are 0. -/
structure LinuxInotifyEvent where
  wd : Int
  mask : UInt32

/-- The record of an event, if there is anything to report. -/
def report (watches : List Watch) (ev : Kevent) : Option LinuxInotifyEvent :=
  (watches.find? (·.wd = ev.wd)).bind fun w =>
    -- `NOTE_WRITE`, `NOTE_EXTEND` and, for a directory, `NOTE_LINK`
    let entry := if w.isDir then if ev.fflags &&& 0x16 ≠ 0 then w.mask &&& 0x3ca else 0
      else if ev.fflags &&& 0x6 ≠ 0 then w.mask &&& 0xa else 0
    let attrib := if ev.fflags &&& 0x8 ≠ 0 then w.mask &&& 0x4 else 0
    -- `NOTE_DELETE`, `NOTE_REVOKE`
    let deleteSelf := if ev.fflags &&& 0x41 ≠ 0 then 0x400 else 0
    let moveSelf := if ev.fflags &&& 0x20 ≠ 0 then w.mask &&& 0x800 else 0
    let mask := entry ||| attrib ||| deleteSelf ||| moveSelf
    if mask = 0 then none else some ⟨ev.wd, mask⟩

/-- The loop of `drain`: the bytes in use at its end, and the records it has written. -/
def drain (watches : List Watch) (size : ℕ) : List Kevent → ℕ → ℕ × List LinuxInotifyEvent
  | [], used => (used, [])
  | ev :: evs, used =>
    match report watches ev with
    | none => drain watches size evs used
    | some e =>
      if size < used + 16 then (used, [])
      else
        let (n, es) := drain watches size evs (used + 16)
        (n, e :: es)

/-- A round of the loop in `read`, which ends with the first one to return something: the batch that
`kevent` gives it, and a buffer with room for a record. -/
structure Round where
  watches : List Watch
  size : ℕ
  batch : List Kevent
  room : 16 ≤ size

def Round.returned (r : Round) : ℕ × List LinuxInotifyEvent := drain r.watches r.size r.batch 0

/-- What there is to report of the events taken from the queue. -/
def Round.taken (r : Round) : List LinuxInotifyEvent := r.batch.filterMap (report r.watches)

/-- Records are whole, and after further rounds that find nothing new, all that was taken has been
returned once. -/
structure LosesNothing (rs : List Round) : Prop where
  whole : ∀ r ∈ rs, r.returned.1 = 16 * r.returned.2.length
  once : ∃ later : List Round, (∀ r ∈ later, r.taken = []) ∧
    (rs ++ later).flatMap (·.returned.2) ~ rs.flatMap (·.taken)

theorem drain_eq (watches : List Watch) (size : ℕ) (evs : List Kevent) (used : ℕ) :
    drain watches size evs used =
      (used + 16 * ((evs.filterMap (report watches)).take ((size - used) / 16)).length,
      (evs.filterMap (report watches)).take ((size - used) / 16)) := by
  induction evs generalizing used with
  | nil => simp [drain]
  | cons ev evs ih =>
    rw [drain]
    rcases hr : report watches ev with _ | e
    · rw [filterMap_cons_none hr]
      exact ih used
    · rw [filterMap_cons_some hr]
      dsimp only
      split_ifs with hfull
      · have h0 : (size - used) / 16 = 0 := by omega
        rw [h0]
        rfl
      · have hn : (size - used) / 16 = (size - (used + 16)) / 16 + 1 := by omega
        rw [ih, hn, take_succ_cons, length_cons]
        exact Prod.ext (by dsimp only; omega) rfl

theorem returned_eq (r : Round) :
    r.returned = (16 * (r.taken.take (r.size / 16)).length, r.taken.take (r.size / 16)) := by
  rw [Round.returned, drain_eq, Nat.zero_add]
  rfl

/-- A run returns no more than it takes, and as much only if every batch fits. -/
theorem length_returned (rs : List Round) :
    (rs.flatMap (·.returned.2)).length ≤ (rs.flatMap (·.taken)).length ∧
      ((rs.flatMap (·.taken)).length ≤ (rs.flatMap (·.returned.2)).length →
        ∀ r ∈ rs, 16 * r.taken.length ≤ r.size) := by
  induction rs with
  | nil => simp
  | cons r rs ih =>
    rw [flatMap_cons, flatMap_cons, length_append, length_append, returned_eq, length_take,
      forall_mem_cons]
    refine ⟨by omega, fun h => ⟨by omega, ih.2 (by omega)⟩⟩

theorem LosesNothing.fits {rs : List Round} (h : LosesNothing rs) :
    ∀ r ∈ rs, 16 * r.taken.length ≤ r.size := by
  obtain ⟨-, later, hnone, hperm⟩ := h
  have hle := (length_returned later).1
  have hlen := hperm.length_eq
  rw [flatMap_eq_nil_iff.2 hnone, length_nil] at hle
  rw [flatMap_append, length_append] at hlen
  exact (length_returned rs).2 (by omega)

/-- **No event is lost**, and records are whole, exactly if every batch has no more events to report
than the buffer has room for. -/
theorem loses_nothing_iff (rs : List Round) :
    LosesNothing rs ↔ ∀ r ∈ rs, 16 * r.taken.length ≤ r.size := by
  refine ⟨LosesNothing.fits, fun h => ⟨fun r _ => by rw [returned_eq], [], nofun, ?_⟩⟩
  rw [append_nil, flatMap_congr fun r hr => ?_]
  rw [returned_eq]
  exact take_of_length_le (by have := h r hr; omega)

/-- Two files that were written to, and a buffer for one record. -/
def twoWrites : Round := ⟨[⟨1, 2, false⟩, ⟨2, 2, false⟩], 16, [⟨1, 2⟩, ⟨2, 2⟩], by decide⟩

theorem second_event_lost : ¬LosesNothing [twoWrites] :=
  fun h => absurd (h.fits twoWrites (.head _)) (by decide)

end Linuxity.Hvf.Inotify

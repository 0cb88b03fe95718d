import Linuxity.Logic.Numeral
import Linuxity.Posix.Path

/-!
# Conform.Observation — when two runs of a scenario agree (`conform/observation.hpp`)

A reference trace and the guest's are compared step by step under a law, which says of some pairs
that they need not be compared.
-/

namespace Linuxity.Conform

open Posix Logic List

/-- What a call returned: a value, or an error number. -/
inductive Returned where
  | ok (value : ℤ)
  | failed (number : ℤ)
  deriving DecidableEq

def Returned.isOk : Returned → Bool
  | ok _ => true
  | failed _ => false

/-- `std::to_string` -/
def toStr (v : ℤ) : Str := if v < 0 then '-' :: printNum 10 v.natAbs else printNum 10 v.natAbs

/-- The errors that have a name in reports, with their numbers. -/
def errnoNames : List (ℤ × Str) :=
  [(1, "EPERM"), (2, "ENOENT"), (9, "EBADF"), (13, "EACCES"), (17, "EEXIST"), (20, "ENOTDIR"),
    (21, "EISDIR"), (22, "EINVAL"), (38, "ENOSYS"), (34, "ERANGE"), (29, "ESPIPE"), (40, "ELOOP"),
    (25, "ENOTTY"), (3, "ESRCH"), (61, "ENODATA"), (95, "EOPNOTSUPP"), (14, "EFAULT"),
    (10, "ECHILD"), (18, "EXDEV")]

def errnoName (e : ℤ) : Option Str := errnoNames.lookup e

def Returned.describe : Returned → Str
  | ok v => toStr v
  | failed e =>
    match errnoName e with
    | some n => '-' :: n
    | none => "-errno(" ++ toStr e ++ ")"

/-- A buffer that a call wrote, with the argument that points to it. -/
structure Written where
  arg : ℤ
  bytes : List UInt8
  deriving DecidableEq

def hexDigit (n : ℕ) : Char := if n < 10 then Char.ofNat (48 + n) else Char.ofNat (87 + n)

def hexByte (b : UInt8) : Str := [hexDigit (b.toNat / 16), hexDigit (b.toNat % 16)]

def renderBuffers (bufs : List Written) : Str :=
  if bufs = [] then "(wrote nothing)"
  else bufs.flatMap fun w =>
    "arg" ++ toStr w.arg ++ "[" ++ toStr w.bytes.length ++ "B]=" ++
      (w.bytes.take 16).flatMap (hexByte · ++ " ") ++
      (if 16 < w.bytes.length then "..." else "") ++ "; "

/-- All that one call produced. -/
structure Observation (κ : Type) where
  call : κ
  returned : Returned
  wrote : List Written := []
  note : Str := []
  deriving DecidableEq

structure Trace (κ : Type) where
  scenario : Str
  steps : List (Observation κ)

/-! ## The verdict -/

inductive Field where
  | returned | written | stepCount | callIdentity
  deriving DecidableEq

structure Divergence where
  index : ℕ
  field : Field
  native : Str
  guest : Str
  note : Str := []
  deriving DecidableEq

inductive Verdict where
  | agreed (stepsCompared : ℕ)
  | diverged (d : Divergence)
  deriving DecidableEq

section Judge

variable {κ : Type} [DecidableEq κ] (nameOf : κ → Str)
  (exempt : Observation κ → Observation κ → Bool)

/-- One pass of the loop. -/
def judgeStep (i : ℕ) (a b : Observation κ) : Option Divergence :=
  let differs (field : Field) (native guest : Str) :=
    some { index := i, field, native, guest, note := a.note }
  if a.call ≠ b.call then differs .callIdentity (nameOf a.call) (nameOf b.call)
  else if exempt a b then none
  else if a.returned ≠ b.returned then differs .returned a.returned.describe b.returned.describe
  else if a.wrote ≠ b.wrote then differs .written (renderBuffers a.wrote) (renderBuffers b.wrote)
  else none

/-- The loop, from step `i` on. -/
def judgeFrom (i : ℕ) : List (Observation κ × Observation κ) → Option Divergence
  | [] => none
  | p :: ps =>
    match judgeStep nameOf exempt i p.1 p.2 with
    | some d => some d
    | none => judgeFrom (i + 1) ps

def judge (reference guest : Trace κ) : Verdict :=
  let n := min reference.steps.length guest.steps.length
  match judgeFrom nameOf exempt 0 (reference.steps.zip guest.steps) with
  | some d => .diverged d
  | none =>
    if reference.steps.length ≠ guest.steps.length then
      .diverged { index := n, field := .stepCount, native := toStr reference.steps.length,
                  guest := toStr guest.steps.length }
    else .agreed n

/-- The same call, and the same outcome unless the pair is exempt. -/
def Agree (a b : Observation κ) : Prop :=
  a.call = b.call ∧ (exempt a b = false → a.returned = b.returned ∧ a.wrote = b.wrote)

/-- The field in which a pair differs first. -/
inductive DiffersIn (a b : Observation κ) : Field → Prop where
  | call : a.call ≠ b.call → DiffersIn a b .callIdentity
  | returned : a.call = b.call → exempt a b = false → a.returned ≠ b.returned →
      DiffersIn a b .returned
  | written : a.call = b.call → exempt a b = false → a.returned = b.returned → a.wrote ≠ b.wrote →
      DiffersIn a b .written

variable {exempt} {a b : Observation κ} {ps : List (Observation κ × Observation κ)} {i : ℕ}
  {d : Divergence}

omit [DecidableEq κ] in
theorem DiffersIn.not_agree {f : Field} (h : DiffersIn exempt a b f) : ¬Agree exempt a b := by
  rintro ⟨hcall, hsame⟩
  rcases h with h | ⟨-, hex, h⟩ | ⟨-, hex, -, h⟩
  · exact h hcall
  · exact h (hsame hex).1
  · exact h (hsame hex).2

variable {nameOf}

theorem judgeStep_none (h : judgeStep nameOf exempt i a b = none) : Agree exempt a b := by
  unfold judgeStep at h
  split_ifs at h with hcall hex hret hwrote
  · exact ⟨not_not.1 hcall, fun hno => absurd (hno ▸ hex) Bool.false_ne_true⟩
  · exact ⟨not_not.1 hcall, fun _ => ⟨not_not.1 hret, not_not.1 hwrote⟩⟩

theorem judgeStep_some (h : judgeStep nameOf exempt i a b = some d) :
    d.index = i ∧ DiffersIn exempt a b d.field := by
  unfold judgeStep at h
  split_ifs at h with hcall hex hret hwrote
  · cases h
    exact ⟨rfl, .call hcall⟩
  · cases h
    exact ⟨rfl, .returned (not_not.1 hcall) (eq_false_of_ne_true hex) hret⟩
  · cases h
    exact ⟨rfl, .written (not_not.1 hcall) (eq_false_of_ne_true hex) (not_not.1 hret) hwrote⟩

theorem judgeFrom_none (h : judgeFrom nameOf exempt i ps = none) :
    ∀ p ∈ ps, Agree exempt p.1 p.2 := by
  induction ps generalizing i with
  | nil => nofun
  | cons p ps ih =>
    rw [judgeFrom] at h
    split at h
    · cases h
    · rename_i hstep
      exact forall_mem_cons.2 ⟨judgeStep_none hstep, ih h⟩

/-- What is reported lies `k` steps on, and all before it agree. -/
theorem judgeFrom_some (h : judgeFrom nameOf exempt i ps = some d) : ∃ k p, d.index = i + k ∧
    ps[k]? = some p ∧ DiffersIn exempt p.1 p.2 d.field ∧ ∀ q ∈ ps.take k, Agree exempt q.1 q.2 := by
  induction ps generalizing i with
  | nil => cases h
  | cons p ps ih =>
    rw [judgeFrom] at h
    split at h
    · rename_i hstep
      cases h
      obtain ⟨hi, hd⟩ := judgeStep_some hstep
      exact ⟨0, p, hi, rfl, hd, nofun⟩
    · rename_i hstep
      obtain ⟨k, q, hi, hq, hd, hall⟩ := ih h
      exact ⟨k + 1, q, by omega, hq, hd, forall_mem_cons.2 ⟨judgeStep_none hstep, hall⟩⟩

/-- The verdict is the first divergence. -/
theorem judge_first_divergence (nameOf : κ → Str) (exempt : Observation κ → Observation κ → Bool)
    (reference guest : Trace κ) :
    ((∃ n, judge nameOf exempt reference guest = .agreed n) ↔
        reference.steps.length = guest.steps.length ∧
        ∀ p ∈ reference.steps.zip guest.steps, Agree exempt p.1 p.2) ∧
      ∀ d, judge nameOf exempt reference guest = .diverged d →
      (∀ p ∈ (reference.steps.zip guest.steps).take d.index, Agree exempt p.1 p.2) ∧
      ((∃ p, (reference.steps.zip guest.steps)[d.index]? = some p ∧
        DiffersIn exempt p.1 p.2 d.field) ∨
        (d.field = .stepCount ∧ d.index = min reference.steps.length guest.steps.length ∧
        reference.steps.length ≠ guest.steps.length)) := by
  unfold judge
  dsimp only
  rcases hj : judgeFrom nameOf exempt 0 (reference.steps.zip guest.steps) with _ | d'
  · have hall := judgeFrom_none hj
    dsimp only
    split_ifs with hlen
    · refine ⟨⟨nofun, fun h => absurd h.1 hlen⟩, ?_⟩
      rintro d ⟨⟩
      exact ⟨fun p hp => hall p (mem_of_mem_take hp), .inr ⟨rfl, rfl, hlen⟩⟩
    · exact ⟨⟨fun _ => ⟨not_not.1 hlen, hall⟩, fun _ => ⟨_, rfl⟩⟩, nofun⟩
  · obtain ⟨k, p, hi, hp, hd, hbefore⟩ := judgeFrom_some hj
    rw [Nat.zero_add] at hi
    refine ⟨⟨nofun, fun h => absurd (h.2 p (mem_of_getElem? hp)) hd.not_agree⟩, ?_⟩
    rintro d ⟨⟩
    rw [hi]
    exact ⟨hbefore, .inl ⟨p, hp, hd⟩⟩

end Judge

/-! ## The default law -/

/-- The calls that some law is about. -/
inductive Sysno where
  | open_ | openat | openat2 | creat | dup | dup2 | dup3 | socket | accept | accept4
  | epollCreate1 | eventfd2 | memfdCreate | inotifyInit1 | timerfdCreate | signalfd4 | pidfdOpen
  | ioctl | bind | connect | link | linkat | newfstatat | mknod | mknodat
  | getpid | gettid | getppid | getrandom | clockGettime | gettimeofday | time
  | other (n : ℕ)
  deriving DecidableEq

abbrev Law := Observation Sysno → Observation Sysno → Bool

/-- `Exempt{call, …}` -/
def exemptCall (c : Sysno) : Law := fun n g => n.call = c && g.call = c

def anyOf (ls : List Law) : Law := fun n g => ls.any fun l => l n g

def Sysno.returnsFd : Sysno → Bool
  | open_ | openat | openat2 | creat | dup | dup2 | dup3 | socket | accept | accept4
  | epollCreate1 | eventfd2 | memfdCreate | inotifyInit1 | timerfdCreate | signalfd4
  | pidfdOpen => true
  | _ => false

def fdNumbersDiffer : Law := fun n g =>
  if !n.call.returnsFd || n.call ≠ g.call then false else n.returned.isOk && g.returned.isOk

def Sysno.filtered : Sysno → Bool
  | ioctl | bind | connect | link | linkat | newfstatat | mknod | mknodat => true
  | _ => false

/-- An error that a policy produces: `EACCES` or `EPERM`. -/
def Returned.denied : Returned → Bool
  | ok _ => false
  | failed e => e = 13 || e = 1

/-- `kNotApplicable`: the call that this one depends on has failed. -/
def Returned.na : Returned → Bool
  | ok v => v = 2
  | failed _ => false

def hostPolicyMayDeny : Law := fun n g =>
  if !n.call.filtered || n.call ≠ g.call then false
  else if g.returned.isOk && n.returned.denied then true
  else if n.returned.na ≠ g.returned.na then true
  else n.returned.denied && !g.returned.isOk

/-- The calls that cannot agree between two processes. -/
def neverComparable : List Sysno :=
  [.getpid, .gettid, .getppid, .getrandom, .clockGettime, .gettimeofday, .time]

def universalExemptions : Law := anyOf (neverComparable.map exemptCall)

def defaultLaw : Law := anyOf [universalExemptions, fdNumbersDiffer, hostPolicyMayDeny]

/-- A success that says something: of a filtered call, one that is not marked as not applicable. -/
def Observation.answered (o : Observation Sysno) : Bool :=
  o.returned.isOk && !(o.call.filtered && o.returned.na)

/-- No exempt pair hides a regression. -/
def HidesNothing (n g : Observation Sysno) : Prop :=
  defaultLaw n g → ¬(n.returned.isOk ∧ ¬g.returned.isOk) ∧
    (n.answered → g.answered → n.wrote = g.wrote ∧ (n.call.filtered → n.returned = g.returned))

section Default

variable {n g : Observation Sysno}

theorem universalExemptions_eq_false (h : n.call ∉ neverComparable) :
    universalExemptions n g = false := by
  unfold universalExemptions anyOf
  rw [any_map, any_eq_false]
  intro c hc hx
  exact h (of_decide_eq_true (Bool.and_eq_true_iff.1 hx).1 ▸ hc)

theorem defaultLaw_iff (hcall : n.call = g.call) (hcmp : n.call ∉ neverComparable) :
    defaultLaw n g ↔ (n.call.returnsFd ∧ n.returned.isOk ∧ g.returned.isOk) ∨ (n.call.filtered ∧
      (n.returned.denied ∨ n.returned.na ≠ g.returned.na)) := by
  have hfd : fdNumbersDiffer n g ↔ n.call.returnsFd ∧ n.returned.isOk ∧ g.returned.isOk := by
    unfold fdNumbersDiffer
    cases n.call.returnsFd <;> simp [hcall]
  have hdeny : hostPolicyMayDeny n g ↔
      n.call.filtered ∧ (n.returned.denied ∨ n.returned.na ≠ g.returned.na) := by
    unfold hostPolicyMayDeny
    cases n.call.filtered <;> cases g.returned.isOk <;> cases n.returned.denied <;> simp [hcall]
  simp [defaultLaw, anyOf, universalExemptions_eq_false hcmp, hfd, hdeny]

theorem Sysno.filtered_of_returnsFd {c : Sysno} (h : c.returnsFd) : c.filtered = false := by
  cases c <;> first | rfl | cases h

/-- Nothing is hidden just where two descriptors came with the same buffers, and no failure of the
guest is set against a call that the native side marks as not applicable. -/
theorem default_law_hides_nothing_iff (hcall : n.call = g.call) (hcmp : n.call ∉ neverComparable) :
    HidesNothing n g ↔ (n.call.returnsFd → n.returned.isOk → g.returned.isOk → n.wrote = g.wrote) ∧
      (n.call.filtered → n.returned.na → g.returned.isOk) := by
  unfold HidesNothing Observation.answered
  rw [defaultLaw_iff hcall hcmp, ← hcall]
  by_cases hfd : n.call.returnsFd
  · have hfl := Sysno.filtered_of_returnsFd hfd
    rcases n.returned with v | e <;> rcases g.returned with v' | e' <;>
      simp [hfd, hfl, Returned.isOk]
  · by_cases hfl : n.call.filtered
    · -- the native side was denied, or one of the two is not applicable
      rcases n.returned with v | e <;> rcases g.returned with v' | e' <;>
        simp [hfd, hfl, Returned.isOk, Returned.denied, Returned.na]
      intro hne h1 h2
      simp [h1, h2] at hne
    · simp [hfd, hfl]

def peers (b : UInt8) : Observation Sysno :=
  { call := .accept4, returned := .ok 4, wrote := [⟨1, [2, b]⟩] }

theorem default_law_hides_nothing_iff_peers : HidesNothing (peers 1) (peers 1) :=
  (default_law_hides_nothing_iff rfl (by decide)).2 ⟨fun _ _ _ => rfl, nofun⟩

/-- Two calls of `accept4` that gave different peers. -/
theorem peers_hidden : ¬HidesNothing (peers 1) (peers 2) := by
  intro h
  have hwrote := ((h (by decide)).2 (by decide) (by decide)).1
  exact absurd hwrote (by decide)

end Default

end Linuxity.Conform
